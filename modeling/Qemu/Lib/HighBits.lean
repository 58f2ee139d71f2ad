import Mathlib

/-!
# Aligned blocks of addresses

A mask of high bits divides the values of a machine word into aligned blocks.  Masks of this form
are closed under conjunction and shifts to the left, and a shift joins neighbouring blocks.

**Main results:**
- `highMask_and`, `highMask_shiftLeft`: operations on masks
- `SameBlock.mono`: larger blocks are unions of smaller ones
- `widen_spec`: shifting a mask until two values share a block ends
-/

namespace Qemu.HighBits

open BitVec

variable {w j k : ℕ} {a b c : BitVec w}

/-- The mask of the bits from `k` on. -/
def highMask (w k : ℕ) : BitVec w := ~~~(BitVec.ofNat w (2 ^ k) - 1)

lemma toNat_ofNat_two_pow_sub_one (hk : k ≤ w) :
    (BitVec.ofNat w (2 ^ k) - 1).toNat = 2 ^ k - 1 := by
  have hpos := Nat.two_pow_pos k
  have hle : 2 ^ k ≤ 2 ^ w := Nat.pow_le_pow_right (by omega) hk
  rcases Nat.eq_zero_or_pos w with rfl | hw
  · obtain rfl : k = 0 := by omega
    simp
  have hone : 1 < 2 ^ w := Nat.one_lt_two_pow (by omega)
  rw [toNat_sub, toNat_ofNat, show (1 : BitVec w).toNat = 1 from Nat.mod_eq_of_lt hone]
  rcases Nat.lt_or_ge (2 ^ k) (2 ^ w) with hlt | hge
  · rw [Nat.mod_eq_of_lt hlt, show 2 ^ w - 1 + 2 ^ k = 2 ^ k - 1 + 2 ^ w by omega,
      Nat.add_mod_right]
    exact Nat.mod_eq_of_lt (by omega)
  · rw [show 2 ^ k = 2 ^ w by omega, Nat.mod_self]
    exact Nat.mod_eq_of_lt (by omega)

/-- The bits of the mask. -/
lemma getLsbD_highMask (hk : k ≤ w) {i : ℕ} (hi : i < w) :
    (highMask w k).getLsbD i = decide (k ≤ i) := by
  rw [highMask, getLsbD_not, getLsbD, toNat_ofNat_two_pow_sub_one hk, Nat.testBit_two_pow_sub_one]
  simp only [hi, decide_true, Bool.true_and, ← decide_not]
  exact decide_eq_decide.mpr (by omega)

/-- The smaller one of two masks is left. -/
lemma highMask_and (hj : j ≤ w) (hk : k ≤ w) :
    highMask w j &&& highMask w k = highMask w (max j k) := by
  ext i hi
  simp only [← getLsbD_eq_getElem, getLsbD_and]
  rw [getLsbD_highMask hj hi, getLsbD_highMask hk hi, getLsbD_highMask (max_le hj hk) hi,
    ← Bool.decide_and]
  exact decide_eq_decide.mpr max_le_iff.symm

/-- One bit less. -/
lemma highMask_shiftLeft (hk : k < w) : highMask w k <<< 1 = highMask w (k + 1) := by
  ext i hi
  rw [← getLsbD_eq_getElem, ← getLsbD_eq_getElem, getLsbD_shiftLeft,
    getLsbD_highMask (show k + 1 ≤ w from hk) hi, getLsbD_highMask hk.le (by omega)]
  simp only [hi, decide_true, Bool.true_and, ← decide_not, ← Bool.decide_and]
  exact decide_eq_decide.mpr (by omega)

lemma highMask_self : highMask w w = 0 := by
  ext i hi
  rw [← getLsbD_eq_getElem, getLsbD_highMask le_rfl hi]
  simp [hi]

/-- Two values lie in one block of size `2 ^ k`. -/
def SameBlock (k : ℕ) (a b : BitVec w) : Prop := a &&& highMask w k = b &&& highMask w k

lemma SameBlock.symm (h : SameBlock k a b) : SameBlock k b a := Eq.symm h

lemma SameBlock.trans (hab : SameBlock k a b) (hbc : SameBlock k b c) : SameBlock k a c :=
  Eq.trans hab hbc

/-- A block lies inside of a larger one. -/
lemma SameBlock.mono (hj : j ≤ k) (hk : k ≤ w) (h : SameBlock j a b) : SameBlock k a b := by
  have hmask : highMask w k = highMask w j &&& highMask w k := by
    rw [highMask_and (hj.trans hk) hk, max_eq_right hj]
  rw [SameBlock, hmask, ← BitVec.and_assoc, ← BitVec.and_assoc, h]

lemma and_highMask_and (hj : j ≤ k) (hk : k ≤ w) (a : BitVec w) :
    a &&& highMask w j &&& highMask w k = a &&& highMask w k := by
  rw [BitVec.and_assoc, highMask_and (hj.trans hk) hk, max_eq_right hj]

/-- Values in one block agree on all bits from `k` on. -/
lemma SameBlock.ushiftRight_eq (hk : k ≤ w) (h : SameBlock k a b) : a >>> k = b >>> k := by
  ext i hi
  rw [← getLsbD_eq_getElem, ← getLsbD_eq_getElem, getLsbD_ushiftRight, getLsbD_ushiftRight]
  rcases Nat.lt_or_ge (k + i) w with hlt | hge
  · have hbit := congrArg (fun x => x.getLsbD (k + i)) h
    simpa [getLsbD_and, getLsbD_highMask hk hlt] using hbit
  · rw [getLsbD_of_ge _ _ hge, getLsbD_of_ge _ _ hge]

lemma xor_and_eq_zero_iff (m : BitVec w) : (a ^^^ b) &&& m = 0 ↔ a &&& m = b &&& m := by
  rw [show (a ^^^ b) &&& m = (a &&& m) ^^^ (b &&& m) from eq_of_getLsbD_eq fun i _ => by
    simp only [getLsbD_and, getLsbD_xor, Bool.and_xor_distrib_right]]
  exact BitVec.xor_eq_zero_iff

/-! ## Joining blocks -/

/-- `while ((x & mask) != 0) mask <<= 1`, of at most `n` rounds. -/
def widen (x : BitVec w) : ℕ → BitVec w → BitVec w
  | 0, mask => mask
  | n + 1, mask => if x &&& mask = 0 then mask else widen x n (mask <<< 1)

/-- After as many rounds as there are bits the loop has ended, with a mask of high bits no larger
than the first one. -/
lemma widen_spec (x : BitVec w) {n : ℕ} (hk : k ≤ w) (hn : w ≤ k + n) :
    ∃ l, k ≤ l ∧ l ≤ w ∧ widen x n (highMask w k) = highMask w l ∧ x &&& highMask w l = 0 := by
  induction n generalizing k with
  | zero =>
    obtain rfl : k = w := by omega
    exact ⟨k, le_rfl, le_rfl, rfl, by rw [highMask_self]; exact and_zero⟩
  | succ n ih =>
    rw [widen]
    split_ifs with hx
    · exact ⟨k, le_rfl, hk, rfl, hx⟩
    have hlt : k < w := by
      refine lt_of_le_of_ne hk ?_
      rintro rfl
      exact hx (by rw [highMask_self]; exact and_zero)
    rw [highMask_shiftLeft hlt]
    obtain ⟨l, hkl, hl⟩ := ih hlt (by omega)
    exact ⟨l, by omega, hl⟩

end Qemu.HighBits
