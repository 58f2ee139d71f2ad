import Mathlib

/-!
# Wide multiplication

`mulu64` and `muls64` of `host-utils.c`, as they are compiled for hosts without a wide
multiplication, and `muldiv64` of `qemu-common.h`.  A number of 128 bits is a pair of words, the low
one first.

**Main results:**
- `mul64_exact`: the unsigned and the signed product, for all operands
- `muldiv64_eq`: the rounded quotient, if it has 64 bits
-/

namespace Qemu.Cutils

/-- The words `*plow` and `*phigh`. -/
abbrev Words := BitVec 64 × BitVec 64

/-- `add128`. -/
def add128 (p : Words) (a b : BitVec 64) : Words :=
  let low := p.1 + a
  -- carry test
  let high := if low < a then p.2 + 1#64 else p.2
  (low, high + b)

/-- `neg128`. -/
def neg128 (p : Words) : Words := add128 (~~~p.1, ~~~p.2) 1#64 0#64

/-- `mul64`: the halves are of type `uint32_t`, and their products of type `uint64_t`. -/
def mul64 (a b : BitVec 64) : Words :=
  let a0 := a.setWidth 32
  let a1 := (a >>> 32).setWidth 32
  let b0 := b.setWidth 32
  let b1 := (b >>> 32).setWidth 32
  let p := (a0.setWidth 64 * b0.setWidth 64, 0#64)
  let v := a0.setWidth 64 * b1.setWidth 64
  let p := add128 p (v <<< 32) (v >>> 32)
  let v := a1.setWidth 64 * b0.setWidth 64
  let p := add128 p (v <<< 32) (v >>> 32)
  (p.1, p.2 + a1.setWidth 64 * b1.setWidth 64)

/-- `mulu64`. -/
def mulu64 (a b : BitVec 64) : Words := mul64 a b

/-- `muls64`. -/
def muls64 (a b : BitVec 64) : Words :=
  let sa := a.slt 0
  let sb := b.slt 0
  let p := mul64 (if sa then -a else a) (if sb then -b else b)
  if sa ^^ sb then neg128 p else p

/-- The number that two words hold. -/
def value (p : Words) : ℕ := p.1.toNat + 2 ^ 64 * p.2.toNat

/-- The number that two words hold in two's complement. -/
def signedValue (p : Words) : ℤ := if value p < 2 ^ 127 then value p else (value p : ℤ) - 2 ^ 128

variable (p : Words) (a b : BitVec 64)

lemma value_add128 : value (add128 p a b) = (value p + a.toNat + 2 ^ 64 * b.toNat) % 2 ^ 128 := by
  have hlow := p.1.isLt
  simp only [value, add128, BitVec.lt_def]
  split_ifs with h <;> simp only [BitVec.toNat_add, BitVec.toNat_ofNat] at h ⊢ <;> omega

lemma value_neg128 : value (neg128 p) = (2 ^ 128 - value p) % 2 ^ 128 := by
  have hlow := p.1.isLt
  have hhigh := p.2.isLt
  rw [neg128, value_add128, value, value]
  simp only [BitVec.toNat_not, BitVec.toNat_ofNat]
  omega

/-- A partial product goes to the middle of the result. -/
lemma value_add128_shift : value
    (add128 p (a <<< 32) (a >>> 32)) = (value p + 2 ^ 32 * a.toNat) % 2 ^ 128 := by
  rw [value_add128]
  simp only [BitVec.toNat_shiftLeft, BitVec.toNat_ushiftRight, Nat.shiftLeft_eq,
    Nat.shiftRight_eq_div_pow]
  omega

lemma toNat_mul_half (x y : BitVec 32) :
    (x.setWidth 64 * y.setWidth 64).toNat = x.toNat * y.toNat := by
  have hlt : x.toNat * y.toNat < 2 ^ 32 * 2 ^ 32 := Nat.mul_lt_mul'' x.isLt y.isLt
  simp only [BitVec.toNat_mul, BitVec.toNat_setWidth]
  rw [Nat.mod_eq_of_lt (by omega : x.toNat < 2 ^ 64),
    Nat.mod_eq_of_lt (by omega : y.toNat < 2 ^ 64), Nat.mod_eq_of_lt (by omega)]

/-- The four partial products make up the product of the operands. -/
lemma value_mul64 : value (mul64 a b) = a.toNat * b.toNat := by
  have hlt : a.toNat * b.toNat < 2 ^ 64 * 2 ^ 64 := Nat.mul_lt_mul'' a.isLt b.isLt
  have hhigh : ∀ (p : Words) v, value (p.1, p.2 + v) = (value p + 2 ^ 64 * v.toNat) % 2 ^ 128 := by
    intro p v
    have := p.1.isLt
    simp only [value, BitVec.toNat_add]
    omega
  have halves : ∀ x : BitVec 64, x.toNat =
      (x.setWidth 32).toNat + 2 ^ 32 * ((x >>> 32).setWidth 32).toNat := by
    intro x
    have := x.isLt
    simp only [BitVec.toNat_setWidth, BitVec.toNat_ushiftRight, Nat.shiftRight_eq_div_pow]
    omega
  rw [mul64, hhigh, value_add128_shift, value_add128_shift]
  simp only [value, toNat_mul_half, BitVec.toNat_ofNat, Nat.zero_mod, Nat.mod_add_mod,
    mul_zero, add_zero]
  rw [← Nat.mod_eq_of_lt hlt, halves a, halves b]
  congr 1
  ring

lemma slt_zero : a.slt 0 = decide (a.toInt < 0) := by simp [BitVec.slt]

lemma toNat_abs : (if a.slt 0 then -a else a).toNat = a.toInt.natAbs := by
  have hlt := a.isLt
  have hint := a.toInt_eq_toNat_cond
  have hneg := a.toNat_neg
  rw [slt_zero]
  split_ifs at hint ⊢ <;> grind

lemma sign_mul : if a.slt 0 ^^ b.slt 0 then a.toInt * b.toInt ≤ 0 else 0 ≤ a.toInt * b.toInt := by
  rw [slt_zero, slt_zero]
  rcases lt_or_ge a.toInt 0 with ha | ha <;> rcases lt_or_ge b.toInt 0 with hb | hb <;>
    simp only [ha, hb, not_lt.mpr, decide_true, decide_false, Bool.xor_self, Bool.xor_true,
      Bool.xor_false, Bool.not_false, if_true]
  · exact mul_nonneg_of_nonpos_of_nonpos ha.le hb.le
  · exact mul_nonpos_of_nonpos_of_nonneg ha.le hb
  · exact mul_nonpos_of_nonneg_of_nonpos ha hb.le
  · exact mul_nonneg ha hb

lemma natAbs_le : a.toInt.natAbs ≤ 2 ^ 63 := by
  have := a.le_toInt
  have := a.toInt_lt
  omega

lemma signedValue_muls64 : signedValue (muls64 a b) = a.toInt * b.toInt := by
  have hmul := value_mul64 (if a.slt 0 then -a else a) (if b.slt 0 then -b else b)
  have hle := Nat.mul_le_mul (natAbs_le a) (natAbs_le b)
  have hsign := sign_mul a b
  rw [toNat_abs, toNat_abs] at hmul
  rw [← Int.natAbs_mul] at hle hmul
  rw [muls64]
  by_cases h : (a.slt 0 ^^ b.slt 0) = true
  · rw [if_pos h] at hsign
    rw [if_pos h, signedValue, value_neg128, hmul]
    split_ifs <;> omega
  · rw [if_neg h] at hsign
    rw [if_neg h, signedValue, hmul]
    split_ifs <;> omega

/-- **Both products are exact**, for all operands. -/
theorem mul64_exact : value (mulu64 a b) = a.toNat * b.toNat ∧ signedValue
    (muls64 a b) = a.toInt * b.toInt :=
  ⟨value_mul64 a b, signedValue_muls64 a b⟩

/-- `muldiv64`, for operands of 64, 32 and 32 bits. -/
def muldiv64 (a b c : ℕ) : ℕ :=
  let rl := a % 2 ^ 32 * b
  let rh := a / 2 ^ 32 * b + rl / 2 ^ 32
  let high := rh / c % 2 ^ 32
  let low := (rh % c * 2 ^ 32 + rl % 2 ^ 32) / c % 2 ^ 32
  high * 2 ^ 32 + low

/-- **`muldiv64`** only loses the high bits of a quotient of more than 64 bits. -/
theorem muldiv64_eq {a b c : ℕ} (hc : 0 < c) (hlt : a * b / c < 2 ^ 64) :
    muldiv64 a b c = a * b / c := by
  rw [muldiv64]
  generalize hrl : a % 2 ^ 32 * b = rl
  generalize hrh : a / 2 ^ 32 * b + rl / 2 ^ 32 = rh
  have hprod : a * b = rh * 2 ^ 32 + rl % 2 ^ 32 := by
    have h : a * b = (2 ^ 32 * (a / 2 ^ 32) + a % 2 ^ 32) * b := by rw [Nat.div_add_mod]
    rw [add_mul, hrl, mul_assoc] at h
    omega
  -- the remainder of the high word goes into the division for the low one
  have hquot : a * b / c = rh / c * 2 ^ 32 + (rh % c * 2 ^ 32 + rl % 2 ^ 32) / c := by
    have h : a * b = rh % c * 2 ^ 32 + rl % 2 ^ 32 + c * (rh / c * 2 ^ 32) := by
      rw [hprod, ← mul_assoc, add_right_comm, ← add_mul, Nat.mod_add_div]
    rw [h, Nat.add_mul_div_left _ _ hc, add_comm]
  have hlow : (rh % c * 2 ^ 32 + rl % 2 ^ 32) / c < 2 ^ 32 := by
    rw [Nat.div_lt_iff_lt_mul hc]
    have := Nat.mod_lt rh hc
    omega
  have hhigh : rh / c < 2 ^ 32 := by
    rw [hquot] at hlt
    exact Nat.lt_of_mul_lt_mul_right (a := 2 ^ 32) ((Nat.le_add_right ..).trans_lt hlt)
  rw [hquot, Nat.mod_eq_of_lt hlow, Nat.mod_eq_of_lt hhigh]

end Qemu.Cutils
