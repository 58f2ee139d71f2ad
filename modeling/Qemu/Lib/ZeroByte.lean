import Mathlib

/-!
# Words of bytes and the search for a zero byte

A word is the number whose digits to the base 256 are its bytes.  For a word `x` and the word `ones`
with all bytes 1, the bits of `(x - ones) & ~x & (ones << 7)` are those of the zero bytes of `x`, up
to bits above the lowest zero byte.  So the term is zero exactly if `x` has no zero byte.

**Main results:**
- `ofBytes_inj`, `ofBytes_xor`: bytes and words
- `zeroByteTest_eq_zero_iff`: the test on a word of bytes
-/

namespace Qemu.ZeroByte

open List Nat BitVec

/-- The word of a list of bytes, the lowest first. -/
def ofBytes (bytes : List UInt8) : ℕ := ofDigits 256 (bytes.map UInt8.toNat)

@[simp] lemma ofBytes_cons (b : UInt8) (bytes : List UInt8) :
    ofBytes (b :: bytes) = b.toNat + 256 * ofBytes bytes := by
  simp [ofBytes, ofDigits_cons]

lemma ofBytes_lt (bytes : List UInt8) : ofBytes bytes < 256 ^ bytes.length := by
  have h := ofDigits_lt_base_pow_length (b := 256) (l := bytes.map UInt8.toNat)
    (by omega) (fun x hx => by
      obtain ⟨b, -, rfl⟩ := mem_map.mp hx
      exact b.toNat_lt)
  rwa [length_map] at h

variable {bytes bytes' : List UInt8} {a c n y : ℕ}

lemma ofBytes_inj (hlen : bytes.length = bytes'.length) :
    ofBytes bytes = ofBytes bytes' ↔ bytes = bytes' := by
  refine ⟨fun h => ?_, fun h => h ▸ rfl⟩
  have hlt : ∀ l : List UInt8, ∀ x ∈ l.map UInt8.toNat, x < 256 := by
    intro l x hx
    obtain ⟨b, -, rfl⟩ := mem_map.mp hx
    exact b.toNat_lt
  have hmap := ofDigits_inj_of_len_eq (b := 256) (by omega) (by simpa using hlen)
    (hlt bytes) (hlt bytes') h
  exact map_injective_iff.mpr (fun _ _ => UInt8.toNat_inj.mp) hmap

/-! ## Bitwise operations, byte by byte -/

lemma testBit_byte_add (ha : a < 256) (u j : ℕ) :
    (a + 256 * u).testBit j = if j < 8 then a.testBit j else u.testBit (j - 8) := by
  rw [add_comm, show 256 = 2 ^ 8 from rfl]
  exact testBit_two_pow_mul_add u ha j

lemma and_byte_add (ha : a < 256) (hc : c < 256) (u v : ℕ) :
    (a + 256 * u) &&& (c + 256 * v) = (a &&& c) + 256 * (u &&& v) := by
  refine eq_of_testBit_eq fun j => ?_
  rw [testBit_and, testBit_byte_add ha, testBit_byte_add hc,
    testBit_byte_add (lt_of_le_of_lt and_le_left ha)]
  split_ifs <;> rw [testBit_and]

lemma xor_byte_add (ha : a < 256) (hc : c < 256) (u v : ℕ) :
    (a + 256 * u) ^^^ (c + 256 * v) = (a ^^^ c) + 256 * (u ^^^ v) := by
  have hac : a ^^^ c < 256 := xor_lt_two_pow (n := 8) ha hc
  refine eq_of_testBit_eq fun j => ?_
  rw [testBit_xor, testBit_byte_add ha, testBit_byte_add hc, testBit_byte_add hac]
  split_ifs <;> rw [testBit_xor]

lemma ofBytes_xor (bytes : List UInt8) : ∀ bytes' : List UInt8, bytes.length = bytes'.length →
    ofBytes bytes ^^^ ofBytes bytes' = ofBytes (zipWith (· ^^^ ·) bytes bytes') := by
  induction bytes with
  | nil =>
    intro bytes' hlen
    rw [length_eq_zero_iff.mp hlen.symm]
    rfl
  | cons b bytes ih =>
    rintro (_ | ⟨b', bytes'⟩) hlen
    · cases hlen
    · rw [zipWith_cons_cons, ofBytes_cons, ofBytes_cons, ofBytes_cons,
        xor_byte_add b.toNat_lt b'.toNat_lt, ih bytes' (by simpa using hlen), UInt8.toNat_xor]

/-! ## The test -/

/-- The word of `n` bytes 1. -/
def ones : ℕ → ℕ
  | 0 => 0
  | n + 1 => 1 + 256 * ones n

lemma ones_add_one_le (n : ℕ) : ones n + 1 ≤ 256 ^ n ∧ 128 * ones n < 256 ^ n := by
  induction n with
  | zero => exact ⟨le_rfl, by decide⟩
  | succ n ih =>
    rw [ones, pow_succ]
    omega

/-- The value of the test for a word of `n` bytes. -/
def zeroByteBits (n x : ℕ) : ℕ :=
  ((256 ^ n - ones n + x) % 256 ^ n) &&& (256 ^ n - 1 - x) &&& (128 * ones n)

/-- The test, byte by byte: the subtraction leaves `c` of the lowest byte, and `z` of the others. -/
lemma zeroByteBits_succ {b z : ℕ} (hb : b < 256) (hc : c < 256) (hy : y < 256 ^ n)
    (hsub : 256 * 256 ^ n - (1 + 256 * ones n) + (b + 256 * y) = c + 256 * z) :
    zeroByteBits (n + 1) (b + 256 * y) = (c &&& (255 - b) &&& 128) +
      256 * (z % 256 ^ n &&& (256 ^ n - 1 - y) &&& 128 * ones n) := by
  have hmod : (c + 256 * z) % (256 * 256 ^ n) = c + 256 * (z % 256 ^ n) := by
    rw [mod_mul, show (c + 256 * z) / 256 = z by omega, show (c + 256 * z) % 256 = c by omega]
  have hnot : 256 * 256 ^ n - 1 - (b + 256 * y) = (255 - b) + 256 * (256 ^ n - 1 - y) := by omega
  have hmask : 128 * ones (n + 1) = 128 + 256 * (128 * ones n) := by
    rw [ones]
    ring
  rw [zeroByteBits, hmask, ones, pow_succ, mul_comm (256 ^ n), hsub, hmod, hnot,
    and_byte_add hc (by omega), and_byte_add (lt_of_le_of_lt and_le_left hc) (by omega)]

lemma zeroByteBits_succ_of_ne {b : ℕ} (hb : b < 256) (hne : b ≠ 0) (hy : y < 256 ^ n) :
    zeroByteBits (n + 1) (b + 256 * y) = 256 * zeroByteBits n y := by
  have hones := (ones_add_one_le n).1
  have hlow : ∀ b < 256, b ≠ 0 → (b - 1) &&& (255 - b) &&& 128 = 0 := by decide +kernel
  rw [zeroByteBits_succ (c := b - 1) (z := 256 ^ n - ones n + y) hb (by omega) hy (by omega),
    hlow b hb hne, zero_add, zeroByteBits]

/-- A zero byte with no zero byte below it leaves its highest bit. -/
lemma zeroByteBits_succ_zero (hy : y < 256 ^ n) : zeroByteBits (n + 1) (0 + 256 * y) ≠ 0 := by
  have hones := (ones_add_one_le n).1
  have hlow : 255 &&& (255 - 0) &&& 128 = 128 := by decide
  rw [zeroByteBits_succ (c := 255) (z := 256 ^ n - ones n + y - 1) (by omega) (by omega) hy
    (by omega), hlow]
  omega

lemma zeroByteBits_ofBytes (bytes : List UInt8) :
    zeroByteBits bytes.length (ofBytes bytes) = 0 ↔ ∀ b ∈ bytes, b ≠ 0 := by
  induction bytes with
  | nil => simp [zeroByteBits, ones]
  | cons b bytes ih =>
    rw [length_cons, ofBytes_cons, forall_mem_cons]
    by_cases hb : b = 0
    · subst hb
      exact iff_of_false (zeroByteBits_succ_zero (ofBytes_lt bytes)) (fun h => h.1 rfl)
    · have hne : b.toNat ≠ 0 := fun h => hb (UInt8.toNat_inj.mp h)
      rw [zeroByteBits_succ_of_ne b.toNat_lt hne (ofBytes_lt bytes), ← ih]
      simp [hb]

/-- The test as it is computed with words of `w` bits. -/
def zeroByteTest {w : ℕ} (mask x : BitVec w) : BitVec w := (x - mask) &&& ~~~x &&& (mask <<< 7)

/-- The test finds out whether a word has a zero byte. -/
theorem zeroByteTest_eq_zero_iff (hlen : bytes.length = n) {mask : BitVec (8 * n)}
    (hmask : mask.toNat = ones n) :
    zeroByteTest mask (BitVec.ofNat _ (ofBytes bytes)) = 0 ↔ ∀ b ∈ bytes, b ≠ 0 := by
  subst hlen
  have hpow : 2 ^ (8 * bytes.length) = 256 ^ bytes.length := by rw [pow_mul]; rfl
  have hlt := ofBytes_lt bytes
  have hones := (ones_add_one_le bytes.length).2
  have htoNat : (zeroByteTest mask (BitVec.ofNat _ (ofBytes bytes))).toNat =
      zeroByteBits bytes.length (ofBytes bytes) := by
    have hshift : ones bytes.length <<< 7 = 128 * ones bytes.length := by
      rw [Nat.shiftLeft_eq, mul_comm]
    rw [zeroByteTest, toNat_and, toNat_and, toNat_sub, toNat_not,
      toNat_shiftLeft, toNat_ofNat, hpow, hmask, mod_eq_of_lt hlt, hshift,
      mod_eq_of_lt hones, zeroByteBits]
  rw [← zeroByteBits_ofBytes, ← htoNat]
  exact ⟨fun h => by rw [h]; rfl, fun h => eq_of_toNat_eq h⟩

/-- Words of the same number of bytes are equal if their bytes are. -/
lemma ofNat_ofBytes_inj (hlen : bytes.length = n) (hlen' : bytes'.length = n) :
    BitVec.ofNat (8 * n) (ofBytes bytes) = BitVec.ofNat (8 * n) (ofBytes bytes') ↔
      bytes = bytes' := by
  have hpow : 2 ^ (8 * n) = 256 ^ n := by rw [pow_mul]; rfl
  rw [← ofBytes_inj (hlen.trans hlen'.symm), ← toNat_inj, toNat_ofNat, toNat_ofNat,
    hpow, mod_eq_of_lt (hlen ▸ ofBytes_lt bytes), mod_eq_of_lt (hlen' ▸ ofBytes_lt bytes')]

lemma zeroByteTest_xor_eq_zero_iff (hlen : bytes.length = n) (hlen' : bytes'.length = n)
    {mask : BitVec (8 * n)} (hmask : mask.toNat = ones n) :
    zeroByteTest mask (BitVec.ofNat _ (ofBytes bytes) ^^^ BitVec.ofNat _ (ofBytes bytes')) = 0 ↔
      ∀ k < n, bytes[k]? ≠ bytes'[k]? := by
  rw [← ofNat_xor, ofBytes_xor bytes bytes' (hlen.trans hlen'.symm),
    zeroByteTest_eq_zero_iff (by rw [length_zipWith, hlen, hlen', min_self]) hmask]
  constructor
  · intro h k hk heq
    rw [List.getElem?_eq_getElem (by omega), List.getElem?_eq_getElem (by omega),
      Option.some.injEq] at heq
    refine h (bytes[k] ^^^ bytes'[k]) ?_ (by rw [heq, UInt8.xor_self])
    exact mem_iff_getElem.mpr ⟨k, by rw [length_zipWith]; omega, getElem_zipWith⟩
  · intro h b hb hzero
    obtain ⟨k, hk, rfl⟩ := mem_iff_getElem.mp hb
    rw [length_zipWith] at hk
    rw [getElem_zipWith, UInt8.xor_eq_zero_iff] at hzero
    refine h k (by omega) ?_
    rw [List.getElem?_eq_getElem (by omega), List.getElem?_eq_getElem (by omega), hzero]

end Qemu.ZeroByte
