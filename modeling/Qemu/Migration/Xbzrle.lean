import Qemu.Lib.ZeroByte

/-!
# The XBZRLE codec

`xbzrle_encode_buffer` and `xbzrle_decode_buffer` of `savevm.c`, with the lengths of
`uleb128_encode_small` and `uleb128_decode_small` of `cutils.c`.

A function returns `none` if it would read or write outside of a buffer or fail an assertion.  The
loops have fuel, and `none` also stands for a loop that does not end.

**Main results:**
- `zeroRun_spec`, `nzRun_spec`: the runs that the encoder finds
- `xbzrleDecodeBuffer_safe`: the decoder stays in its buffers on every input
-/

namespace Qemu.Xbzrle

open Nat Option ZeroByte

/-- What the code depends on of the host. -/
structure Host where
  sizeofLong : ℕ
  bigEndian : Bool
  sizeofLong_eq : sizeofLong = 4 ∨ sizeofLong = 8

lemma Host.pos (host : Host) : 0 < host.sizeofLong := by
  rcases host.sizeofLong_eq with h | h <;> omega

/-! ## Memory -/

/-- `*(long *)(buf + i)`. -/
def Host.load (host : Host) (buf : List UInt8) (i : ℕ) : Option (BitVec (8 * host.sizeofLong)) :=
  if i + host.sizeofLong ≤ buf.length then
    let bytes := (buf.drop i).take host.sizeofLong
    some (BitVec.ofNat _ (ofBytes (if host.bigEndian = true then bytes.reverse else bytes)))
  else none

def store (buf : List UInt8) (i : ℕ) (b : UInt8) : Option (List UInt8) :=
  if i < buf.length then some (buf.set i b) else none

/-- `memcpy(dst + d, src + i, n)`. -/
def memcpy (dst : List UInt8) (d : ℕ) (src : List UInt8) (i n : ℕ) : Option (List UInt8) :=
  if d + n ≤ dst.length ∧ i + n ≤ src.length then
    some (dst.take d ++ (src.drop i).take n ++ dst.drop (d + n))
  else none

/-! ## Lengths -/

/-- `uleb128_encode_small(out + d, n)`: the buffer and the number of bytes written. -/
def uleb128EncodeSmall (out : List UInt8) (d n : ℕ) : Option (List UInt8 × ℕ) :=
  if n ≤ 0x3fff then
    if n < 0x80 then do
      let out ← store out d (UInt8.ofNat n)
      some (out, 1)
    else do
      let out ← store out d (UInt8.ofNat (n &&& 0x7f ||| 0x80))
      let out ← store out (d + 1) (UInt8.ofNat (n >>> 7))
      some (out, 2)
  else none

/-- `uleb128_decode_small(in + i, &n)`: the number of bytes read and the length, none for `-1`. -/
def uleb128DecodeSmall (src : List UInt8) (i : ℕ) : Option (Option (ℕ × ℕ)) := do
  let b ← src[i]?
  if b &&& 0x80 = 0 then some (some (1, b.toNat))
  else
    let b' ← src[i + 1]?
    if b' &&& 0x80 ≠ 0 then some none
    else some (some (2, (b &&& 0x7f).toNat ||| b'.toNat <<< 7))

/-! ## The encoder -/

section Encoder

variable (host : Host) (oldBuf newBuf : List UInt8) (slen : ℕ)

/-- `while (res && old_buf[i] == new_buf[i])`, or with `!=`: `res`, `i` and the length of the
run. -/
def unalignedBytes (equal : Bool) : ℕ → ℕ → ℕ → Option (ℕ × ℕ × ℕ)
  | 0, i, runLen => some (0, i, runLen)
  | res + 1, i, runLen => do
      let old ← oldBuf[i]?
      let new ← newBuf[i]?
      if decide (old = new) = equal then unalignedBytes equal res (i + 1) (runLen + 1)
      else some (res + 1, i, runLen)

def equalWords : ℕ → ℕ → ℕ → Option (ℕ × ℕ)
  | 0, _, _ => none
  | fuel + 1, i, zrunLen =>
    if i < slen then do
      let old ← host.load oldBuf i
      let new ← host.load newBuf i
      if old = new then equalWords fuel (i + host.sizeofLong) (zrunLen + host.sizeofLong)
      else some (i, zrunLen)
    else some (i, zrunLen)

/-- `go over the rest`. -/
def equalRest : ℕ → ℕ → ℕ → Option (ℕ × ℕ)
  | 0, _, _ => none
  | fuel + 1, i, zrunLen =>
    if i < slen then do
      let old ← oldBuf[i]?
      let new ← newBuf[i]?
      if old = new then equalRest fuel (i + 1) (zrunLen + 1) else some (i, zrunLen)
    else some (i, zrunLen)

def zeroRun (i zrunLen : ℕ) : Option (ℕ × ℕ) := do
  let (res, i, zrunLen) ← unalignedBytes oldBuf newBuf true ((slen - i) % host.sizeofLong) i zrunLen
  if res = 0 then
    let (i, zrunLen) ← equalWords host oldBuf newBuf slen (slen + 1) i zrunLen
    equalRest oldBuf newBuf slen (slen + 1) i zrunLen
  else some (i, zrunLen)

/-- `while (old_buf[i] != new_buf[i])`. -/
def differentBytes : ℕ → ℕ → ℕ → Option (ℕ × ℕ)
  | 0, _, _ => none
  | fuel + 1, i, nzrunLen => do
      let old ← oldBuf[i]?
      let new ← newBuf[i]?
      if old ≠ new then differentBytes fuel (i + 1) (nzrunLen + 1) else some (i, nzrunLen)

/-- The loop over the words of a nonzero run. -/
def differentWords : ℕ → ℕ → ℕ → Option (ℕ × ℕ)
  | 0, _, _ => none
  | fuel + 1, i, nzrunLen =>
    if i < slen then do
      let old ← host.load oldBuf i
      let new ← host.load newBuf i
      if zeroByteTest (BitVec.ofNat _ 0x0101010101010101) (old ^^^ new) ≠ 0 then
        differentBytes oldBuf newBuf (slen + 1) i nzrunLen
      else differentWords fuel (i + host.sizeofLong) (nzrunLen + host.sizeofLong)
    else some (i, nzrunLen)

/-- The search for the end of a nonzero run. -/
def nzRun (i nzrunLen : ℕ) : Option (ℕ × ℕ) := do
  let (res, i, nzrunLen) ← unalignedBytes oldBuf newBuf false
      ((slen - i) % host.sizeofLong) i nzrunLen
  if res = 0 then differentWords host oldBuf newBuf slen (slen + 1) i nzrunLen
  else some (i, nzrunLen)

/-- The loop of `xbzrle_encode_buffer`.  Both run lengths are zero at its head. -/
def encodeLoop : ℕ → ℕ → ℕ → List UInt8 → Option (ℤ × List UInt8)
  | 0, _, _, _ => none
  | fuel + 1, d, i, dst =>
    if i < slen then
      -- overflow
      if d + 2 > dst.length then some (-1, dst)
      else do
        let (i, zrunLen) ← zeroRun host oldBuf newBuf slen i 0
        -- buffer unchanged
        if zrunLen = slen then some (0, dst)
        -- skip last zero run
        else if i = slen then some (d, dst)
        else
          let (dst, n) ← uleb128EncodeSmall dst d zrunLen
          let d := d + n
          let nzrunStart := i
          -- overflow
          if d + 2 > dst.length then some (-1, dst)
          else
            let (i, nzrunLen) ← nzRun host oldBuf newBuf slen i 0
            let (dst, n) ← uleb128EncodeSmall dst d nzrunLen
            let d := d + n
            -- overflow
            if d + nzrunLen > dst.length then some (-1, dst)
            else
              let dst ← memcpy dst d newBuf nzrunStart nzrunLen
              encodeLoop fuel (d + nzrunLen) i dst
    else some (d, dst)

end Encoder

/-- `xbzrle_encode_buffer` into a buffer of `dst.length` bytes: the return value and the buffer. -/
def xbzrleEncodeBuffer (host : Host) (oldBuf newBuf dst : List UInt8) : Option (ℤ × List UInt8) :=
  if oldBuf.length % host.sizeofLong = 0 then
    encodeLoop host oldBuf newBuf oldBuf.length (oldBuf.length + 1) 0 0 dst
  else none

/-! ## The decoder -/

/-- A value as `int`. -/
def int32 (x : ℤ) : ℤ := x.bmod (2 ^ 32)

/-- A value as `uint32_t`. -/
def uint32 (x : ℤ) : ℤ := x % 2 ^ 32

/-- The loop of `xbzrle_decode_buffer`.  The position `d` is an `int` with unsigned lengths
added. -/
def decodeLoop (src : List UInt8) : ℕ → ℕ → ℤ → List UInt8 → Option (ℤ × List UInt8)
  | 0, _, _, _ => none
  | fuel + 1, i, d, dst =>
    if i < src.length then
      -- zrun
      if src.length < i + 2 then some (-1, dst)
      else do
        match ← uleb128DecodeSmall src i with
        | none => some (-1, dst)
        | some (ret, count) =>
          if i ≠ 0 ∧ count = 0 then some (-1, dst)
          else
            let i := i + ret
            let d := int32 (d + count)
            -- overflow
            if d > dst.length then some (-1, dst)
            -- nzrun
            else if src.length < i + 2 then some (-1, dst)
            else
              match ← uleb128DecodeSmall src i with
              | none => some (-1, dst)
              | some (ret, count) =>
                if count = 0 then some (-1, dst)
                else
                  let i := i + ret
                  -- overflow
                  if uint32 (d + count) > dst.length ∨ uint32 (i + count) > src.length then
                    some (-1, dst)
                  else if d < 0 then none
                  else
                    let dst ← memcpy dst d.toNat src i count
                    decodeLoop src fuel (i + count) (int32 (d + count)) dst
    else some (d, dst)

/-- `xbzrle_decode_buffer`: the return value and the buffer. -/
def xbzrleDecodeBuffer (src dst : List UInt8) : Option (ℤ × List UInt8) :=
  decodeLoop src (src.length + 1) 0 0 dst

/-! ## Runs -/

variable {i : ℕ} {src : List UInt8}

section Runs

variable {host : Host} {oldBuf newBuf : List UInt8} {slen : ℕ}

/-- A byte that did not change. -/
def Same (oldBuf newBuf : List UInt8) (i : ℕ) : Prop := oldBuf[i]? = newBuf[i]?

/-- The bytes from `i` to `j` are of one kind, and the one at `j` is not unless `j` is the end. -/
structure IsRun (P : ℕ → Prop) (slen i j : ℕ) : Prop where
  le : i ≤ j
  le_slen : j ≤ slen
  inside : ∀ k, i ≤ k → k < j → P k
  stops : j < slen → ¬ P j

variable {P : ℕ → Prop} {len : ℕ}

lemma IsRun.extend {i' j : ℕ} (h : IsRun P slen i' j) (hi : i ≤ i')
    (hP : ∀ k, i ≤ k → k < i' → P k) :
    IsRun P slen i j := by
  refine ⟨hi.trans h.le, h.le_slen, fun k hk hkj => ?_, h.stops⟩
  by_cases hk' : k < i'
  · exact hP k hk hk'
  · exact h.inside k (by omega) hkj

/-- The search for the end of a run, with `len` bytes of it before `i`. -/
def Finds (P : ℕ → Prop) (slen i len : ℕ) (r : Option (ℕ × ℕ)) : Prop :=
  ∃ j, r = some (j, len + (j - i)) ∧ IsRun P slen i j

lemma Finds.here (hi : i ≤ slen) (h : i < slen → ¬ P i) : Finds P slen i len (some (i, len)) :=
  ⟨i, by simp, le_rfl, hi, fun k hk hk' => by omega, h⟩

lemma Finds.extend {r : Option (ℕ × ℕ)} (n : ℕ) (h : Finds P slen (i + n) (len + n) r)
    (hin : ∀ k, i ≤ k → k < i + n → P k) : Finds P slen i len r := by
  obtain ⟨j, rfl, hrun⟩ := h
  have hle := hrun.le
  refine ⟨j, ?_, hrun.extend (Nat.le_add_right i n) hin⟩
  congr 2
  omega

lemma Finds.byte {r : Option (ℕ × ℕ)} (h : Finds P slen (i + 1) (len + 1) r) (hi : P i) :
    Finds P slen i len r := by
  refine h.extend 1 fun k hk hk' => ?_
  rwa [show k = i by omega]

lemma mask_toNat (host : Host) :
    (BitVec.ofNat (8 * host.sizeofLong) 0x0101010101010101).toNat = ones host.sizeofLong := by
  rcases host.sizeofLong_eq with h | h <;> rw [h] <;> rfl

def Host.bytesAt (host : Host) (buf : List UInt8) (i : ℕ) : List UInt8 :=
  let bytes := (buf.drop i).take host.sizeofLong
  if host.bigEndian = true then bytes.reverse else bytes

lemma Host.length_bytesAt {buf : List UInt8} (h : i + host.sizeofLong ≤ buf.length) :
    (host.bytesAt buf i).length = host.sizeofLong := by
  rw [Host.bytesAt]
  split_ifs <;> simp <;> omega

/-- The bytes of a word are those of the buffer in some order. -/
lemma Host.getElem?_bytesAt {buf : List UInt8} {k : ℕ} (h : i + host.sizeofLong ≤ buf.length)
    (hk : k < host.sizeofLong) : (host.bytesAt buf i)[k]? =
      buf[i + if host.bigEndian = true then host.sizeofLong - 1 - k else k]? := by
  have hlen : ((buf.drop i).take host.sizeofLong).length = host.sizeofLong := by simp; omega
  rw [Host.bytesAt]
  split_ifs
  · rw [List.getElem?_reverse (by omega), hlen, List.getElem?_take_of_lt (by omega),
      List.getElem?_drop]
  · rw [List.getElem?_take_of_lt hk, List.getElem?_drop]

/-- A statement for all bytes of a word, in either order. -/
lemma Host.forall_byte (host : Host) (i : ℕ) (P : ℕ → Prop) :
    (∀ k < host.sizeofLong, P (i + if host.bigEndian = true then host.sizeofLong - 1 - k else k)) ↔
      ∀ k, i ≤ k → k < i + host.sizeofLong → P k := by
  constructor
  · intro h k hik hk
    by_cases hbig : host.bigEndian = true
    · have := h (host.sizeofLong - 1 - (k - i)) (by omega)
      rwa [if_pos hbig, show i + (host.sizeofLong - 1 - (host.sizeofLong - 1 - (k - i))) = k by
        omega] at this
    · have := h (k - i) (by omega)
      rwa [if_neg hbig, show i + (k - i) = k by omega] at this
  · intro h k hk
    split_ifs <;> exact h _ (by omega) (by omega)

variable (host) in
/-- With whole words left, the next one is in the buffer. -/
lemma next_word (hlt : i < slen) (hmod : (slen - i) % host.sizeofLong = 0) :
    i + host.sizeofLong ≤ slen ∧ (slen - (i + host.sizeofLong)) % host.sizeofLong = 0 := by
  have hdvd := dvd_of_mod_eq_zero hmod
  have hle := le_of_dvd (by omega) hdvd
  refine ⟨by omega, mod_eq_zero_of_dvd ?_⟩
  rw [sub_add_eq]
  exact Nat.dvd_sub hdvd dvd_rfl

lemma whole_words {j : ℕ} (hj : j = i + (slen - i) % host.sizeofLong) :
    (slen - j) % host.sizeofLong = 0 := by
  rw [hj, sub_add_eq]
  exact mod_eq_zero_of_dvd (dvd_sub_mod _)

section Buffers

variable (hold : oldBuf.length = slen) (hnew : newBuf.length = slen)
include hold hnew

lemma bytes_at (hi : i < slen) : ∃ old new, oldBuf[i]? = some old ∧ newBuf[i]? = some new ∧
      (Same oldBuf newBuf i ↔ old = new) := by
  refine ⟨oldBuf[i], newBuf[i], List.getElem?_eq_getElem _, List.getElem?_eq_getElem _, ?_⟩
  rw [Same, List.getElem?_eq_getElem, List.getElem?_eq_getElem, Option.some.injEq]

/-- First the bytes that are not aligned, and then the words. -/
lemma unalignedBytes_finds (equal : Bool)
    (hP : ∀ k, P k ↔ (Same oldBuf newBuf k ↔ equal = true))
    {words : ℕ → ℕ → Option (ℕ × ℕ)} (res : ℕ) :
    ∀ i len, i + res ≤ slen → (∀ j, j = i + res → ∀ len, Finds P slen j len (words j len)) →
      Finds P slen i len (unalignedBytes oldBuf newBuf equal res i len >>= fun (res, i, len) =>
        if res = 0 then words i len else some (i, len)) := by
  induction res with
  | zero => exact fun i len _ hwords => hwords i rfl len
  | succ res ih =>
    intro i len hle hwords
    obtain ⟨old, new, hgo, hgn, hsame⟩ := bytes_at hold hnew (show i < slen by omega)
    have hcond : decide (old = new) = equal ↔ P i := by
      rw [hP, hsame]
      cases equal <;> simp
    rw [unalignedBytes, hgo, hgn]
    simp only [bind_eq_bind, bind_some]
    by_cases h : decide (old = new) = equal
    · rw [if_pos h]
      refine (ih (i + 1) (len + 1) (by omega) fun j hj => ?_).byte (hcond.mp h)
      exact hwords j (by omega)
    · rw [if_neg h]
      exact .here (by omega) fun _ => hcond.not.mp h

variable (host) in
/-- Two words are equal if all their bytes are, and the test finds an equal byte. -/
lemma words_at (hi : i + host.sizeofLong ≤ slen) :
    ∃ old new, host.load oldBuf i = some old ∧ host.load newBuf i = some new ∧
      (old = new ↔ ∀ k, i ≤ k → k < i + host.sizeofLong → Same oldBuf newBuf k) ∧
      (zeroByteTest (BitVec.ofNat _ 0x0101010101010101) (old ^^^ new) = 0 ↔
        ∀ k, i ≤ k → k < i + host.sizeofLong → ¬ Same oldBuf newBuf k) := by
  have ho := Host.length_bytesAt (hold.symm ▸ hi)
  have hn := Host.length_bytesAt (hnew.symm ▸ hi)
  have hbyte : ∀ k < host.sizeofLong, ((host.bytesAt oldBuf i)[k]? = (host.bytesAt newBuf i)[k]? ↔
      Same oldBuf newBuf (i + if host.bigEndian = true then host.sizeofLong - 1 - k else k)) := by
    intro k hk
    rw [Host.getElem?_bytesAt (hold.symm ▸ hi) hk, Host.getElem?_bytesAt (hnew.symm ▸ hi) hk, Same]
  refine ⟨BitVec.ofNat _ (ofBytes (host.bytesAt oldBuf i)),
    BitVec.ofNat _ (ofBytes (host.bytesAt newBuf i)), if_pos (hold.symm ▸ hi),
    if_pos (hnew.symm ▸ hi), ?_, ?_⟩
  · rw [ofNat_ofBytes_inj ho hn, ← host.forall_byte i (Same oldBuf newBuf)]
    constructor
    · exact fun heq k hk => (hbyte k hk).mp (by rw [heq])
    intro h
    refine List.ext_getElem? fun k => ?_
    by_cases hk : k < host.sizeofLong
    · exact (hbyte k hk).mpr (h k hk)
    · rw [List.getElem?_eq_none (by omega), List.getElem?_eq_none (by omega)]
  · rw [zeroByteTest_xor_eq_zero_iff ho hn (mask_toNat host),
      ← host.forall_byte i fun k => ¬ Same oldBuf newBuf k]
    exact forall₂_congr fun k hk => (hbyte k hk).not

lemma run_spec (equal : Bool) (hP : ∀ k, P k ↔ (Same oldBuf newBuf k ↔ equal = true))
    {words : ℕ → ℕ → Option (ℕ × ℕ)} (hi : i ≤ slen)
    (hwords : ∀ j len, j ≤ slen → (slen - j) % host.sizeofLong = 0 →
      Finds P slen j len (words j len)) :
    ∃ j, (unalignedBytes oldBuf newBuf equal ((slen - i) % host.sizeofLong) i 0 >>=
      fun (res, i, len) =>
      if res = 0 then words i len else some (i, len)) = some (j, j - i) ∧ IsRun P slen i j := by
  have hmod := mod_le (slen - i) host.sizeofLong
  obtain ⟨j, hj, hrun⟩ := unalignedBytes_finds hold hnew equal hP _ i 0 (by omega)
    fun j hj len => hwords j len (by omega) (whole_words hj)
  rw [Nat.zero_add] at hj
  exact ⟨j, hj, hrun⟩

/-! ## Zero runs -/

lemma equalRest_finds (fuel : ℕ) : ∀ i zrunLen, slen - i < fuel → i ≤ slen →
      Finds (Same oldBuf newBuf) slen i zrunLen (equalRest oldBuf newBuf slen fuel i zrunLen) := by
  induction fuel with
  | zero => exact fun i _ hfuel => absurd hfuel (by omega)
  | succ fuel ih =>
    intro i zrunLen hfuel hi
    rw [equalRest]
    by_cases hlt : i < slen
    · obtain ⟨old, new, hgo, hgn, hsame⟩ := bytes_at hold hnew hlt
      rw [if_pos hlt, hgo, hgn]
      simp only [bind_eq_bind, bind_some]
      split_ifs with h
      · exact (ih (i + 1) (zrunLen + 1) (by omega) (by omega)).byte (hsame.mpr h)
      · exact .here hi fun _ => hsame.not.mpr h
    · rw [if_neg hlt]
      exact .here hi fun h => absurd h hlt

/-- First the words that are equal, and then the rest. -/
lemma equalWords_finds (fuel : ℕ) :
    ∀ i zrunLen, slen - i < fuel → i ≤ slen → (slen - i) % host.sizeofLong = 0 →
      Finds (Same oldBuf newBuf) slen i zrunLen
        (equalWords host oldBuf newBuf slen fuel i zrunLen >>= fun (i, zrunLen) =>
          equalRest oldBuf newBuf slen (slen + 1) i zrunLen) := by
  have hpos := host.pos
  induction fuel with
  | zero => exact fun i _ hfuel => absurd hfuel (by omega)
  | succ fuel ih =>
    intro i zrunLen hfuel hi hmod
    have hrest := equalRest_finds hold hnew (slen + 1) i zrunLen (by omega) hi
    rw [equalWords]
    by_cases hlt : i < slen
    · obtain ⟨hword, hmod'⟩ := next_word host hlt hmod
      obtain ⟨old, new, hgo, hgn, hsame, -⟩ := words_at host hold hnew hword
      rw [if_pos hlt, hgo, hgn]
      simp only [bind_eq_bind, bind_some]
      split_ifs with h
      · exact (ih _ _ (by omega) hword hmod').extend host.sizeofLong (hsame.mp h)
      · exact hrest
    · rw [if_neg hlt]
      exact hrest

variable (host) in
lemma zeroRun_spec (hi : i ≤ slen) : ∃ j, zeroRun host oldBuf newBuf slen i 0 = some (j, j - i) ∧
      IsRun (Same oldBuf newBuf) slen i j :=
  run_spec hold hnew true (by simp) hi fun j len =>
    equalWords_finds hold hnew (slen + 1) j len (by omega)

/-! ## Nonzero runs -/

lemma differentBytes_finds (fuel : ℕ) :
    ∀ i nzrunLen, slen - i < fuel → (∃ k, i ≤ k ∧ k < slen ∧ Same oldBuf newBuf k) →
      Finds (fun k => ¬ Same oldBuf newBuf k) slen i nzrunLen
        (differentBytes oldBuf newBuf fuel i nzrunLen) := by
  induction fuel with
  | zero => exact fun i _ hfuel => absurd hfuel (by omega)
  | succ fuel ih =>
    rintro i nzrunLen hfuel ⟨k, hik, hk, hsame⟩
    obtain ⟨old, new, hgo, hgn, hiff⟩ := bytes_at hold hnew (show i < slen by omega)
    rw [differentBytes, hgo, hgn]
    simp only [bind_eq_bind, bind_some]
    split_ifs with h
    · have hne : k ≠ i := by
        rintro rfl
        exact h (hiff.mp hsame)
      exact (ih (i + 1) _ (by omega) ⟨k, by omega, hk, hsame⟩).byte (hiff.not.mpr h)
    · exact .here (by omega) fun _ => not_not.mpr (hiff.mpr (not_not.mp h))

lemma differentWords_finds (fuel : ℕ) :
    ∀ i nzrunLen, slen - i < fuel → i ≤ slen → (slen - i) % host.sizeofLong = 0 →
      Finds (fun k => ¬ Same oldBuf newBuf k) slen i nzrunLen
        (differentWords host oldBuf newBuf slen fuel i nzrunLen) := by
  have hpos := host.pos
  induction fuel with
  | zero => exact fun i _ hfuel => absurd hfuel (by omega)
  | succ fuel ih =>
    intro i nzrunLen hfuel hi hmod
    rw [differentWords]
    by_cases hlt : i < slen
    · obtain ⟨hword, hmod'⟩ := next_word host hlt hmod
      obtain ⟨old, new, hgo, hgn, -, htest⟩ := words_at host hold hnew hword
      rw [if_pos hlt, hgo, hgn]
      simp only [bind_eq_bind, bind_some]
      split_ifs with h
      · have hexists : ∃ k, i ≤ k ∧ k < slen ∧ Same oldBuf newBuf k := by
          have := htest.not.mp h
          push Not at this
          obtain ⟨k, hik, hk, hsame⟩ := this
          exact ⟨k, hik, by omega, hsame⟩
        exact differentBytes_finds hold hnew (slen + 1) i nzrunLen (by omega) hexists
      · exact (ih _ _ (by omega) hword hmod').extend host.sizeofLong (htest.mp (not_not.mp h))
    · rw [if_neg hlt]
      exact .here hi fun h => absurd h hlt

variable (host) in
lemma nzRun_spec (hi : i ≤ slen) : ∃ j, nzRun host oldBuf newBuf slen i 0 = some (j, j - i) ∧
      IsRun (fun k => ¬ Same oldBuf newBuf k) slen i j :=
  run_spec hold hnew false (by simp) hi fun j len =>
    differentWords_finds hold hnew (slen + 1) j len (by omega)

end Buffers

end Runs

/-! ## The decoder on any input -/

/-- A statement about a byte, checked for all values. -/
lemma forall_byte {P : UInt8 → Prop} (h : ∀ n < 256, P (UInt8.ofNat n)) (b : UInt8) : P b := by
  have := h b.toNat b.toNat_lt
  rwa [UInt8.ofNat_toNat] at this

lemma uleb128DecodeSmall_spec (hi : i + 2 ≤ src.length) : ∃ r, uleb128DecodeSmall src i = some r ∧
      ∀ ret count, r = some (ret, count) → 1 ≤ ret ∧ ret ≤ 2 ∧ count ≤ 0x3fff := by
  have hsmall : ∀ b : UInt8, b &&& 0x80 = 0 → b.toNat < 2 ^ 7 :=
    forall_byte (P := fun b => b &&& 0x80 = 0 → b.toNat < 2 ^ 7) (by decide +kernel)
  have hlow : ∀ b : UInt8, (b &&& 0x7f).toNat < 2 ^ 14 :=
    forall_byte (P := fun b => (b &&& 0x7f).toNat < 2 ^ 14) (by decide +kernel)
  rw [uleb128DecodeSmall, List.getElem?_eq_getElem (show i < src.length by omega),
    List.getElem?_eq_getElem (show i + 1 < src.length by omega)]
  simp only [bind_eq_bind, bind_some]
  split_ifs with h h'
  · refine ⟨_, rfl, fun ret count heq => ?_⟩
    obtain ⟨rfl, rfl⟩ := by simpa using heq
    exact ⟨le_rfl, by omega, by have := hsmall _ h; omega⟩
  · exact ⟨_, rfl, by simp⟩
  · refine ⟨_, rfl, fun ret count heq => ?_⟩
    obtain ⟨rfl, rfl⟩ := by simpa using heq
    have hshift : src[i + 1].toNat <<< 7 < 2 ^ 14 := by
      have := hsmall _ (not_not.mp h')
      rw [shiftLeft_eq]
      omega
    exact ⟨by omega, le_rfl, le_of_lt_succ (or_lt_two_pow (hlow _) hshift)⟩

lemma memcpy_spec (dst src : List UInt8) {d n : ℕ} (hd : d + n ≤ dst.length)
    (hi : i + n ≤ src.length) :
    memcpy dst d src i n = some (dst.take d ++ (src.drop i).take n ++ dst.drop (d + n)) ∧
      (dst.take d ++ (src.drop i).take n ++ dst.drop (d + n)).length = dst.length := by
  refine ⟨if_pos ⟨hd, hi⟩, ?_⟩
  simp only [List.length_append, List.length_take, List.length_drop]
  omega

/-- The position after a run is right, or negative if it does not fit into an `int`. -/
lemma int32_add {d : ℤ} {count : ℕ} (hd : 0 ≤ d) (hd' : d < 2 ^ 31) (hcount : count ≤ 0x3fff) :
    int32 (d + count) = d + count ∧ d + count < 2 ^ 31 ∨
      int32 (d + count) = d + count - 2 ^ 32 ∧ 2 ^ 31 ≤ d + count := by
  rw [int32, Int.bmod]
  omega

/-- A run is refused if the position before it did not fit. -/
lemma uint32_add {d : ℤ} {count : ℕ} (hd : -2 ^ 32 ≤ d) (hd' : d < 2 ^ 31)
    (hcount : count ≤ 0x3fff) :
    uint32 (d + count) = d + count ∧ 0 ≤ d + count ∨
      uint32 (d + count) = d + count + 2 ^ 32 ∧ d + count < 0 := by
  rw [uint32]
  omega

/-- The loop of the decoder: an induction on the fuel, as each round reads at least two bytes. -/
lemma decodeLoop_safe (hsrc : src.length < 2 ^ 31) (fuel : ℕ) :
    ∀ (i : ℕ) (d : ℤ) (dst : List UInt8), src.length - i < fuel → i ≤ src.length → 0 ≤ d →
      d ≤ dst.length → dst.length < 2 ^ 31 →
      ∃ ret dst', decodeLoop src fuel i d dst = some (ret, dst') ∧ dst'.length = dst.length ∧
        (ret = -1 ∨ 0 ≤ ret ∧ ret ≤ dst.length) := by
  induction fuel with
  | zero => exact fun i _ _ hfuel => absurd hfuel (by omega)
  | succ fuel ih =>
    intro i d dst hfuel hi hd hd' hdst
    have refused : ∃ ret dst', some ((-1 : ℤ), dst) = some (ret, dst') ∧ dst'.length = dst.length ∧
        (ret = -1 ∨ 0 ≤ ret ∧ ret ≤ dst.length) := ⟨-1, dst, rfl, rfl, .inl rfl⟩
    rw [decodeLoop]
    split_ifs with hlt hzrun
    · exact refused
    · obtain ⟨r, hr, hspec⟩ := uleb128DecodeSmall_spec (show i + 2 ≤ src.length by omega)
      rw [hr, bind_eq_bind, bind_some]
      rcases r with _ | ⟨ret, count⟩
      · exact refused
      obtain ⟨hret, hret', hcount⟩ := hspec ret count rfl
      dsimp only
      split
      · exact refused
      split
      · exact refused
      split
      · exact refused
      obtain ⟨r', hr', hspec'⟩ := uleb128DecodeSmall_spec (show i + ret + 2 ≤ src.length by omega)
      rw [hr', bind_eq_bind, bind_some]
      rcases r' with _ | ⟨ret', count'⟩
      · exact refused
      obtain ⟨hretpos, hretle, hcount'⟩ := hspec' ret' count' rfl
      have h₁ := int32_add hd (by omega) hcount
      have h₂ := uint32_add (d := int32 (d + count)) (by omega) (by omega) hcount'
      dsimp only
      split_ifs with hnz hfit hneg
      · exact refused
      · exact refused
      · -- a negative position is refused before
        exact absurd (.inl (by omega)) hfit
      · have h₃ := uint32_add (d := ((i + ret + ret' : ℕ) : ℤ)) (by omega) (by omega) hcount'
        have h₄ := int32_add (d := int32 (d + count)) (by omega) (by omega) hcount'
        have hpos : ((int32 (d + count)).toNat : ℤ) = int32 (d + count) :=
          Int.toNat_of_nonneg (by omega)
        obtain ⟨hcopy, hlen⟩ := memcpy_spec dst src
          (d := (int32 (d + count)).toNat) (i := i + ret + ret') (n := count') (by omega) (by omega)
        rw [hcopy, bind_some]
        rw [← hlen] at hdst ⊢
        exact ih _ _ _ (by omega) (by omega) (by omega) (by omega) hdst
    · exact ⟨d, dst, rfl, rfl, .inr ⟨hd, hd'⟩⟩

/-- The decoder stays in its buffers, and returns `-1` or at most the size of the output. -/
theorem xbzrleDecodeBuffer_safe {dst : List UInt8} (hsrc : src.length < 2 ^ 31)
    (hdst : dst.length < 2 ^ 31) :
    ∃ ret dst', xbzrleDecodeBuffer src dst = some (ret, dst') ∧ dst'.length = dst.length ∧
      (ret = -1 ∨ 0 ≤ ret ∧ ret ≤ dst.length) :=
  decodeLoop_safe hsrc (src.length + 1) 0 0 dst (by omega) (by omega) (le_rfl) (by omega) hdst

end Qemu.Xbzrle
