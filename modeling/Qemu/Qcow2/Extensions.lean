import Mathlib

/-!
# Reading the header extensions

`qcow2_read_extensions` of `block/qcow2.c` goes through the extensions between two offsets of an
image file.  An extension is a magic number and a length, and its payload is padded to whole eight
bytes.  The length is compared with the room behind the header, which is computed in unsigned
arithmetic and wraps if the header itself reaches beyond the end.

**Main results:**
* `readExtensions_spec` — the loop ends, and all extensions that it accepts are inside if each
  header is.
* `readExtensions_inside_iff` — the offsets for which this holds, whatever the file contains.
-/

namespace Qemu.Qcow2

/-- The image file, with the return values of `bdrv_pread`. -/
structure ExtensionFile where
  byte : ℕ → BitVec 8
  ret : ℕ → ℕ → ℤ
  ret_cases : ∀ offset n, ret offset n = n ∨ ret offset n < 0
  ret_negative : ∀ offset n, 2 ^ 63 ≤ offset → 0 < n → ret offset n < 0

/-- An extension: where its header is, and what the header says. -/
structure Extension where
  offset : ℕ
  magic : ℕ
  len : ℕ

namespace ExtensionFile

variable (f : ExtensionFile) (endOffset : ℕ) (wantTable : Bool)

/-- `bdrv_pread`; a count that is negative as an `int` is returned as it is. -/
def pread (offset n : ℕ) : ℤ := if 2 ^ 31 ≤ n then n - 2 ^ 32 else f.ret offset n

/-- `be32_to_cpus`, on the bytes at an offset. -/
def be32 (offset : ℕ) : ℕ :=
  (f.byte offset ++ f.byte (offset + 1) ++ f.byte (offset + 2) ++ f.byte (offset + 3)).toNat

/-- The switch over the magic number: what is returned, or none to go on.  `wantTable` is
`p_feature_table != NULL`. -/
def readPayload (ext : Extension) (offset : ℕ) : Option ℤ :=
  if ext.magic = 0 then some 0
  else if ext.magic = 0xE2792ACA then
    if 16 ≤ ext.len then some 2
    else if f.pread offset ext.len ≠ ext.len then some 3
    else none
  else if ext.magic = 0x6803f857 then
    if wantTable = true ∧ f.pread offset ext.len < 0 then some (f.pread offset ext.len) else none
  else if f.pread offset ext.len < 0 then some (f.pread offset ext.len)
  else none

/-- A round of `qcow2_read_extensions`: what is returned, or an extension and the next offset. -/
def readExtension (offset : ℕ) : Except (ℤ × List Extension) (Extension × ℕ) :=
  if offset < endOffset then
    if f.pread offset 8 ≠ 8 then .error (1, [])
    else
      let ext : Extension := ⟨offset, f.be32 offset, f.be32 (offset + 4)⟩
      let offset := (offset + 8) % 2 ^ 64
      if (endOffset + 2 ^ 64 - offset) % 2 ^ 64 < ext.len then .error (-22, [])
      else
        match f.readPayload wantTable ext offset with
        | some ret => .error (ret, [ext])
        | none => .ok (ext, (offset + (ext.len + 7) % 2 ^ 32 / 8 * 8) % 2 ^ 64)
  else .error (0, [])

/-- The return value, and the extensions whose length has passed the check. -/
def readExtensions : ℕ → ℕ → Option (ℤ × List Extension)
  | 0, _ => none
  | fuel + 1, offset =>
    match f.readExtension endOffset wantTable offset with
    | .error r => some r
    | .ok (ext, offset) => (readExtensions fuel offset).map fun r => (r.1, ext :: r.2)

end ExtensionFile

/-! ## Extensions inside the offsets -/

/-- The header and the payload lie between the offsets. -/
def Extension.Inside (ext : Extension) (lo hi : ℕ) : Prop :=
  lo ≤ ext.offset ∧ ext.offset + 8 + ext.len ≤ hi

/-- The function returns, and all extensions that it does not reject lie between the offsets. -/
def ReadsInside (f : ExtensionFile) (lo hi : ℕ) (wantTable : Bool) : Prop :=
  ∃ fuel ret exts, f.readExtensions hi wantTable fuel lo = some (ret, exts) ∧
    ∀ ext ∈ exts, ext.Inside lo hi

/-- The room is a multiple of eight, or its last header is at a negative offset as an `int64_t`. -/
def WholeHeaders (lo hi : ℕ) : Prop :=
  hi ≤ lo ∨ 8 ∣ hi - lo ∨ 2 ^ 63 ≤ hi - (hi - lo) % 8

variable {lo hi offset : ℕ} {wantTable : Bool}

/-- A round if the headers are inside.  Its offsets differ by eights, and no header is at 2^63 or
behind it. -/
def RoundInside (lo hi offset : ℕ) : Except (ℤ × List Extension) (Extension × ℕ) → Prop
  | .error (_, exts) => WholeHeaders lo hi → ∀ ext ∈ exts, ext.Inside lo hi
  | .ok (ext, next) => (WholeHeaders lo hi → ext.Inside lo hi) ∧
      offset < next ∧ offset < 2 ^ 63 ∧ 8 ∣ next - lo

lemma roundInside_readExtension (f : ExtensionFile) (wantTable : Bool) (hend : hi < 2 ^ 64)
    (hstart : lo ≤ offset) (hdvd : 8 ∣ offset - lo) :
    RoundInside lo hi offset (f.readExtension hi wantTable offset) := by
  rw [ExtensionFile.readExtension]
  dsimp only
  split_ifs with hlt hread hlen
  · exact fun _ => by simp
  · exact fun _ => by simp
  · have hoffset : offset < 2 ^ 63 := by
      by_contra hge
      have hneg := f.ret_negative offset 8 (by omega) (by omega)
      rw [ExtensionFile.pread, if_neg (by omega)] at hread
      omega
    have hinside : WholeHeaders lo hi →
        Extension.Inside ⟨offset, f.be32 offset, f.be32 (offset + 4)⟩ lo hi := by
      intro hwhole
      unfold WholeHeaders at hwhole
      exact ⟨hstart, by simp only; omega⟩
    split
    · exact fun hwhole => by simpa using hinside hwhole
    · exact ⟨hinside, by omega, hoffset, by omega⟩
  · exact fun _ => by simp

lemma readExtensions_spec (f : ExtensionFile) (wantTable : Bool) (hend : hi < 2 ^ 64)
    (hstart : lo ≤ offset) (hdvd : 8 ∣ offset - lo) :
    ∃ fuel ret exts, f.readExtensions hi wantTable fuel offset = some (ret, exts) ∧
      (WholeHeaders lo hi → ∀ ext ∈ exts, ext.Inside lo hi) := by
  induction hn : 2 ^ 63 - offset using Nat.strong_induction_on generalizing offset with
  | _ n ih =>
    have hround := roundInside_readExtension f wantTable hend hstart hdvd
    cases hext : f.readExtension hi wantTable offset with
    | error r =>
      rw [hext] at hround
      exact ⟨1, r.1, r.2, by rw [ExtensionFile.readExtensions, hext], hround⟩
    | ok r =>
      obtain ⟨ext, next⟩ := r
      rw [hext] at hround
      obtain ⟨hinside, hlt, hoffset, hnext⟩ := hround
      obtain ⟨fuel, ret, exts, heq, hexts⟩ := ih (2 ^ 63 - next) (by omega) (by omega) hnext rfl
      refine ⟨fuel + 1, ret, ext :: exts, ?_, fun hwhole => ?_⟩
      · rw [ExtensionFile.readExtensions, hext]
        simp only [heq, Option.map_some]
      · exact List.forall_mem_cons.mpr ⟨hinside hwhole, hexts hwhole⟩

/-! ## A header beyond the end -/

/-- A file of extensions of an unknown type without payload, from an offset on. -/
def unknownExtensions (lo : ℕ) : ExtensionFile where
  byte offset := if offset % 8 = (lo + 3) % 8 then 1 else 0
  ret offset n := if 2 ^ 63 ≤ offset ∧ 0 < n then -22 else n
  ret_cases offset n := by split_ifs <;> simp
  ret_negative offset n hoffset hn := by rw [if_pos ⟨hoffset, hn⟩]; decide

lemma be32_unknownExtensions (h : offset % 8 = lo % 8) : (unknownExtensions lo).be32 offset = 1 ∧
      (unknownExtensions lo).be32 (offset + 4) = 0 := by
  simp only [ExtensionFile.be32, unknownExtensions]
  constructor
  · rw [if_neg (by omega), if_neg (by omega), if_neg (by omega), if_pos (by omega)]
    rfl
  · rw [if_neg (by omega), if_neg (by omega), if_neg (by omega), if_neg (by omega)]
    rfl

/-- The header that reaches beyond the end is accepted. -/
lemma exists_not_inside {fuel : ℕ} {ret : ℤ} {exts : List Extension} (hend : hi < 2 ^ 64)
    (hstart : lo ≤ offset) (hdvd : 8 ∣ offset - lo) (hlt : offset < hi)
    (hwhole : ¬ WholeHeaders lo hi)
    (h : (unknownExtensions lo).readExtensions hi wantTable fuel offset = some (ret, exts)) :
    ∃ ext ∈ exts, ¬ ext.Inside lo hi := by
  induction fuel generalizing offset exts with
  | zero => cases h
  | succ fuel ih =>
    have hrest : hi - (hi - lo) % 8 < 2 ^ 63 ∧ (hi - lo) % 8 ≠ 0 := by
      unfold WholeHeaders at hwhole
      omega
    obtain ⟨hmagic, hlen⟩ := be32_unknownExtensions (show offset % 8 = lo % 8 by omega)
    have hround : (unknownExtensions lo).readExtension hi wantTable offset =
        .ok (⟨offset, 1, 0⟩, offset + 8) := by
      have hread : (unknownExtensions lo).pread offset 8 = 8 :=
        if_neg (show ¬ (2 ^ 63 ≤ offset ∧ 0 < 8) by omega)
      have hnone : (unknownExtensions lo).pread ((offset + 8) % 2 ^ 64) 0 = 0 := by
        simp [ExtensionFile.pread, unknownExtensions]
      simp only [ExtensionFile.readExtension, if_pos hlt, hread, hmagic, hlen,
        ExtensionFile.readPayload, hnone]
      simp
      omega
    rw [ExtensionFile.readExtensions, hround] at h
    obtain ⟨⟨ret', exts'⟩, hloop, heq⟩ := Option.map_eq_some_iff.mp h
    cases heq
    by_cases hnext : offset + 8 < hi
    · obtain ⟨ext, hmem, hnot⟩ := ih (by omega) (by omega) hnext hloop
      exact ⟨ext, List.mem_cons_of_mem _ hmem, hnot⟩
    · exact ⟨_, List.mem_cons_self, fun hinside => absurd hinside.2 (by simp only; omega)⟩

lemma not_readsInside (hhi : hi < 2 ^ 64) (hwhole : ¬ WholeHeaders lo hi) :
    ¬ ReadsInside (unknownExtensions lo) lo hi wantTable := by
  rintro ⟨fuel, ret, exts, heq, hinside⟩
  have hlt : lo < hi := not_le.mp fun hle => hwhole (.inl hle)
  obtain ⟨ext, hext, hnot⟩ := exists_not_inside hhi le_rfl (by simp) hlt hwhole heq
  exact hnot (hinside ext hext)

/-- **The offsets between which extensions are read safely.** -/
theorem readExtensions_inside_iff (startOffset endOffset : BitVec 64) (wantTable : Bool) :
    (∀ f : ExtensionFile, ∃ fuel, f.readExtensions endOffset.toNat wantTable fuel
      startOffset.toNat ≠ none) ∧
      ((∀ f, ReadsInside f startOffset.toNat endOffset.toNat wantTable) ↔
        WholeHeaders startOffset.toNat endOffset.toNat) := by
  have hspec := fun f => readExtensions_spec f wantTable endOffset.isLt
    (le_refl startOffset.toNat) (by simp)
  refine ⟨fun f => ?_, fun h => ?_, fun hwhole f => ?_⟩
  · obtain ⟨fuel, ret, exts, heq, -⟩ := hspec f
    exact ⟨fuel, by rw [heq]; exact Option.some_ne_none _⟩
  · exact not_imp_not.mp (not_readsInside endOffset.isLt) (h _)
  · obtain ⟨fuel, ret, exts, heq, hexts⟩ := hspec f
    exact ⟨fuel, ret, exts, heq, hexts hwhole⟩

/-- Four bytes do not hold a header, but a header is read from them. -/
theorem readExtensions_beyond_end :
    ¬ ∀ (f : ExtensionFile) (startOffset endOffset : BitVec 64) (wantTable : Bool),
      ReadsInside f startOffset.toNat endOffset.toNat wantTable := by
  intro h
  exact not_readsInside (by decide) (by unfold WholeHeaders; decide)
    (h (unknownExtensions 0) 0 4 false)

end Qemu.Qcow2
