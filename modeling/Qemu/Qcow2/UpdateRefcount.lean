import Qemu.Qcow2.Entry

/-!
# Changing the refcounts of a byte range

`update_refcount` changes the counters of all clusters that a byte range touches, one after the
other.  When a counter would leave its range it stops there, and takes back what it has done by a
call of itself on the bytes from `offset` up to the cluster where it stopped.  The byte range need
not start at a cluster boundary, so this length can be zero or negative.

The counters are in refcount blocks, which are found by their host offset in the refcount table.
The model follows the code where all blocks are there; what `alloc_refcount_block` does about a
missing block is a parameter.  Offsets and lengths are `int64_t`, counters and addends `int`.

**Main results:**
- `updateLoop_spec`: the loop changes the counters up to the first that would leave its range
- `updateRefcount_atomic`: either all counters of the range change, or none, if no two entries of
  the table name the same block
- `untouched_counter_changes`: without this, and at large offsets, other counters change too
- `succeeded_add_up`: the changes of successive calls add up
-/

namespace Qemu.Qcow2.Update

open Int

/-- A value that is kept in an `int64_t`. -/
def int64 (n : ℤ) : ℤ := n.bmod (2 ^ 64)

/-- A value that is kept in an `int`. -/
def int32 (n : ℤ) : ℤ := n.bmod (2 ^ 32)

def reftOffsetMask : BitVec 64 := 0xffffffffffffff00#64

def blockOffset (entries : List (BitVec 64)) (i : ℕ) :
    BitVec 64 := entries.getD i 0 &&& reftOffsetMask

/-- The refcount table in memory; its size is an `unsigned int`. -/
structure RefcountTable where
  entries : List (BitVec 64)
  length_lt : entries.length < 2 ^ 32

/-- No two entries name the same refcount block.  The source does not check this. -/
def RefcountTable.Distinct (table : RefcountTable) : Prop :=
  ∀ i j, blockOffset table.entries i ≠ 0 →
    blockOffset table.entries i = blockOffset table.entries j → i = j

/-- The refcount table, the refcount blocks by their host offset, and `free_cluster_index`. -/
structure Image where
  table : RefcountTable
  block : BitVec 64 → ℕ → BitVec 16
  freeClusterIndex : ℤ

section Source

variable (g : Geometry) (allocate : Image → ℤ → Except ℤ (BitVec 64) × Image)

/-- The counter of a cluster; there is none without a refcount block. -/
def Image.refcount (img : Image) (c : ℕ) : ℕ :=
  if blockOffset img.table.entries (c / g.refcountBlockSize) = 0 then 0
  else (img.block (blockOffset img.table.entries (c / g.refcountBlockSize))
    (c % g.refcountBlockSize)).toNat

def Image.store (img : Image) (block : BitVec 64) (index : ℕ) (refcount : ℤ) : Image :=
  { img with
    block := Function.update img.block block
      (Function.update (img.block block) index (BitVec.ofInt 16 refcount)) }

/-- `alloc_refcount_block`: the block, if the table has one. -/
def allocRefcountBlock (img : Image) (clusterIndex : ℤ) : Except ℤ (BitVec 64) × Image :=
  let refcountTableIndex := (clusterIndex / g.refcountBlockSize % 2 ^ 32).toNat
  if refcountTableIndex < img.table.entries.length ∧
      blockOffset img.table.entries refcountTableIndex ≠ 0 then
    (.ok (blockOffset img.table.entries refcountTableIndex), img)
  else allocate img clusterIndex

/-- The block of a cluster in the loop; `cur` is `old_table_index` with the block in use. -/
def refcountBlockFor (img : Image) (clusterIndex : ℤ) :
    Option (ℤ × BitVec 64) → Except ℤ (BitVec 64) × Image
  | none => allocRefcountBlock g allocate img clusterIndex
  | some (oldTableIndex, block) =>
    if clusterIndex / g.refcountBlockSize ≠ oldTableIndex then
      allocRefcountBlock g allocate img clusterIndex
    else (.ok block, img)

/-- The loop of `update_refcount`: its return value, and `cluster_offset` when it is left. -/
def updateLoop (last addend : ℤ) : ℕ → Image → ℤ → Option (ℤ × BitVec 64) → Option (ℤ × ℤ × Image)
  | 0, img, clusterOffset, _ => if clusterOffset ≤ last then none else some (0, clusterOffset, img)
  | rounds + 1, img, clusterOffset, cur =>
    if clusterOffset ≤ last then
      let clusterIndex := clusterOffset / g.clusterSize
      match refcountBlockFor g allocate img clusterIndex cur with
      | (.error ret, img) => some (ret, clusterOffset, img)
      | (.ok block, img) =>
        let blockIndex := (clusterIndex % g.refcountBlockSize).toNat
        let refcount := int32 ((img.block block blockIndex).toNat + addend)
        if refcount < 0 ∨ refcount > 0xffff then some (-einval, clusterOffset, img)
        else
          let img :=
            if refcount = 0 ∧ clusterIndex < img.freeClusterIndex then
              { img with freeClusterIndex := clusterIndex }
            else img
          updateLoop last addend rounds (img.store block blockIndex refcount)
            (int64 (clusterOffset + g.clusterSize))
            (some (clusterIndex / g.refcountBlockSize, block))
    else some (0, clusterOffset, img)

/-- `offset & ~(s->cluster_size - 1)`. -/
def alignDown (offset : ℤ) : ℤ := offset - offset % g.clusterSize

/-- `update_refcount` with a bound on the nesting of calls that take back a change. -/
def updateRefcountBounded : ℕ → Image → ℤ → ℤ → ℤ → Option (ℤ × Image)
  | 0, _, _, _, _ => none
  | depth + 1, img, offset, length, addend =>
    if length < 0 then some (-einval, img)
    else if length = 0 then some (0, img)
    else
      let start := alignDown g offset
      let last := alignDown g (int64 (offset + length - 1))
      match updateLoop g allocate last addend ((last - start) / g.clusterSize + 1).toNat
        img start none with
      | none => none
      | some (ret, clusterOffset, img) =>
        if ret < 0 then
          match updateRefcountBounded depth img offset (int64 (clusterOffset - offset))
              (int32 (-addend)) with
          | none => none
          | some (_, img) => some (ret, img)
        else some (ret, img)

/-- `update_refcount`.  Every nested call is for fewer clusters. -/
def updateRefcount (img : Image) (offset length addend : ℤ) : Option (ℤ × Image) :=
  updateRefcountBounded g allocate (length.toNat + 2) img offset length addend

end Source

/-! ## Byte ranges and clusters -/

variable {n : ℤ} {cur : Option (ℤ × BitVec 64)} {img' : Image} {k : ℕ}

section Range

variable (g : Geometry)

/-- The cluster has a byte of `[offset, offset + length)`. -/
def Overlaps (offset length : ℤ) (c : ℕ) : Prop :=
  ∃ b : ℤ, offset ≤ b ∧ b < offset + length ∧ b / g.clusterSize = c

/-- The bytes of the cluster have offsets in the image file, and its refcount block is present. -/
def Image.Described (img : Image) (c : ℤ) : Prop :=
  0 ≤ c ∧ (c + 1) * g.clusterSize < 2 ^ 63 ∧
    blockOffset img.table.entries (c.toNat / g.refcountBlockSize) ≠ 0

/-- All refcount blocks for the byte range are present. -/
def Image.Present (img : Image) (offset length : ℤ) : Prop :=
  ∀ b, offset ≤ b → b < offset + length → img.Described g (b / g.clusterSize)

/-- A value that a counter can have. -/
def InRange (n : ℤ) : Prop := 0 ≤ n ∧ n ≤ 0xffff

lemma int64_of_lt (hl : -2 ^ 63 ≤ n) (hu : n < 2 ^ 63) : int64 n = n := by
  rw [int64, bmod_def]
  omega

lemma int32_of_lt (hl : -2 ^ 31 ≤ n) (hu : n < 2 ^ 31) : int32 n = n := by
  rw [int32, bmod_def]
  omega

/-- A counter plus an addend is taken for out of range exactly if it is, overflow included. -/
lemma not_inRange_iff (r : BitVec 16) {addend : ℤ} (hl : -2 ^ 31 ≤ addend) (hu : addend < 2 ^ 31) :
    (int32 (r.toNat + addend) < 0 ∨ int32 (r.toNat + addend) > 0xffff) ↔ ¬InRange
      (r.toNat + addend) := by
  simp only [InRange, int32, bmod_def]
  omega

lemma clusterSize_int_pos : (0 : ℤ) < g.clusterSize := by exact_mod_cast g.clusterSize_pos

lemma alignDown_eq (b : ℤ) : alignDown g b = b / g.clusterSize * g.clusterSize := by
  have h := emod_add_mul_ediv b g.clusterSize
  rw [alignDown, mul_comm (b / _)]
  omega

lemma overlaps_iff {offset length : ℤ} (hlen : 0 < length) (c : ℕ) : Overlaps g offset length c ↔
      offset / g.clusterSize ≤ c ∧ (c : ℤ) ≤ (offset + length - 1) / g.clusterSize := by
  have hcs := clusterSize_int_pos g
  constructor
  · rintro ⟨b, hb, hb', hc⟩
    rw [← hc]
    exact ⟨Int.ediv_le_ediv hcs hb, Int.ediv_le_ediv hcs (by omega)⟩
  rintro ⟨hfirst, hlast⟩
  rw [ediv_le_iff_le_mul hcs] at hfirst
  rw [Int.le_ediv_iff_mul_le hcs] at hlast
  -- the first byte of the cluster, or the first one of the range
  refine ⟨max offset (c * g.clusterSize), le_max_left _ _, by omega, ?_⟩
  refine le_antisymm (Int.lt_add_one_iff.mp ((Int.ediv_lt_iff_lt_mul hcs).mpr ?_)) ?_
  · rw [add_mul]
    omega
  · exact (Int.le_ediv_iff_mul_le hcs).mpr (le_max_right _ _)

lemma not_overlaps_of_length_le {offset length : ℤ} (hlen : length ≤ 0) (c : ℕ) :
    ¬Overlaps g offset length c := by
  rintro ⟨b, hb, hb', -⟩
  omega

end Range

/-! ## Storing one counter -/

section Store

variable {g : Geometry} {allocate : Image → ℤ → Except ℤ (BitVec 64) × Image} {img : Image} {c : ℕ}

lemma blockOffset_of_length_le {entries : List (BitVec 64)} {i : ℕ} (h : entries.length ≤ i) :
    blockOffset entries i = 0 := by
  rw [blockOffset, List.getD_eq_default _ _ h]
  rfl

lemma Image.refcount_le (img : Image) (g : Geometry) (c : ℕ) : img.refcount g c ≤ 0xffff := by
  unfold Image.refcount
  split_ifs
  · exact Nat.zero_le _
  · exact Nat.le_of_lt_succ (BitVec.isLt _)

abbrev Image.blockAt (img : Image) (g : Geometry) (c : ℕ) : BitVec 64 :=
  blockOffset img.table.entries (c / g.refcountBlockSize)

variable (hblock : img.blockAt g c ≠ 0)
include hblock

lemma refcount_of_present :
    img.refcount g c = (img.block (img.blockAt g c) (c % g.refcountBlockSize)).toNat := by
  rw [Image.refcount, if_neg hblock]

/-- Storing a counter changes no other cluster's, since its block belongs to one table entry. -/
lemma refcount_store (hdistinct : img.table.Distinct) (hn : InRange n) (c' : ℕ) :
    ((img.store (img.blockAt g c) (c % g.refcountBlockSize) n).refcount g c' : ℤ) =
      if c' = c then n else img.refcount g c' := by
  unfold Image.refcount Image.store
  simp only
  split_ifs with hzero heq heq
  · rw [heq] at hzero
    exact absurd hzero hblock
  · rfl
  · subst heq
    simp only [Function.update_self, BitVec.toNat_ofInt]
    obtain ⟨h0, h1⟩ := hn
    omega
  · by_cases hb : blockOffset img.table.entries (c' / g.refcountBlockSize) = img.blockAt g c
    · have hdiv := hdistinct _ _ hzero hb
      have hmod : c' % g.refcountBlockSize ≠ c % g.refcountBlockSize := fun hmod => heq (by
        rw [← Nat.div_add_mod c' g.refcountBlockSize, hdiv, hmod, Nat.div_add_mod])
      rw [hb, Function.update_self, Function.update_of_ne hmod]
    · rw [Function.update_of_ne hb]

/-- The block that `alloc_refcount_block` finds. -/
lemma allocRefcountBlock_of_present :
    allocRefcountBlock g allocate img c = (.ok (img.blockAt g c), img) := by
  have hlt : c / g.refcountBlockSize < img.table.entries.length := by
    by_contra hge
    exact hblock (blockOffset_of_length_le (by omega))
  have hidx : ((c : ℤ) / g.refcountBlockSize % 2 ^ 32).toNat = c / g.refcountBlockSize := by
    have hlen := img.table.length_lt
    rw [← natCast_div]
    exact_mod_cast Nat.mod_eq_of_lt (lt_trans hlt hlen)
  simp only [allocRefcountBlock, hidx]
  rw [if_pos ⟨hlt, hblock⟩]

/-- The block in use is the one that the table has for `old_table_index`. -/
def CurOk (img : Image) (cur : Option (ℤ × BitVec 64)) : Prop :=
  ∀ i b, cur = some (i, b) → ∃ k : ℕ, i = k ∧ b = blockOffset img.table.entries k

lemma refcountBlockFor_of_present (hcur : CurOk img cur) :
    refcountBlockFor g allocate img c cur = (.ok (img.blockAt g c), img) := by
  rcases cur with _ | ⟨i, b⟩
  · exact allocRefcountBlock_of_present hblock
  obtain ⟨k, rfl, rfl⟩ := hcur i b rfl
  simp only [refcountBlockFor]
  split_ifs with hne
  · exact allocRefcountBlock_of_present hblock
  · push Not at hne
    have hk : c / g.refcountBlockSize = k := by exact_mod_cast hne
    rw [Image.blockAt, hk]

end Store

/-! ## The loop -/

section Loop

variable (g : Geometry) (allocate : Image → ℤ → Except ℤ (BitVec 64) × Image)

/-- The counters of the `k` clusters from `c` on have changed by `addend`, and no other. -/
def Added (img img' : Image) (c k : ℕ) (addend : ℤ) : Prop :=
  img'.table = img.table ∧
    ∀ c', (img'.refcount g c' : ℤ) = img.refcount g c' + if c ≤ c' ∧ c' < c + k then addend else 0

lemma Added.refl (img : Image) (c : ℕ) (addend : ℤ) : Added g img img c 0 addend := by
  refine ⟨rfl, fun c' => ?_⟩
  rw [if_neg (by omega), add_zero]

variable {c : ℕ} {img : Image}

lemma Added.refcount_eq {addend : ℤ} (h : Added g img img' c k addend) {c' : ℕ}
    (hc' : ¬(c ≤ c' ∧ c' < c + k)) : img'.refcount g c' = img.refcount g c' := by
  have hsum := h.2 c'
  rw [if_neg hc', add_zero] at hsum
  exact_mod_cast hsum

lemma Added.cons {img'' : Image} {addend : ℤ} (h : Added g img img' c 1 addend)
    (h' : Added g img' img'' (c + 1) k addend) : Added g img img'' c (k + 1) addend := by
  refine ⟨h'.1.trans h.1, fun c' => ?_⟩
  rw [h'.2, h.2]
  split_ifs <;> omega

/-- Taking a change back. -/
lemma Added.cancel {img'' : Image} {addend : ℤ} (h : Added g img img' c k addend)
    (h' : Added g img' img'' c k (-addend)) (c' : ℕ) : img''.refcount g c' = img.refcount g c' := by
  have hsum := h'.2 c'
  rw [h.2] at hsum
  split_ifs at hsum <;> omega

/-- The clusters that a loop goes over have refcount blocks and offsets in the file. -/
structure Covered (img : Image) (c n : ℕ) : Prop where
  distinct : img.table.Distinct
  block : ∀ k < n, blockOffset img.table.entries ((c + k) / g.refcountBlockSize) ≠ 0 ∧
    ((c + k + 1 : ℕ) : ℤ) * g.clusterSize < 2 ^ 63

lemma Covered.tail {n : ℕ} (h : Covered g img c (n + 1)) (htable : img'.table = img.table) :
    Covered g img' (c + 1) n := by
  refine ⟨htable ▸ h.distinct, fun k hk => ?_⟩
  have hnext := h.block (k + 1) (by omega)
  rwa [htable, show c + 1 + k = c + (k + 1) by omega]

lemma index_eq : (c : ℤ) * g.clusterSize / g.clusterSize = c :=
  mul_ediv_cancel _ (clusterSize_int_pos g).ne'

lemma place_eq : ((c : ℤ) % g.refcountBlockSize).toNat = c % g.refcountBlockSize := by
  rw [← natCast_mod, toNat_natCast]

variable {addend : ℤ}

/-- A round of the loop on a counter that stays in its range. -/
lemma updateLoop_next {n : ℕ} {last : ℤ} (hcov : Covered g img c (n + 1)) (hcur : CurOk img cur)
    (hle : (c : ℤ) * g.clusterSize ≤ last) (hin : InRange (img.refcount g c + addend)) :
    ∃ img' cur', Added g img img' c 1 addend ∧ CurOk img' cur' ∧
      updateLoop g allocate last addend (n + 1) img (c * g.clusterSize) cur =
        updateLoop g allocate last addend n img' (((c + 1 : ℕ) : ℤ) * g.clusterSize) cur' := by
  obtain ⟨hblock, hend⟩ := hcov.block 0 (by omega)
  rw [add_zero] at hblock hend
  have hcount := refcount_of_present hblock
  have hsmall : int32 (img.refcount g c + addend) = img.refcount g c + addend :=
    int32_of_lt (by have := hin.1; omega) (by have := hin.2; omega)
  have hnext : int64 ((c : ℤ) * g.clusterSize + g.clusterSize) =
      ((c + 1 : ℕ) : ℤ) * g.clusterSize := by
    rw [int64_of_lt (by nlinarith) (by push_cast at hend; nlinarith)]
    push_cast
    ring
  -- `free_cluster_index` has no part in the counters
  obtain ⟨img₀, himg₀, htable, hrefcount⟩ : ∃ img₀ : Image,
      (if (img.refcount g c : ℤ) + addend = 0 ∧ (c : ℤ) < img.freeClusterIndex then
        { img with freeClusterIndex := (c : ℤ) } else img) = img₀ ∧
      img₀.table = img.table ∧ ∀ c', img₀.refcount g c' = img.refcount g c' := by
    split_ifs
    · exact ⟨_, rfl, rfl, fun _ => rfl⟩
    · exact ⟨_, rfl, rfl, fun _ => rfl⟩
  refine ⟨img₀.store (img.blockAt g c) (c % g.refcountBlockSize) (img.refcount g c + addend),
    some ((c : ℤ) / g.refcountBlockSize, img.blockAt g c), ⟨htable, fun c' => ?_⟩, ?_, ?_⟩
  · rw [Image.blockAt, ← htable, refcount_store (by rwa [Image.blockAt, htable])
      (htable ▸ hcov.distinct) hin, hrefcount]
    split_ifs with h₁ h₂ h₂
    · rw [h₁]
    · omega
    · omega
    · rw [add_zero]
  · rintro i b h
    obtain ⟨rfl, rfl⟩ := h
    exact ⟨c / g.refcountBlockSize, (natCast_div _ _).symm, by rw [Image.blockAt, ← htable]; rfl⟩
  · simp only [updateLoop, if_pos hle, index_eq, place_eq, refcountBlockFor_of_present hblock hcur,
      ← hcount, hsmall, himg₀, hnext]
    rw [if_neg (by have := hin.1; have := hin.2; omega)]

variable (hl : -2 ^ 31 ≤ addend) (hu : addend < 2 ^ 31)

include hl hu

/-- A round of the loop on a counter that would leave its range. -/
lemma updateLoop_stop {n : ℕ} {last : ℤ} (hblock : img.blockAt g c ≠ 0) (hcur : CurOk img cur)
    (hle : (c : ℤ) * g.clusterSize ≤ last) (hout : ¬InRange (img.refcount g c + addend)) :
    updateLoop g allocate last addend (n + 1) img (c * g.clusterSize) cur =
      some (-einval, (c : ℤ) * g.clusterSize, img) := by
  rw [refcount_of_present hblock] at hout
  simp only [updateLoop, if_pos hle, index_eq, place_eq, refcountBlockFor_of_present hblock hcur]
  rw [if_pos ((not_inRange_iff _ hl hu).mpr hout)]

/-- The loop changes one counter after the other, up to the first that would leave its range. -/
theorem updateLoop_spec : ∀ (n : ℕ) (img : Image) (c : ℕ) (cur : Option (ℤ × BitVec 64)) (last : ℤ),
    Covered g img c n → CurOk img cur → last = ((c : ℤ) + n - 1) * g.clusterSize →
    ∃ k ≤ n, ∃ img', Added g img img' c k addend ∧
      updateLoop g allocate last addend n img (c * g.clusterSize) cur =
        some (if k = n then 0 else -einval, ((c + k : ℕ) : ℤ) * g.clusterSize, img') ∧
      (∀ j < k, InRange (img.refcount g (c + j) + addend)) ∧
      (k < n → ¬InRange (img.refcount g (c + k) + addend)) := by
  have hcs := clusterSize_int_pos g
  intro n
  induction n with
  | zero =>
    intro img c cur last _ _ hlast
    refine ⟨0, le_rfl, img, Added.refl g img c addend, ?_, by omega, by omega⟩
    have hgt : ¬(c : ℤ) * g.clusterSize ≤ last := by
      rw [hlast]
      push_cast
      nlinarith
    simp only [updateLoop, if_neg hgt, add_zero, if_true]
  | succ n ih =>
    intro img c cur last hcov hcur hlast
    have hle : (c : ℤ) * g.clusterSize ≤ last := by
      rw [hlast]
      push_cast
      nlinarith
    by_cases hin : InRange (img.refcount g c + addend)
    · obtain ⟨img₁, cur₁, hadded, hcur₁, hstep⟩ :=
        updateLoop_next g allocate hcov hcur hle hin
      obtain ⟨k, hk, img', hadd, hrun, hbefore, hstop⟩ := ih img₁ (c + 1) cur₁ last
        (hcov.tail g hadded.1) hcur₁ (by rw [hlast]; push_cast; ring)
      have hother : ∀ j, img₁.refcount g (c + 1 + j) = img.refcount g (c + (j + 1)) := by
        intro j
        rw [show c + (j + 1) = c + 1 + j by omega]
        exact hadded.refcount_eq g (by omega)
      refine ⟨k + 1, by omega, img', hadded.cons g hadd, ?_, ?_, ?_⟩
      · rw [hstep, hrun, show c + 1 + k = c + (k + 1) by omega]
        simp only [Nat.add_right_cancel_iff]
      · rintro (_ | j) hj
        · exact hin
        · rw [← hother]
          exact hbefore j (by omega)
      · intro hlt
        rw [← hother]
        exact hstop (by omega)
    · refine ⟨0, by omega, img, Added.refl g img c addend, ?_, by omega, fun _ => hin⟩
      have hblock : img.blockAt g c ≠ 0 := (hcov.block 0 (by omega)).1
      rw [updateLoop_stop g allocate hl hu hblock hcur hle hin, if_neg (by omega), add_zero]

end Loop

/-! ## The whole call -/

section Call

variable (g : Geometry) (allocate : Image → ℤ → Except ℤ (BitVec 64) × Image)

def firstCluster (offset : ℤ) : ℕ := (offset / g.clusterSize).toNat

def clusterCount (offset length : ℤ) : ℕ :=
  ((offset + length - 1) / g.clusterSize - offset / g.clusterSize + 1).toNat

variable {g} {img : Image} {offset length addend : ℤ}

section Present

variable (h : img.Present g offset length) (hlen : 0 < length)
include h hlen

lemma Image.Present.bounds : 0 ≤ offset ∧ offset + length < 2 ^ 63 := by
  have hcs := clusterSize_int_pos g
  have hfirst := (h offset (le_rfl) (by omega)).1
  have hlast := (h (offset + length - 1) (by omega) (by omega)).2.1
  have hlt := lt_ediv_add_one_mul_self (offset + length - 1) hcs
  exact ⟨by rwa [ediv_nonneg_iff_of_pos hcs] at hfirst, by omega⟩

lemma Image.Present.clusters : offset / g.clusterSize = firstCluster g offset ∧
      (offset + length - 1) / g.clusterSize =
        (firstCluster g offset : ℤ) + clusterCount g offset length - 1 ∧
      0 < clusterCount g offset length := by
  have hcs := clusterSize_int_pos g
  have hnonneg : 0 ≤ offset / g.clusterSize := ediv_nonneg (h.bounds hlen).1 hcs.le
  have hle : offset / g.clusterSize ≤ (offset + length - 1) / g.clusterSize :=
    Int.ediv_le_ediv hcs (by omega)
  simp only [firstCluster, clusterCount]
  omega

lemma Image.Present.overlaps_iff (c : ℕ) : Overlaps g offset length c ↔
      firstCluster g offset ≤ c ∧ c < firstCluster g offset + clusterCount g offset length := by
  obtain ⟨hfirst, hlast, -⟩ := h.clusters hlen
  rw [Update.overlaps_iff g hlen, hfirst, hlast]
  omega

lemma Image.Present.covered (hdistinct : img.table.Distinct) :
    Covered g img (firstCluster g offset) (clusterCount g offset length) := by
  refine ⟨hdistinct, fun k hk => ?_⟩
  obtain ⟨b, hb, hb', hbc⟩ := (h.overlaps_iff hlen (firstCluster g offset + k)).mpr (by omega)
  obtain ⟨-, hend, hblock⟩ := h b hb hb'
  rw [hbc] at hend hblock
  exact ⟨hblock, by exact_mod_cast hend⟩

/-- With its refcount blocks present, a call is the loop over the clusters, and the undo if it stops
early. -/
lemma updateRefcountBounded_of_present (depth : ℕ) :
    updateRefcountBounded g allocate (depth + 1) img offset length addend =
      match updateLoop g allocate
          (((firstCluster g offset : ℤ) + clusterCount g offset length - 1) * g.clusterSize) addend
          (clusterCount g offset length) img (firstCluster g offset * g.clusterSize) none with
      | none => none
      | some (ret, clusterOffset, img) =>
        if ret < 0 then
          match updateRefcountBounded g allocate depth img offset (int64 (clusterOffset - offset))
              (int32 (-addend)) with
          | none => none
          | some (_, img) => some (ret, img)
        else some (ret, img) := by
  obtain ⟨hfirst, hlast, hpos⟩ := h.clusters hlen
  obtain ⟨h0, h1⟩ := h.bounds hlen
  have hcs := clusterSize_int_pos g
  have hrounds : ((((firstCluster g offset : ℤ) + clusterCount g offset length - 1) * g.clusterSize
      - firstCluster g offset * g.clusterSize) / g.clusterSize + 1).toNat
        = clusterCount g offset length := by
    rw [← sub_mul, mul_ediv_cancel _ hcs.ne']
    omega
  rw [updateRefcountBounded, if_neg (by omega), if_neg (by omega)]
  simp only [alignDown_eq, int64_of_lt (n := offset + length - 1) (by omega) (by omega), hfirst,
    hlast, hrounds]

lemma undo_of_added (hdistinct : img.table.Distinct) (hk : 0 < k)
    (hkn : k < clusterCount g offset length)
    (hadded : Added g img img' (firstCluster g offset) k addend)
    (hin : ∀ j < k, InRange (img.refcount g (firstCluster g offset + j) + addend)) (depth : ℕ) :
    ∃ img'', updateRefcountBounded g allocate (depth + 1) img' offset
        (int64 (((firstCluster g offset + k : ℕ) : ℤ) * g.clusterSize - offset)) (int32 (-addend)) =
          some (0, img'') ∧ ∀ c, img''.refcount g c = img.refcount g c := by
  have hcs := clusterSize_int_pos g
  obtain ⟨hfirst, hlast, -⟩ := h.clusters hlen
  obtain ⟨h0, h1⟩ := h.bounds hlen
  -- the addend is small because one counter was changed by it
  have hsmall : -0xffff ≤ addend ∧ addend ≤ 0xffff := by
    have hzero := hin 0 hk
    have hcount := img.refcount_le g (firstCluster g offset + 0)
    have := hzero.1
    have := hzero.2
    omega
  set stop : ℤ := ((firstCluster g offset + k : ℕ) : ℤ) * g.clusterSize with hstop
  have hbefore : offset < stop := by
    have hlt := lt_ediv_add_one_mul_self offset hcs
    refine lt_of_lt_of_le hlt ?_
    rw [hstop]
    push_cast
    nlinarith
  have hafter : stop ≤ offset + length - 1 := by
    rw [hstop, ← Int.le_ediv_iff_mul_le hcs, hlast]
    push_cast
    omega
  have hpresent : img'.Present g offset (stop - offset) := by
    intro b hb hb'
    have := h b hb (by omega)
    rwa [Image.Described, hadded.1]
  have hcount : clusterCount g offset (stop - offset) = k := by
    have hend : (offset + (stop - offset) - 1) / g.clusterSize =
        (firstCluster g offset : ℤ) + k - 1 := by
      rw [show offset + (stop - offset) - 1 =
        -1 + ((firstCluster g offset : ℤ) + k) * g.clusterSize by
        rw [hstop]; push_cast; ring, add_mul_ediv_right _ _ hcs.ne',
        ediv_eq_neg_one_of_neg_of_le (by omega) (by omega)]
      omega
    rw [clusterCount, hend, hfirst]
    omega
  rw [int64_of_lt (by omega) (by omega), int32_of_lt (by omega) (by omega),
    updateRefcountBounded_of_present allocate hpresent (by omega), hcount]
  have hl : -2 ^ 31 ≤ -addend := by omega
  have hu : -addend < 2 ^ 31 := by omega
  obtain ⟨k', hk', img'', hadded', hrun, -, hout⟩ := updateLoop_spec g allocate hl hu k img'
    (firstCluster g offset) none _
    (by simpa [hcount] using hpresent.covered (by omega) (hadded.1 ▸ hdistinct))
    (fun i b hnone => by simp at hnone) rfl
  obtain rfl : k' = k := by
    by_contra hne
    have hval := hadded.2 (firstCluster g offset + k')
    rw [if_pos (by omega)] at hval
    refine hout (by omega) ?_
    rw [hval, add_neg_cancel_right]
    have := img.refcount_le g (firstCluster g offset + k')
    exact ⟨by omega, by omega⟩
  rw [hrun]
  exact ⟨img'', by simp, hadded.cancel g hadded'⟩

/-- Nothing is taken back when the first cluster of a range fails: the length is not positive. -/
lemma undo_nothing (img' : Image) (addend : ℤ) (depth : ℕ) :
    ∃ ret, updateRefcountBounded g allocate (depth + 1) img' offset
      (int64 ((firstCluster g offset : ℤ) * g.clusterSize - offset)) addend = some (ret, img') := by
  obtain ⟨h0, h1⟩ := h.bounds hlen
  have hle : (firstCluster g offset : ℤ) * g.clusterSize ≤ offset := by
    rw [← (h.clusters hlen).1]
    exact Int.ediv_mul_le _ (clusterSize_int_pos g).ne'
  have hnonneg : 0 ≤ (firstCluster g offset : ℤ) * g.clusterSize := by positivity
  rw [int64_of_lt (by omega) (by omega), updateRefcountBounded]
  split_ifs with hneg hzero
  · exact ⟨-einval, rfl⟩
  · exact ⟨0, rfl⟩
  · omega

end Present

/-- **`update_refcount` changes all counters of a range or none.**  It succeeds exactly if every
counter of the range stays between 0 and 0xffff; then exactly these counters have changed.  When it
fails, every counter is what it was. -/
theorem updateRefcount_atomic (g : Geometry) (allocate : Image → ℤ → Except ℤ (BitVec 64) × Image)
    (img : Image) (offset length addend : ℤ) (hl : -2 ^ 31 ≤ addend) (hu : addend < 2 ^ 31)
    (hdistinct : img.table.Distinct) (h : img.Present g offset length) :
    ∃ ret img', updateRefcount g allocate img offset length addend = some (ret, img') ∧
      (ret = 0 ∨ ret = -einval) ∧
      (ret = 0 ↔ 0 ≤ length ∧ ∀ c, Overlaps g offset length c →
        InRange (img.refcount g c + addend)) ∧
      (ret = 0 → ∀ c, (Overlaps g offset length c →
        (img'.refcount g c : ℤ) = img.refcount g c + addend) ∧
        (¬Overlaps g offset length c → img'.refcount g c = img.refcount g c)) ∧
      (ret ≠ 0 → ∀ c, img'.refcount g c = img.refcount g c) := by
  rcases lt_trichotomy length 0 with hneg | rfl | hlen
  · refine ⟨-einval, img, ?_, .inr rfl, ?_, ?_, fun _ _ => rfl⟩
    · rw [updateRefcount, updateRefcountBounded, if_pos hneg]
    · simp only [einval]
      omega
    · simp [einval]
  · have hnone : ∀ c, ¬Overlaps g offset 0 c := not_overlaps_of_length_le g (le_refl 0)
    refine ⟨0, img, rfl, .inl rfl, ?_, ?_, fun _ _ => rfl⟩
    · simp only [le_refl, true_and, true_iff]
      exact fun c hc => absurd hc (hnone c)
    · exact fun _ c => ⟨fun hc => absurd hc (hnone c), fun _ => rfl⟩
  · obtain ⟨k, hk, img', hadded, hrun, hin, hout⟩ := updateLoop_spec g allocate hl hu
      (clusterCount g offset length) img (firstCluster g offset) none _ (h.covered hlen hdistinct)
      (fun i b hnone => by simp at hnone) rfl
    simp only [updateRefcount, updateRefcountBounded_of_present allocate h hlen, hrun,
      h.overlaps_iff hlen]
    rcases hk.eq_or_lt with rfl | hlt
    · refine ⟨0, img', by simp, .inl rfl, ⟨fun _ => ⟨hlen.le, fun c hc => ?_⟩, fun _ => rfl⟩,
        fun _ c => ⟨fun hc => ?_, fun hc => ?_⟩, by simp⟩
      · have hc' := hin (c - firstCluster g offset) (by omega)
        rwa [show firstCluster g offset + (c - firstCluster g offset) = c by omega] at hc'
      · rw [hadded.2, if_pos hc]
      · exact hadded.refcount_eq g hc
    obtain ⟨ret, img'', hundo, hsame⟩ : ∃ ret img'', updateRefcountBounded g allocate
        (length.toNat + 1) img' offset
        (int64 (((firstCluster g offset + k : ℕ) : ℤ) * g.clusterSize - offset)) (int32 (-addend)) =
          some (ret, img'') ∧ ∀ c, img''.refcount g c = img.refcount g c := by
      rcases Nat.eq_zero_or_pos k with rfl | hpos
      · obtain ⟨ret, hret⟩ := undo_nothing allocate h hlen img' (int32 (-addend)) length.toNat
        exact ⟨ret, img', hret, fun c => hadded.refcount_eq g (by omega)⟩
      · obtain ⟨img'', hundo, hsame⟩ :=
          undo_of_added allocate h hlen hdistinct hpos hlt hadded hin length.toNat
        exact ⟨0, img'', hundo, hsame⟩
    rw [if_neg hlt.ne, if_pos (by decide), hundo]
    refine ⟨-einval, img'', rfl, .inr rfl, ⟨by simp [einval], fun hall => ?_⟩, by simp [einval],
      fun _ => hsame⟩
    exact absurd (hall.2 _ (by omega)) (hout hlt)

/-- Clusters of 512 bytes, with 256 counters in a refcount block. -/
def smallClusters : Geometry := ⟨9, by decide, by decide⟩

def oneBlock : Image where
  table := ⟨[0x10000#64], by norm_num⟩
  block := fun _ k => if k = 2 then 0xffff else 1
  freeClusterIndex := 3

lemma oneBlock_distinct : oneBlock.table.Distinct := by
  have hzero : ∀ k, blockOffset oneBlock.table.entries k ≠ 0 → k = 0 := fun k hk => by
    by_contra hne
    exact hk (blockOffset_of_length_le (show 1 ≤ k by omega))
  intro i j hi hij
  rw [hzero i hi, hzero j (by rwa [← hij])]

lemma oneBlock_present : oneBlock.Present smallClusters 100 1000 := by
  intro b hb hb'
  have hcs : (smallClusters.clusterSize : ℤ) = 512 := rfl
  have hidx : (b / 512).toNat / smallClusters.refcountBlockSize = 0 := by
    rw [Nat.div_eq_of_lt]
    show (b / 512).toNat < 256
    omega
  rw [Image.Described, hcs, hidx]
  exact ⟨by omega, by omega, by decide⟩

/-- An unaligned range of three clusters, the last of which has the largest refcount: the change of
the first two is taken back. -/
theorem oneBlock_atomic :
    ∃ img', updateRefcount smallClusters (fun img _ => (.error (-5), img)) oneBlock 100 1000 1 =
        some (-einval, img') ∧
      ∀ c, img'.refcount smallClusters c = oneBlock.refcount smallClusters c := by
  obtain ⟨ret, img', hrun, hret, hiff, -, hsame⟩ := updateRefcount_atomic smallClusters
    (fun img _ => (.error (-5), img)) oneBlock 100 1000 1 (by norm_num) (by norm_num)
    oneBlock_distinct oneBlock_present
  have hfails : ret ≠ 0 := fun hzero => by
    have hin := (hiff.mp hzero).2 2 ⟨1024, by norm_num, by norm_num, by decide⟩
    exact absurd hin.2 (by decide)
  obtain rfl : ret = -einval := hret.resolve_left hfails
  exact ⟨img', hrun, hsame hfails⟩

/-- Two table entries that name the same refcount block. -/
def sharedBlock : Image := { oneBlock with table := ⟨[0x10000#64, 0x10000#64], by norm_num⟩ }

/-- A call that succeeds changes the counter of a cluster that the range does not touch: if the
block of the range is another cluster's too, and if the table index, `2 ^ 32` at the offset `2 ^
49`, is cut to an `unsigned int`. -/
theorem untouched_counter_changes :
    (∃ img', updateRefcount smallClusters (fun img _ => (.error (-5), img)) sharedBlock 0 1 1 =
        some (0, img') ∧ ¬Overlaps smallClusters 0 1 256 ∧
      sharedBlock.refcount smallClusters 256 = 1 ∧ img'.refcount smallClusters 256 = 2) ∧
    ∃ img', updateRefcount smallClusters (fun img _ => (.error (-5), img)) oneBlock (2 ^ 49) 1 1 =
        some (0, img') ∧ ¬Overlaps smallClusters (2 ^ 49) 1 0 ∧
      oneBlock.refcount smallClusters 0 = 1 ∧ img'.refcount smallClusters 0 = 2 := by
  simp only [overlaps_iff smallClusters one_pos]
  exact ⟨⟨_, rfl, by decide, by decide, by decide⟩, _, rfl, by decide, by decide, by decide⟩

/-! ## Successive calls -/

open Classical in
/-- What a call that succeeds does to the counter of a cluster. -/
noncomputable def change (g : Geometry) (c : ℕ) (offset length addend : ℤ) : ℤ :=
  if Overlaps g offset length c then addend else 0

variable {allocate}

lemma updateRefcount_success (hdistinct : img.table.Distinct) (h : img.Present g offset length)
    (hl : -2 ^ 31 ≤ addend) (hu : addend < 2 ^ 31)
    (hret : updateRefcount g allocate img offset length addend = some (0, img')) :
    img'.table = img.table ∧
      ∀ c, (img'.refcount g c : ℤ) = img.refcount g c + change g c offset length addend := by
  rcases lt_trichotomy length 0 with hneg | rfl | hlen
  · rw [updateRefcount, updateRefcountBounded, if_pos hneg] at hret
    simp [einval] at hret
  · obtain rfl : img = img' := (Prod.mk.inj (Option.some.inj hret)).2
    simp [change, not_overlaps_of_length_le g (le_refl 0)]
  · obtain ⟨k, hk, img₁, hadded, hrun, -, -⟩ := updateLoop_spec g allocate hl hu
      (clusterCount g offset length) img (firstCluster g offset) none _ (h.covered hlen hdistinct)
      (fun i b hnone => by simp at hnone) rfl
    rw [updateRefcount, updateRefcountBounded_of_present allocate h hlen, hrun] at hret
    rcases hk.eq_or_lt with rfl | hlt
    · obtain rfl : img₁ = img' := by simpa using hret
      refine ⟨hadded.1, fun c => ?_⟩
      rw [hadded.2, change]
      simp only [h.overlaps_iff hlen]
    · rw [if_neg hlt.ne] at hret
      simp only [if_pos (by decide : -einval < 0)] at hret
      split at hret <;> simp [einval] at hret

/-- Calls that have succeeded, one after the other: the offsets, the lengths and the addends. -/
inductive Succeeded (g : Geometry) (allocate : Image → ℤ → Except ℤ (BitVec 64) × Image) :
    Image → List (ℤ × ℤ × ℤ) → Image → Prop
  | nil {img : Image} : Succeeded g allocate img [] img
  | cons {img img₁ img' : Image} {offset length addend : ℤ} {calls : List (ℤ × ℤ × ℤ)}
      (hl : -2 ^ 31 ≤ addend) (hu : addend < 2 ^ 31)
      (h : updateRefcount g allocate img offset length addend = some (0, img₁))
      (hs : Succeeded g allocate img₁ calls img') :
      Succeeded g allocate img ((offset, length, addend) :: calls) img'

/-- **No change is lost**: after calls that have succeeded, every counter is what it was plus the
addends of the calls whose range has a byte of the cluster. -/
theorem succeeded_add_up {calls : List (ℤ × ℤ × ℤ)} (hrun : Succeeded g allocate img calls img')
    (hdistinct : img.table.Distinct) (h : ∀ u ∈ calls, img.Present g u.1 u.2.1) (c : ℕ) :
    (img'.refcount g c : ℤ) = img.refcount g c +
      (calls.map fun u => change g c u.1 u.2.1 u.2.2).sum := by
  induction hrun with
  | nil => simp
  | @cons img img₁ img' offset length addend calls hl hu hcall hs ih =>
    obtain ⟨htable, hcount⟩ := updateRefcount_success hdistinct (h _ List.mem_cons_self) hl hu hcall
    have hpresent : ∀ u ∈ calls, img₁.Present g u.1 u.2.1 := by
      intro u hu b hb hb'
      have := h u (List.mem_cons_of_mem _ hu) b hb hb'
      rwa [Image.Described, htable]
    rw [ih (htable ▸ hdistinct) hpresent, hcount, List.map_cons, List.sum_cons, add_assoc]

/-- What is subtracted from the counters of three clusters is added to them again. -/
theorem oneBlock_restored : ∃ img', Succeeded smallClusters (fun img _ => (.error (-5), img))
      oneBlock [(100, 1000, -1), (100, 1000, 1)] img' ∧
    ∀ c, (img'.refcount smallClusters c : ℤ) = oneBlock.refcount smallClusters c := by
  obtain ⟨img', hrun⟩ : ∃ img', Succeeded smallClusters (fun img _ => (.error (-5), img))
      oneBlock [(100, 1000, -1), (100, 1000, 1)] img' :=
    ⟨_, .cons (by norm_num) (by norm_num) rfl (.cons (by norm_num) (by norm_num) rfl .nil)⟩
  refine ⟨img', hrun, fun c => ?_⟩
  rw [succeeded_add_up hrun oneBlock_distinct (by simpa using oneBlock_present) c]
  simp only [change, List.map_cons, List.map_nil, List.sum_cons, List.sum_nil]
  split_ifs <;> ring

end Call

end Qemu.Qcow2.Update
