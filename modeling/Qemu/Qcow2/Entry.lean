import Mathlib
import Qemu.Lib.Errno

/-!
# L2 entries, and the clusters three functions think they reference

An L2 entry is a 64-bit word that three switches decode: `qcow2_free_any_clusters` when a guest
cluster is overwritten or discarded, `qcow2_update_snapshot_refcount` when a snapshot is taken,
applied or deleted, and `check_refcounts_l2` when the image is checked.  Each ends in a loop over
the clusters of a byte range: `update_refcount` for the first two, `inc_refcounts` for the third.

**The counters.**  `clusterRange` is the loop of both.  `alloc_refcount_block` takes the refcount
table index as an `unsigned int` (`refcountSlot`).  `inc_refcounts` keeps the cluster number in an
`int`, and counts only the clusters that its table has: as many as the image file
(`incRefcountsClusters`).

**What is proved.**  `entry_clusters_agree_iff`: the three multisets are the same exactly for the
all-zero word, for compressed entries and for normal entries with an aligned offset, as long as the
counters are in the table of the check.  Entries with `QCOW_OFLAG_ZERO` are decoded differently.
-/

namespace Qemu.Qcow2

open Nat BitVec

/-- The cluster size of an image, from `MIN_CLUSTER_BITS` to `MAX_CLUSTER_BITS` as `qcow2_open`
checks. -/
structure Geometry where
  clusterBits : ℕ
  min_le : 9 ≤ clusterBits
  le_max : clusterBits ≤ 21
deriving DecidableEq

namespace Geometry

variable (g : Geometry)

def clusterSize : ℕ := 2 ^ g.clusterBits

/-- Entries of an L2 table, which is always one cluster. -/
def l2Size : ℕ := 2 ^ (g.clusterBits - 3)

def refcountBlockSize : ℕ := 2 ^ (g.clusterBits - 1)

def csizeShift : ℕ := 62 - (g.clusterBits - 8)

def csizeMask : BitVec 64 := BitVec.ofNat 64 (2 ^ (g.clusterBits - 8) - 1)

def clusterOffsetMask : BitVec 64 := BitVec.ofNat 64 (2 ^ g.csizeShift - 1)

lemma clusterSize_pos : 0 < g.clusterSize := Nat.two_pow_pos _

end Geometry

/-- `QCOW_OFLAG_COPIED`: the refcount of the referenced cluster is exactly one. -/
def oflagCopied : BitVec 64 := 0x8000000000000000#64

/-- `QCOW_OFLAG_COMPRESSED`. -/
def oflagCompressed : BitVec 64 := 0x4000000000000000#64

/-- `QCOW_OFLAG_ZERO`: the cluster reads as all zeros. -/
def oflagZero : BitVec 64 := 1#64

/-- `L2E_OFFSET_MASK`, which is also `L1E_OFFSET_MASK`. -/
def l2eOffsetMask : BitVec 64 := 0x00ffffffffffff00#64

inductive ClusterType
  | unallocated
  | normal
  | compressed
  | zero
deriving DecidableEq, Repr

/-- `qcow2_get_cluster_type`. -/
def qcow2GetClusterType (l2Entry : BitVec 64) : ClusterType :=
  if l2Entry &&& oflagCompressed ≠ 0#64 then .compressed
  else if l2Entry &&& oflagZero ≠ 0#64 then .zero
  else if l2Entry &&& l2eOffsetMask = 0#64 then .unallocated
  else .normal

/-! ## The two loops over a byte range -/

/-- The cluster numbers in the loops of `update_refcount` and `inc_refcounts` for `length` bytes at
`offset`. -/
def clusterRange (g : Geometry) (offset length : ℕ) : List ℕ :=
  if length = 0 then []
  else
    let start := offset / g.clusterSize
    let last := (offset + length - 1) / g.clusterSize
    List.range' start (last + 1 - start)

/-- The counter that `update_refcount` changes for a cluster, named by the cluster it stands for.
The index into the refcount table is an `unsigned int` in `alloc_refcount_block`. -/
def refcountSlot (g : Geometry) (clusterIndex : ℕ) : ℕ :=
  clusterIndex / g.refcountBlockSize % 2 ^ 32 * g.refcountBlockSize +
    clusterIndex % g.refcountBlockSize

/-- The counters that `update_refcount` changes. -/
def updateRefcountClusters (g : Geometry) (offset length : ℕ) : List ℕ :=
  (clusterRange g offset length).map (refcountSlot g)

/-- The counters that `inc_refcounts` increments.  `k` is an `int`: larger cluster numbers are
truncated.  A negative `k` is a corruption and one beyond the table, after the end of the image
file, is an error of the check; neither counts anything. -/
def incRefcountsClusters (g : Geometry) (refcountTableSize : BitVec 32) (offset size : ℕ) :
    List ℕ :=
  (clusterRange g offset size).filterMap fun c =>
    let k := (BitVec.ofNat 32 c).toInt
    if k < 0 then none else if k ≥ refcountTableSize.toInt then none else some k.toNat

/-! ## The three switches -/

/-- Number of 512-byte sectors of a compressed cluster. -/
def nbCsectors (g : Geometry) (l2Entry : BitVec 64) : ℕ :=
  ((l2Entry >>> g.csizeShift) &&& g.csizeMask).toNat + 1

/-- Host offset of a compressed cluster, rounded down to a sector. -/
def compressedStart (g : Geometry) (l2Entry : BitVec 64) : ℕ :=
  ((l2Entry &&& g.clusterOffsetMask) &&& ~~~511#64).toNat

/-- The counters decremented by `qcow2_free_any_clusters`. -/
def qcow2FreeAnyClusters (g : Geometry) (l2Entry : BitVec 64) (nbClusters : ℕ) : List ℕ :=
  match qcow2GetClusterType l2Entry with
  | .compressed =>
    updateRefcountClusters g (compressedStart g l2Entry) (nbCsectors g l2Entry * 512)
  | .normal =>
    updateRefcountClusters g (l2Entry &&& l2eOffsetMask).toNat (nbClusters <<< g.clusterBits)
  | .unallocated | .zero => []

/-- The counters changed by the inner loop of `qcow2_update_snapshot_refcount`.  Whatever is neither
all zero nor compressed is taken for a normal cluster. -/
def updateSnapshotEntry (g : Geometry) (l2Entry : BitVec 64) : List ℕ :=
  if l2Entry = 0#64 then []
  else
    let offset := l2Entry &&& ~~~oflagCopied
    if offset &&& oflagCompressed ≠ 0#64 then
      updateRefcountClusters g (compressedStart g offset) (nbCsectors g offset * 512)
    else
      -- `update_cluster_refcount` passes one byte of the cluster on to `update_refcount`
      let clusterIndex := ((offset &&& l2eOffsetMask) >>> g.clusterBits).toNat
      updateRefcountClusters g (clusterIndex <<< g.clusterBits) 1

/-- The counters incremented by the body of the loop of `check_refcounts_l2`, if `check_copied` does
not end it because a refcount cannot be read. -/
def checkRefcountsL2Entry (g : Geometry) (refcountTableSize : BitVec 32) (l2Entry : BitVec 64) :
    List ℕ :=
  match qcow2GetClusterType l2Entry with
  | .compressed =>
    -- the copied flag is reported and taken off before the size is read
    let l2Entry := if l2Entry &&& oflagCopied ≠ 0#64 then l2Entry &&& ~~~oflagCopied else l2Entry
    incRefcountsClusters g refcountTableSize (compressedStart g l2Entry)
      (nbCsectors g l2Entry * 512)
  | .zero =>
    if l2Entry &&& l2eOffsetMask = 0#64 then []
    else incRefcountsClusters g refcountTableSize (l2Entry &&& l2eOffsetMask).toNat g.clusterSize
  | .normal =>
    incRefcountsClusters g refcountTableSize (l2Entry &&& l2eOffsetMask).toNat g.clusterSize
  | .unallocated => []

/-- Overwriting, snapshotting and checking agree on what an entry references. -/
def EntryAgrees (g : Geometry) (refcountTableSize : BitVec 32) (l2Entry : BitVec 64) : Prop :=
  (qcow2FreeAnyClusters g l2Entry 1 : Multiset ℕ) = updateSnapshotEntry g l2Entry ∧
    (updateSnapshotEntry g l2Entry : Multiset ℕ) = checkRefcountsL2Entry g refcountTableSize l2Entry

instance (g : Geometry) (refcountTableSize : BitVec 32) (l2Entry : BitVec 64) :
    Decidable (EntryAgrees g refcountTableSize l2Entry) :=
  inferInstanceAs (Decidable (_ ∧ _))

/-! ## The loops -/

variable (g : Geometry)

lemma clusterRange_aligned (c : ℕ) {length : ℕ} (hpos : 0 < length)
    (hle : length ≤ g.clusterSize) : clusterRange g (c * g.clusterSize) length = [c] := by
  have hcs := g.clusterSize_pos
  have hlast : (c * g.clusterSize + length - 1) / g.clusterSize = c := by
    apply Nat.div_eq_of_lt_le
    · omega
    · rw [Nat.succ_mul]; omega
  simp [clusterRange, Nat.ne_of_gt hpos, hlast, Nat.mul_div_cancel _ hcs]

lemma length_clusterRange_unaligned {offset : ℕ} (h : offset % g.clusterSize ≠ 0) :
    (clusterRange g offset g.clusterSize).length = 2 := by
  have hcs := g.clusterSize_pos
  have hmod := mod_lt offset hcs
  have hdm := div_add_mod offset g.clusterSize
  have hlast : (offset + g.clusterSize - 1) / g.clusterSize = offset / g.clusterSize + 1 := by
    have hb : offset + g.clusterSize - 1
        = (offset % g.clusterSize - 1) + g.clusterSize * (offset / g.clusterSize + 1) := by
      rw [Nat.mul_succ]; omega
    rw [hb, add_mul_div_left _ _ hcs, div_eq_of_lt (by omega)]
    omega
  simp only [clusterRange, Nat.ne_of_gt hcs, if_false, List.length_range', hlast]
  omega

lemma length_updateRefcountClusters (offset length : ℕ) :
    (updateRefcountClusters g offset length).length = (clusterRange g offset length).length := by
  simp [updateRefcountClusters]

lemma refcountSlot_mod (c : ℕ) : refcountSlot g c % 2 ^ 32 = c % 2 ^ 32 := by
  set b := g.refcountBlockSize with hbdef
  have hslot : refcountSlot g c = c % (b * 2 ^ 32) := by
    rw [mod_mul, refcountSlot, ← hbdef]
    ring
  rw [hslot]
  exact mod_mod_of_dvd _ (Dvd.intro_left b rfl)

lemma toInt_eq_refcountSlot {c : ℕ} (h : refcountSlot g c < 2 ^ 31) :
    (BitVec.ofNat 32 c).toInt = refcountSlot g c := by
  have hmod : c % 2 ^ 32 = refcountSlot g c := by
    rw [← refcountSlot_mod g, mod_eq_of_lt (by omega)]
  rw [toInt_eq_toNat_of_lt, toNat_ofNat, hmod]
  rw [toNat_ofNat, hmod]
  omega

/-- The counters of a byte range are in the table of `inc_refcounts`, and so fit its `int k`. -/
def InTable (g : Geometry) (refcountTableSize : BitVec 32) (offset length : ℕ) : Prop :=
  ∀ c ∈ clusterRange g offset length, (refcountSlot g c : ℤ) < refcountTableSize.toInt

/-- The two loops name the same counters exactly when these are in the table. -/
lemma inc_eq_update_iff (n : BitVec 32) (offset length : ℕ) :
    (updateRefcountClusters g offset length : Multiset ℕ) = incRefcountsClusters g n offset length
      ↔ InTable g n offset length := by
  constructor
  · intro h c hc
    have hc' : refcountSlot g c ∈ incRefcountsClusters g n offset length := by
      rw [← Multiset.mem_coe, ← h]
      exact List.mem_map_of_mem hc
    simp only [incRefcountsClusters, List.mem_filterMap] at hc'
    obtain ⟨d, -, hd⟩ := hc'
    split_ifs at hd with hneg hsize
    have := Option.some.inj hd
    omega
  · intro h
    refine congrArg _ ?_
    rw [updateRefcountClusters, incRefcountsClusters, ← List.filterMap_eq_map]
    refine List.filterMap_congr fun c hc => ?_
    have hlt := h c hc
    have hint := toInt_lt (x := n)
    simp [toInt_eq_refcountSlot g (c := c) (by omega), hlt]

/-! ## The switches, one cluster type at a time -/

lemma and_not_copied_and_compressed (e : BitVec 64) :
    (e &&& ~~~oflagCopied) &&& oflagCompressed = e &&& oflagCompressed := by
  rw [BitVec.and_assoc]; rfl

lemma and_not_copied_and_offset (e : BitVec 64) :
    (e &&& ~~~oflagCopied) &&& l2eOffsetMask = e &&& l2eOffsetMask := by
  rw [BitVec.and_assoc]; rfl

lemma getLsbD_csizeMask (i : ℕ) :
    g.csizeMask.getLsbD i = (decide (i < 64) && decide (i < g.clusterBits - 8)) := by
  rw [Geometry.csizeMask, getLsbD_ofNat, testBit_two_pow_sub_one]

lemma getLsbD_clusterOffsetMask (i : ℕ) :
    g.clusterOffsetMask.getLsbD i = (decide (i < 64) && decide (i < g.csizeShift)) := by
  rw [Geometry.clusterOffsetMask, getLsbD_ofNat, testBit_two_pow_sub_one]

/-- The size field ends below the flag bits, so a mask of flags leaves it alone. -/
lemma nbCsectors_and {mask : BitVec 64} (hmask : ∀ i < 62, mask.getLsbD i = true)
    (e : BitVec 64) : nbCsectors g (e &&& mask) = nbCsectors g e := by
  have h9 := g.min_le
  have h21 := g.le_max
  unfold nbCsectors
  congr 2
  refine eq_of_getLsbD_eq fun i hi => ?_
  simp only [getLsbD_and, getLsbD_ushiftRight, getLsbD_csizeMask, Geometry.csizeShift]
  by_cases hm : i < g.clusterBits - 8
  · simp [hmask (62 - (g.clusterBits - 8) + i) (by omega)]
  · simp [hm]

lemma and_and_clusterOffsetMask {mask : BitVec 64} (hmask : ∀ i < 62, mask.getLsbD i = true)
    (e : BitVec 64) : e &&& mask &&& g.clusterOffsetMask = e &&& g.clusterOffsetMask := by
  refine eq_of_getLsbD_eq fun i hi => ?_
  simp only [getLsbD_and, getLsbD_clusterOffsetMask, Geometry.csizeShift]
  by_cases hm : i < 62 - (g.clusterBits - 8)
  · simp [hmask i (by omega)]
  · simp [hm]

lemma nbCsectors_and_not_copied (e : BitVec 64) :
    nbCsectors g (e &&& ~~~oflagCopied) = nbCsectors g e :=
  nbCsectors_and g (by decide) e

lemma compressedStart_and_not_copied (e : BitVec 64) :
    compressedStart g (e &&& ~~~oflagCopied) = compressedStart g e := by
  rw [compressedStart, and_and_clusterOffsetMask g (by decide), compressedStart]

variable {e : BitVec 64}

lemma updateSnapshotEntry_of_not_compressed (g : Geometry) (h0 : e ≠ 0#64)
    (hc : e &&& oflagCompressed = 0#64) : updateSnapshotEntry g e
      = [refcountSlot g ((e &&& l2eOffsetMask).toNat / g.clusterSize)] := by
  have hidx : ((e &&& l2eOffsetMask) >>> g.clusterBits).toNat
      = (e &&& l2eOffsetMask).toNat / g.clusterSize := by
    rw [toNat_ushiftRight, shiftRight_eq_div_pow]; rfl
  have hsize : 1 ≤ g.clusterSize := g.clusterSize_pos
  simp only [updateSnapshotEntry, h0, if_false, and_not_copied_and_compressed, hc,
    and_not_copied_and_offset, hidx, ne_eq, not_true, Nat.shiftLeft_eq]
  rw [updateRefcountClusters, ← Geometry.clusterSize, clusterRange_aligned g _ Nat.one_pos hsize]
  rfl

lemma not_compressed_bit (h : qcow2GetClusterType e ≠ .compressed) :
    e &&& oflagCompressed = 0#64 := by
  by_contra hc
  exact h (by simp only [qcow2GetClusterType, ne_eq, hc, not_false_eq_true, if_true])

lemma agrees_of_compressed (g : Geometry) (n : BitVec 32)
    (h : qcow2GetClusterType e = .compressed) :
    EntryAgrees g n e ↔ InTable g n (compressedStart g e) (nbCsectors g e * 512) := by
  have hc : e &&& oflagCompressed ≠ 0#64 := by
    intro h0; simp [qcow2GetClusterType, h0] at h; split_ifs at h
  have h0 : e ≠ 0#64 := by rintro rfl; simp at hc
  have hsnap : updateSnapshotEntry g e
      = updateRefcountClusters g (compressedStart g e) (nbCsectors g e * 512) := by
    simp only [updateSnapshotEntry, h0, if_false, and_not_copied_and_compressed, hc, ne_eq,
      not_false_eq_true, if_true, compressedStart_and_not_copied, nbCsectors_and_not_copied]
  have hcheck : checkRefcountsL2Entry g n e
      = incRefcountsClusters g n (compressedStart g e) (nbCsectors g e * 512) := by
    simp only [checkRefcountsL2Entry, h]
    split_ifs
    · rw [compressedStart_and_not_copied, nbCsectors_and_not_copied]
    · rfl
  have hfree : qcow2FreeAnyClusters g e 1 = updateSnapshotEntry g e := by
    rw [hsnap]; simp only [qcow2FreeAnyClusters, h]
  rw [EntryAgrees, hfree, hcheck, hsnap]
  simp only [true_and]
  exact inc_eq_update_iff g n _ _

/-- Freeing a zero cluster frees nothing, snapshotting it always counts a cluster. -/
lemma not_agrees_of_zero (g : Geometry) (n : BitVec 32) (h : qcow2GetClusterType e = .zero) :
    ¬ EntryAgrees g n e := by
  have hc := not_compressed_bit (by rw [h]; decide)
  have h0 : e ≠ 0#64 := by rintro rfl; simp [qcow2GetClusterType] at h
  rintro ⟨hfree, -⟩
  rw [updateSnapshotEntry_of_not_compressed g h0 hc] at hfree
  simp [qcow2FreeAnyClusters, h] at hfree

lemma agrees_of_unallocated (g : Geometry) (n : BitVec 32)
    (h : qcow2GetClusterType e = .unallocated) :
    EntryAgrees g n e ↔ e = 0#64 := by
  have hc := not_compressed_bit (by rw [h]; decide)
  constructor
  · rintro ⟨hfree, -⟩
    by_contra h0
    rw [updateSnapshotEntry_of_not_compressed g h0 hc] at hfree
    simp [qcow2FreeAnyClusters, h] at hfree
  · rintro rfl
    simp [EntryAgrees, qcow2FreeAnyClusters, updateSnapshotEntry, checkRefcountsL2Entry, h]

lemma agrees_of_normal (g : Geometry) (n : BitVec 32) (h : qcow2GetClusterType e = .normal) :
    EntryAgrees g n e ↔ (e &&& l2eOffsetMask).toNat % g.clusterSize = 0 ∧
      InTable g n (e &&& l2eOffsetMask).toNat g.clusterSize := by
  have hc := not_compressed_bit (by rw [h]; decide)
  have h0 : e ≠ 0#64 := by rintro rfl; simp [qcow2GetClusterType] at h
  have hsnap := updateSnapshotEntry_of_not_compressed g h0 hc
  set offset := (e &&& l2eOffsetMask).toNat
  have hfree : qcow2FreeAnyClusters g e 1 = updateRefcountClusters g offset g.clusterSize := by
    simp only [qcow2FreeAnyClusters, h, one_shiftLeft]; rfl
  have hcheck : checkRefcountsL2Entry g n e = incRefcountsClusters g n offset g.clusterSize := by
    simp only [checkRefcountsL2Entry, h]; rfl
  by_cases hal : offset % g.clusterSize = 0
  · have hrange : updateRefcountClusters g offset g.clusterSize = updateSnapshotEntry g e := by
      have := clusterRange_aligned g (offset / g.clusterSize) g.clusterSize_pos le_rfl
      rw [Nat.div_mul_cancel (dvd_of_mod_eq_zero hal)] at this
      rw [hsnap, updateRefcountClusters, this]; rfl
    rw [EntryAgrees, hfree, hcheck, ← hrange, inc_eq_update_iff]
    simp only [true_and, hal]
  · constructor
    · rintro ⟨heq, -⟩
      have hcard := congrArg Multiset.card heq
      rw [hfree, hsnap, Multiset.coe_card, Multiset.coe_card, length_updateRefcountClusters,
        length_clusterRange_unaligned g hal] at hcard
      simp at hcard
    · rintro ⟨hal', -⟩
      exact absurd hal' hal

/-! ## The exact condition -/

/-- An entry that is all zero, compressed, or normal with an aligned host offset, with counters that
are in the table of the check. -/
def PlainEntry (g : Geometry) (refcountTableSize : BitVec 32) (l2Entry : BitVec 64) : Prop :=
  l2Entry = 0#64 ∨
  (qcow2GetClusterType l2Entry = .compressed ∧
    InTable g refcountTableSize (compressedStart g l2Entry) (nbCsectors g l2Entry * 512)) ∨
  (qcow2GetClusterType l2Entry = .normal ∧ (l2Entry &&& l2eOffsetMask).toNat % g.clusterSize = 0 ∧
    InTable g refcountTableSize (l2Entry &&& l2eOffsetMask).toNat g.clusterSize)

/-- **Overwriting, snapshotting and checking agree exactly on plain entries.**  In particular no
entry with the zero flag is decoded alike by all three. -/
theorem entry_clusters_agree_iff (g : Geometry) (refcountTableSize : BitVec 32)
    (l2Entry : BitVec 64) :
    EntryAgrees g refcountTableSize l2Entry ↔ PlainEntry g refcountTableSize l2Entry := by
  have hzero : qcow2GetClusterType 0#64 = .unallocated := by decide
  have hne : qcow2GetClusterType l2Entry ≠ .unallocated → l2Entry ≠ 0#64 := by
    rintro h rfl
    exact h hzero
  unfold PlainEntry
  cases h : qcow2GetClusterType l2Entry with
  | compressed =>
    have h0 := hne (by rw [h]; decide)
    simp only [agrees_of_compressed g refcountTableSize h, h0, false_or, true_and, reduceCtorEq,
      false_and, or_false]
  | normal =>
    have h0 := hne (by rw [h]; decide)
    simp only [agrees_of_normal g refcountTableSize h, h0, false_or, true_and,
      reduceCtorEq, false_and]
  | zero =>
    have h0 := hne (by rw [h]; decide)
    simp only [not_agrees_of_zero g refcountTableSize h, h0, reduceCtorEq, false_and, or_false]
  | unallocated =>
    simp only [agrees_of_unallocated g refcountTableSize h, reduceCtorEq, false_and, or_false]

/-- The entry `zero_single_l2` writes over an unallocated cluster of an image of 16 clusters:
freeing it touches nothing, snapshotting it counts the header cluster. -/
theorem zero_entry_not_agreed :
    ¬ ∀ (g : Geometry) (refcountTableSize : BitVec 32) (l2Entry : BitVec 64),
      EntryAgrees g refcountTableSize l2Entry := by
  intro h
  exact absurd (h ⟨16, by decide, by decide⟩ 16#32 oflagZero) (by decide)

end Qemu.Qcow2
