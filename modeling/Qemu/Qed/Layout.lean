import Qemu.Qed.Request

/-!
# The layout of an image

Every cluster of the image file has at most one use: it belongs to the header, to the L1 table, to
the L2 table of an index of the L1 table, or it has the data of a cluster of the guest.  The entries
of the tables are `L1Ok` and `EntryOk` if they point to clusters that have this use.  Uses are only
ever added, for clusters at the end of the file, so that old copies of a table stay as good as the
table itself.

**Main results:**
* `countContiguousClusters_spec` — the run of clusters that `qed_count_contiguous_clusters` counts.
* `bytesToClusters_eq` — the number of clusters, as long as it is less than the cluster size.
* `table_congr`, `entryView_congr` — what is read from clusters with a use.
-/

namespace Qemu.Qed

open Nat

/-! ## Sectors, clusters and tables -/

namespace Geometry

variable (g : Geometry)

/-- Sectors per cluster. -/
def spc : ℕ := g.clusterSize / 512

/-- The size of a cluster is a power of two from 4 KiB to 64 MiB. -/
lemma clusterSize_pow : ∃ a, 12 ≤ a ∧ a ≤ 26 ∧ g.clusterSize = 2 ^ a := by
  have h := g.clusterSize_valid
  simp only [isClusterSizeValid, Bool.and_eq_true, decide_eq_true_eq] at h
  obtain ⟨⟨hmin, hmax⟩, hpow⟩ := h
  obtain ⟨a, ha⟩ := (and_sub_one_eq_zero_iff_isPowerOfTwo (by omega)).mp hpow
  rw [ha] at hmin hmax
  refine ⟨a, ?_, ?_, ha⟩
  · exact (Nat.pow_le_pow_iff_right (a := 2) (by omega)).mp hmin
  · exact (Nat.pow_le_pow_iff_right (a := 2) (by omega)).mp hmax

lemma clusterSize_eq : g.clusterSize = 512 * g.spc := by
  obtain ⟨a, ha, _, h⟩ := g.clusterSize_pow
  have hdvd : 512 ∣ g.clusterSize := by
    rw [h]
    exact pow_dvd_pow 2 (show 9 ≤ a by omega)
  exact (Nat.mul_div_cancel' hdvd).symm

lemma eight_le_spc : 8 ≤ g.spc := by
  have h := g.clusterSize_valid
  simp only [isClusterSizeValid, Bool.and_eq_true, decide_eq_true_eq] at h
  rw [spc]
  omega

lemma spc_pos : 0 < g.spc := by
  have h := g.eight_le_spc
  omega

lemma clusterSize_pos : 0 < g.clusterSize := by
  have h := g.spc_pos
  have heq := g.clusterSize_eq
  omega

lemma clusterSize_le : g.clusterSize ≤ 64 * 1024 * 1024 := by
  have h := g.clusterSize_valid
  simp only [isClusterSizeValid, Bool.and_eq_true, decide_eq_true_eq] at h
  exact h.1.2

lemma tableSize_pos : 0 < g.tableSize := by
  have h := g.tableSize_valid
  simp only [isTableSizeValid, Bool.and_eq_true, decide_eq_true_eq] at h
  exact h.1.1

lemma tableSize_le : g.tableSize ≤ 16 := by
  have h := g.tableSize_valid
  simp only [isTableSizeValid, Bool.and_eq_true, decide_eq_true_eq] at h
  exact h.1.2

/-- A table has 64 entries in each of its sectors. -/
lemma tableNelems_eq : g.tableNelems = 64 * (g.tableSize * g.spc) := by
  rw [tableNelems, g.clusterSize_eq]
  have h : 512 * g.spc * g.tableSize = 8 * (64 * (g.tableSize * g.spc)) := by ring
  rw [h, Nat.mul_div_cancel_left _ (by omega)]

lemma tableNelems_pos : 0 < g.tableNelems := by
  rw [tableNelems_eq]
  have h := Nat.mul_pos g.tableSize_pos g.spc_pos
  omega

/-- The tables reach to the end of the image. -/
lemma imageSize_le : g.imageSize ≤ g.tableNelems * g.l2Bytes := by
  have h := g.imageSize_valid
  simp only [isImageSizeValid, Bool.and_eq_true, decide_eq_true_eq] at h
  refine h.2.trans ((mod_le _ _).trans (le_of_eq ?_))
  rw [l2Bytes, tableNelems, Nat.mul_comm g.tableSize]
  ring

/-! ## Positions of sectors -/

variable (p : ℕ)

lemma offsetIntoCluster_sector : g.offsetIntoCluster (512 * p) = 512 * (p % g.spc) := by
  rw [offsetIntoCluster, clusterSize_eq, mul_mod_mul_left]

lemma div_clusterSize_sector : 512 * p / g.clusterSize = p / g.spc := by
  rw [clusterSize_eq, Nat.mul_div_mul_left _ _ (by omega)]

lemma startOfCluster_sector :
    g.startOfCluster (512 * p) = 512 * (p / g.spc * g.spc) := by
  rw [startOfCluster, div_clusterSize_sector, clusterSize_eq]
  ring

lemma l2Index_sector : g.l2Index (512 * p) = p / g.spc % g.tableNelems := by
  rw [l2Index, div_clusterSize_sector]

lemma l1Index_sector : g.l1Index (512 * p) = p / g.spc / g.tableNelems := by
  rw [l1Index, l2Bytes, ← Nat.div_div_eq_div_mul, div_clusterSize_sector]

/-- The index of a sector of the image is inside of the L1 table. -/
lemma l1Index_lt {p : ℕ} (h : 512 * p < g.imageSize) :
    p / g.spc / g.tableNelems < g.tableNelems := by
  rw [← l1Index_sector, l1Index]
  refine Nat.div_lt_of_lt_mul ?_
  rw [Nat.mul_comm g.l2Bytes]
  exact lt_of_lt_of_le h g.imageSize_le

/-- The clusters that `len` bytes from `pos` on touch. -/
def clustersIn (pos len : ℕ) :
    ℕ := (pos % g.clusterSize + len + (g.clusterSize - 1)) / g.clusterSize

lemma clustersIn_eq (pos len : ℕ) :
    g.clustersIn pos len = (pos + len +
      (g.clusterSize - 1)) / g.clusterSize - pos / g.clusterSize := by
  have h : pos + len + (g.clusterSize - 1) =
      pos % g.clusterSize + len + (g.clusterSize - 1) + g.clusterSize * (pos / g.clusterSize) := by
    have := mod_add_div pos g.clusterSize
    omega
  rw [clustersIn, h, add_mul_div_left _ _ g.clusterSize_pos, Nat.add_sub_cancel]

/-- A part of a range has no more clusters. -/
lemma clustersIn_mono {pos len pos' len' : ℕ} (hpos : pos ≤ pos') (hend : pos' + len' ≤ pos + len) :
    g.clustersIn pos' len' ≤ g.clustersIn pos len := by
  rw [clustersIn_eq, clustersIn_eq]
  have h₁ : pos / g.clusterSize ≤ pos' / g.clusterSize := Nat.div_le_div_right hpos
  have h₂ : (pos' + len' + (g.clusterSize - 1)) / g.clusterSize ≤
      (pos + len + (g.clusterSize - 1)) / g.clusterSize := Nat.div_le_div_right (by omega)
  omega

/-- **The number of clusters** is right while it is less than the divisor of
`qed_bytes_to_clusters`. -/
lemma bytesToClusters_eq {bytes : ℕ}
    (h : (bytes + (g.clusterSize - 1)) / g.clusterSize < g.clusterSize - 1) :
    g.bytesToClusters bytes = (bytes + (g.clusterSize - 1)) / g.clusterSize := by
  rw [bytesToClusters, startOfCluster]
  generalize (bytes + (g.clusterSize - 1)) / g.clusterSize = n at h ⊢
  have hpos := g.clusterSize_pos
  have hn : n * g.clusterSize = n + (g.clusterSize - 1) * n := by
    obtain ⟨k, hk⟩ : ∃ k, g.clusterSize = k + 1 := ⟨g.clusterSize - 1, by omega⟩
    rw [hk, Nat.add_sub_cancel]
    ring
  rw [hn, add_mul_div_left _ _ (by omega), div_eq_of_lt h, Nat.zero_add]

end Geometry

/-! ## Runs of clusters -/

section Count

variable {g : Geometry} {table : Table}

/-- Clusters from `index` on whose entries follow on from each other. -/
def Contiguous (g : Geometry) (table : Table) (index n : ℕ) : Prop :=
  ∀ k < n, table (index + k) =
    if table index = 0 ∨ table index = 1 then table index else table index + k * g.clusterSize

/-- The loop stops behind a run of contiguous entries. -/
lemma countLoop_spec {index : ℕ} {k m last : ℕ} (hm : 0 < m) (h : Contiguous g table index m)
    (hlast : last = table (index + (m - 1))) :
    ∃ m', m ≤ m' ∧ m' ≤ m + k ∧ countLoop g table k (index + m) last = index + m' ∧
      Contiguous g table index m' := by
  induction k generalizing m last with
  | zero => exact ⟨m, le_rfl, le_rfl, rfl, h⟩
  | succ k ih =>
    have hlast' := h (m - 1) (by omega)
    rw [← hlast] at hlast'
    -- the next entry belongs to the run
    have hnext : ∀ next, table (index + m) = next →
        (next = if table index = 0 ∨ table index = 1 then table index
          else table index + m * g.clusterSize) →
        ∃ m', m ≤ m' ∧ m' ≤ m + (k + 1) ∧ countLoop g table k (index + m + 1) next = index + m' ∧
          Contiguous g table index m' := by
      intro next htable hvalue
      have hcont : Contiguous g table index (m + 1) := by
        intro i hi
        rcases Nat.lt_succ_iff_lt_or_eq.mp hi with hi | rfl
        · exact h i hi
        · rw [htable, hvalue]
      have hlast : next = table (index + (m + 1 - 1)) := by rw [Nat.add_sub_cancel, htable]
      obtain ⟨m', hle, hle', hcount, hrun⟩ := ih (by omega) hcont hlast
      exact ⟨m', by omega, by omega, hcount, hrun⟩
    -- the run ends here
    have hstop : ∃ m', m ≤ m' ∧ m' ≤ m + (k + 1) ∧ index + m = index + m' ∧
        Contiguous g table index m' :=
      ⟨m, le_rfl, by omega, rfl, h⟩
    rw [countLoop]
    split_ifs at hlast' with hzero
    · by_cases hlast0 : last = 0
      · rw [if_pos hlast0]
        split_ifs with htable
        · rw [hlast0]
          exact hnext 0 htable (by rw [if_pos hzero, ← hlast', hlast0])
        · exact hstop
      · have hlast1 : last = 1 := by omega
        rw [if_neg hlast0, if_pos hlast1]
        split_ifs with htable
        · rw [hlast1]
          exact hnext 1 htable (by rw [if_pos hzero, ← hlast', hlast1])
        · exact hstop
    · have hne : ¬ last = 0 ∧ ¬ last = 1 := by
        rw [not_or] at hzero
        omega
      rw [if_neg hne.1, if_neg hne.2]
      split_ifs with htable
      · refine hnext _ rfl ?_
        rw [if_neg hzero, htable, hlast']
        obtain ⟨i, rfl⟩ : ∃ i, m = i + 1 := ⟨m - 1, by omega⟩
        rw [Nat.add_sub_cancel]
        ring
      · exact hstop

/-- **A run of clusters** within the table. -/
lemma countContiguousClusters_spec (table : Table) {index n : ℕ} (hn : 0 < n)
    (hend : index + n ≤ g.tableNelems) :
    0 < countContiguousClusters g table index n ∧ countContiguousClusters g table index n ≤ n ∧
      Contiguous g table index (countContiguousClusters g table index n) := by
  have hone : Contiguous g table index 1 := by
    intro k hk
    obtain rfl : k = 0 := by omega
    split_ifs
    · rfl
    · rw [Nat.zero_mul, Nat.add_zero]
      rfl
  have hlast : table index = table (index + (1 - 1)) := rfl
  obtain ⟨m, hle, hle', hcount, hrun⟩ := countLoop_spec (k := n - 1) Nat.one_pos hone hlast
  have hrounds : min (index + n) g.tableNelems - (index + 1) = n - 1 := by omega
  rw [countContiguousClusters, hrounds, hcount, Nat.add_sub_cancel_left]
  exact ⟨by omega, by omega, hrun⟩

end Count

/-! ## The uses of the clusters -/

/-- What a cluster of the image file is used for. -/
inductive Use where
  | free
  | header
  | l1
  | l2 (index : ℕ)
  | data (cluster : ℕ)
  deriving DecidableEq, Repr

variable {i offset q : ℕ}

section Uses

variable {g : Geometry} {owner : ℕ → Use} {f f' : File}

/-- An entry of the L1 table: nothing, or an L2 table of this index. -/
def L1Ok (g : Geometry) (owner : ℕ → Use) (j offset : ℕ) : Prop :=
  offset = 0 ∨ g.clusterSize ∣ offset ∧
    ∀ k < g.tableSize, owner (offset / g.clusterSize + k) = .l2 j

/-- An entry of an L2 table: nothing, zeroes, or a cluster with the data of this one. -/
def EntryOk (g : Geometry) (owner : ℕ → Use) (cluster offset : ℕ) : Prop :=
  offset = 0 ∨ offset = 1 ∨ g.clusterSize ∣ offset ∧ owner (offset / g.clusterSize) = .data cluster

/-- An entry that is neither empty nor zero is the offset of a data cluster. -/
lemma EntryOk.allocated {cluster : ℕ} (h : EntryOk g owner cluster offset) (h₀ : offset ≠ 0)
    (h₁ : offset ≠ 1) : g.clusterSize ∣ offset ∧ owner
      (offset / g.clusterSize) = .data cluster := by
  rcases h with h | h | h
  · exact absurd h h₀
  · exact absurd h h₁
  · exact h

/-- The uses of a file of this size. -/
structure Owns (g : Geometry) (owner : ℕ → Use) (fileSize : ℕ) : Prop where
  fileSize_dvd : g.clusterSize ∣ fileSize
  used_lt : ∀ k, owner k ≠ .free → (k + 1) * g.clusterSize ≤ fileSize
  header : ∀ k, owner k = .header ↔ k < g.headerSize
  headerSize_pos : 0 < g.headerSize
  tableSize_ge : 2 ≤ g.tableSize
  l1_dvd : g.clusterSize ∣ g.l1TableOffset
  l1 : ∀ k < g.tableSize, owner (g.l1TableOffset / g.clusterSize + k) = .l1

/-- A table at the offset has its clusters for itself. -/
def TableOwned (g : Geometry) (owner : ℕ → Use) (u : Use) (offset : ℕ) : Prop :=
  g.clusterSize ∣ offset ∧ ∀ k < g.tableSize, owner (offset / g.clusterSize + k) = u

lemma div_spc {y : ℕ} (h : g.clusterSize ∣ offset) :
    (offset / 512 + y) / g.spc = offset / g.clusterSize + y / g.spc := by
  obtain ⟨t, rfl⟩ := h
  rw [Nat.mul_div_cancel_left _ g.clusterSize_pos, g.clusterSize_eq, Nat.mul_assoc,
    Nat.mul_div_cancel_left _ (by omega), mul_add_div g.spc_pos]

lemma div_dataSector (h : g.clusterSize ∣ offset) :
    (offset / 512 + q % g.spc) / g.spc = offset / g.clusterSize := by
  rw [div_spc h, div_eq_of_lt (mod_lt _ g.spc_pos), Nat.add_zero]

lemma mod_dataSector (h : g.clusterSize ∣ offset) :
    (offset / 512 + q % g.spc) % g.spc = q % g.spc := by
  obtain ⟨t, rfl⟩ := h
  rw [g.clusterSize_eq, Nat.mul_assoc, Nat.mul_div_cancel_left _ (by omega), mul_add_mod, mod_mod]

lemma tableSector_lt (hi : i < g.tableNelems) : i / 64 / g.spc < g.tableSize := by
  rw [g.tableNelems_eq] at hi
  have h : i / 64 < g.tableSize * g.spc := Nat.div_lt_of_lt_mul hi
  exact Nat.div_lt_of_lt_mul (by rwa [Nat.mul_comm])

/-- The sectors of a table belong to it. -/
lemma owner_tableSector {u : Use} (h : TableOwned g owner u offset) (hi : i < g.tableNelems) :
    owner ((offset / 512 + i / 64) / g.spc) = u := by
  rw [div_spc h.1]
  exact h.2 _ (tableSector_lt hi)

/-- The sectors of the clusters with these uses stay what they were. -/
def Keeps (g : Geometry) (owner : ℕ → Use) (U : Use → Prop) (f f' : File) : Prop :=
  ∀ x, U (owner (x / g.spc)) → f'.sectors x = f.sectors x

/-- **A table** does not change with sectors that have another use. -/
lemma table_congr {u : Use} {U : Use → Prop} (h : TableOwned g owner u offset)
    (hi : i < g.tableNelems) (hf : Keeps g owner U f f') (hu : U u) :
    f'.table offset i = f.table offset i := by
  rw [File.table, File.table, hf _ ((owner_tableSector h hi).symm ▸ hu)]

end Uses

/-! ## What the guest sees -/

section View

variable (c : Context)

/-- A sector of the backing file, which reads as zeroes behind its end. -/
def Context.backingSector (q : ℕ) : Sector :=
  match c.backing with
  | none => zeroSector
  | some b => if 512 * q < b.length then b.sectors q else zeroSector

/-- What an entry of an L2 table says about a sector of the guest. -/
def entryView (f : File) (offset q : ℕ) : Sector :=
  if offset = 0 then c.backingSector q
  else if offset = 1 then zeroSector
  else f.sectors (offset / 512 + q % c.g.spc)

variable {c}

/-- The backing file is read sector by sector. -/
lemma readBackingFile_sector {p n : ℕ} (hi : i < n) :
    readBackingFile c.backing (512 * p) (512 * n) i = c.backingSector (p + i) := by
  simp only [readBackingFile, Context.backingSector]
  rcases c.backing with _ | b
  · rfl
  have hmod := b.length_mod
  have hdiv : 512 * p / 512 = p := Nat.mul_div_cancel_left p (by omega)
  simp only [hdiv]
  split_ifs with h₁ h₂ h₃ h₄
  all_goals first | rfl | omega

/-- The `i`-th cluster of a run that starts at an offset is neither absent nor of zeroes. -/
lemma run_ne {g : Geometry} (h₀ : offset ≠ 0) (h₁ : offset ≠ 1) :
    offset + i * g.clusterSize ≠ 0 ∧ offset + i * g.clusterSize ≠ 1 := by
  have hsize := g.clusterSize_eq
  have hspc := g.eight_le_spc
  rcases i.eq_zero_or_pos with rfl | hi
  · omega
  · have := Nat.le_mul_of_pos_left g.clusterSize hi
    omega

/-- What the `i`-th cluster of a run has. -/
lemma entryView_run {f : File} (h₀ : offset ≠ 0) (h₁ : offset ≠ 1) :
    entryView c f (offset + i * c.g.clusterSize) q =
      f.sectors (offset / 512 + i * c.g.spc + q % c.g.spc) := by
  obtain ⟨hzero, hone⟩ := run_ne (g := c.g) (i := i) h₀ h₁
  rw [entryView, if_neg hzero, if_neg hone, c.g.clusterSize_eq, Nat.mul_left_comm,
    add_mul_div_left _ _ (by omega)]

/-- **A sector of the guest** does not change with sectors that have another use. -/
lemma entryView_congr {owner : ℕ → Use} {f f' : File}
    (h : EntryOk c.g owner (q / c.g.spc) offset)
    (hf : ∀ x, owner (x / c.g.spc) = .data (q / c.g.spc) → x % c.g.spc = q % c.g.spc →
      f'.sectors x = f.sectors x) :
    entryView c f' offset q = entryView c f offset q := by
  rw [entryView, entryView]
  split_ifs with h₀ h₁
  · rfl
  · rfl
  · obtain ⟨hdvd, howner⟩ := h.allocated h₀ h₁
    refine hf _ ?_ (mod_dataSector hdvd)
    rw [div_dataSector hdvd, howner]

end View

end Qemu.Qed
