import Qemu.Qcow2.Entry

/-!
# The size of a new refcount table

When the refcount table has no entry for a new refcount block, `alloc_refcount_block` moves the
table to the end of the image, in one piece with the refcount blocks for the new metadata.  The
number of blocks and the size of the table are found together: a loop repeats
`next_refcount_table_size` until the size does not change any more.

Sizes are counted in table entries, in bytes and in clusters.  In its loop the source passes the
number of entries on to `size_to_clusters`, which takes bytes; after the loop it passes the number
of bytes.  The model keeps both calls as they are.

**Main results:**
- `growTo_eq_iterate`: `next_refcount_table_size` takes the first size of a sequence
- `sizedRight_iff_smallTable`: the loop stops with a table and a number of blocks that are large
  enough exactly if that first size is small
-/

namespace Qemu.Qcow2.Growth

open Nat

variable (g : Geometry)

/-! ## What the source computes -/

/-- A value that is kept in an `unsigned int`. -/
def u32 (n : ℕ) : ℕ := n % 2 ^ 32

/-- `size_to_clusters`. -/
def sizeToClusters (size : ℕ) : ℕ := (size + (g.clusterSize - 1)) / g.clusterSize

/-- `while (min > clusters) clusters = (clusters * 3 + 1) / 2`, left after `rounds` rounds. -/
def growTo (min : ℕ) : ℕ → ℕ → ℕ
  | 0, clusters => clusters
  | rounds + 1, clusters =>
    if clusters < min then growTo min rounds (u32 (clusters * 3 + 1) / 2) else clusters

/-- `next_refcount_table_size`, of at most `minClusters` rounds (`growTo_eq_iterate`). -/
def nextRefcountTableSize (refcountTableSize minSize : ℕ) : ℕ :=
  let minClusters := minSize / g.l2Size + 1
  let refcountTableClusters := max 1 (refcountTableSize / g.l2Size)
  u32 (growTo minClusters minClusters refcountTableClusters * g.l2Size)

/-- The fields that `alloc_refcount_block` reads when it grows the table, in the ranges of their
types, and `refcount_table_index`, which is not an index of the current table. -/
structure Request where
  refcountTableSize : ℕ
  freeClusterIndex : ℕ
  freeClusterIndex_lt : freeClusterIndex < 2 ^ 63
  refcountTableIndex : ℕ
  refcountTableIndex_lt : refcountTableIndex < 2 ^ 32
  grows : refcountTableSize ≤ refcountTableIndex

/-- The refcount blocks for the clusters up to `free_cluster_index`. -/
def Request.blocksUsed (r : Request) : ℕ :=
  (r.freeClusterIndex + g.refcountBlockSize - 1) / g.refcountBlockSize

/-- `blocks_clusters` for a table with `tableSize` entries. -/
def blocksClusters (tableSize : ℕ) : ℕ :=
  1 + (sizeToClusters g tableSize + g.refcountBlockSize - 1) / g.refcountBlockSize

/-- `next_refcount_table_size` for a table that describes one with `tableSize` entries. -/
def nextSize (r : Request) (tableSize : ℕ) : ℕ :=
  let metaClusters := sizeToClusters g tableSize + blocksClusters g tableSize
  nextRefcountTableSize g r.refcountTableSize
    (u32 (r.blocksUsed g + (metaClusters + g.refcountBlockSize - 1) / g.refcountBlockSize))

/-- The loop: `table_size` and `blocks_clusters` when it is left in `rounds` rounds. -/
def sizingLoop (r : Request) : ℕ → ℕ → Option (ℕ × ℕ)
  | 0, _ => none
  | rounds + 1, tableSize =>
    let lastTableSize := tableSize
    let tableSize := nextSize g r lastTableSize
    if lastTableSize ≠ tableSize then sizingLoop r rounds tableSize
    else some (tableSize, blocksClusters g lastTableSize)

def sizing (r : Request) (rounds : ℕ) : Option (ℕ × ℕ) :=
  sizingLoop g r rounds (nextRefcountTableSize g r.refcountTableSize (u32 (r.blocksUsed g + 1)))

/-- Every entry stored in `new_table` and every counter in `new_blocks` lies inside the array. -/
def Fits (r : Request) (tableSize blocks : ℕ) : Prop :=
  r.refcountTableIndex < tableSize ∧ (∀ i < blocks, r.blocksUsed g + i < tableSize) ∧
    sizeToClusters g (tableSize * 8) + blocks ≤ blocks * g.refcountBlockSize

/-- The loop stops, and what it has found is large enough. -/
def SizedRight (r : Request) : Prop :=
  ∃ rounds tableSize blocks, sizing g r rounds = some (tableSize, blocks) ∧
    Fits g r tableSize blocks

/-! ## The sequence of table sizes -/

/-- One round of `next_refcount_table_size`, without the range of its type. -/
def grown (clusters : ℕ) : ℕ := (clusters * 3 + 1) / 2

/-- The sizes in clusters that a refcount table can be given, from the current one on. -/
def Request.clustersAt (r : Request) (k : ℕ) :
    ℕ := grown^[k] (max 1 (r.refcountTableSize / g.l2Size))

/-- The `k`-th size is the first one that has an entry with the index `index`. -/
def Request.FirstWith (r : Request) (index k : ℕ) : Prop :=
  index < r.clustersAt g k * g.l2Size ∧ ∀ j < k, r.clustersAt g j * g.l2Size ≤ index

/-- The first size with room for one more entry is small: two blocks have a counter for each of its
clusters and for themselves, the number of its entries fits an `unsigned int`, and it reaches the
index that is missing. -/
def Request.SmallTable (r : Request) : Prop :=
  ∃ k, r.FirstWith g (r.blocksUsed g + 1) k ∧ r.clustersAt g k + 2 ≤ 2 * g.refcountBlockSize ∧
    r.clustersAt g k * g.l2Size < 2 ^ 32 ∧ r.refcountTableIndex < r.clustersAt g k * g.l2Size

/-! ## Units -/

lemma u32_of_lt {n : ℕ} (h : n < 2 ^ 32) : u32 n = n := mod_eq_of_lt h

lemma u32_lt (n : ℕ) : u32 n < 2 ^ 32 := mod_lt _ (by norm_num)

lemma l2Size_ge : 64 ≤ g.l2Size := by
  have h : 2 ^ 6 ≤ 2 ^ (g.clusterBits - 3) :=
    Nat.pow_le_pow_right (by norm_num) (by have := g.min_le; omega)
  exact h

lemma l2Size_le : g.l2Size ≤ 2 ^ 18 :=
  Nat.pow_le_pow_right (by norm_num) (by have := g.le_max; omega)

lemma refcountBlockSize_eq : g.refcountBlockSize = 4 * g.l2Size := by
  have h : g.clusterBits - 1 = g.clusterBits - 3 + 2 := by have := g.min_le; omega
  rw [Geometry.refcountBlockSize, Geometry.l2Size, h, pow_add]
  ring

lemma clusterSize_eq : g.clusterSize = 8 * g.l2Size := by
  have h : g.clusterBits = g.clusterBits - 3 + 3 := by have := g.min_le; omega
  rw [Geometry.clusterSize, Geometry.l2Size, h, pow_add]
  norm_num [mul_comm]

lemma exists_u32_mul (c : ℕ) : ∃ c', u32 (c * g.l2Size) = c' * g.l2Size := by
  have hdvd : g.l2Size ∣ 2 ^ 32 := Nat.pow_dvd_pow 2 (by have := g.le_max; omega)
  obtain ⟨c', hc'⟩ : g.l2Size ∣ u32 (c * g.l2Size) := (dvd_mod_iff hdvd).mpr (Nat.dvd_mul_left _ _)
  exact ⟨c', by rw [hc', mul_comm]⟩

lemma sizeToClusters_entries (c : ℕ) : sizeToClusters g (c * g.l2Size) = (c + 7) / 8 := by
  have hL := l2Size_ge g
  rw [sizeToClusters, clusterSize_eq]
  have h : c * g.l2Size + (8 * g.l2Size - 1) = (c + 7) * g.l2Size + (g.l2Size - 1) := by
    rw [add_mul]
    omega
  have hrest : (g.l2Size - 1) / g.l2Size = 0 := div_eq_of_lt (by omega)
  rw [h, mul_comm 8, ← Nat.div_div_eq_div_mul, mul_comm (c + 7), mul_add_div (by omega),
    hrest, add_zero]

lemma sizeToClusters_bytes (c : ℕ) : sizeToClusters g (c * g.l2Size * 8) = c := by
  have hL := l2Size_ge g
  rw [sizeToClusters, clusterSize_eq, mul_assoc, mul_comm g.l2Size, mul_comm c,
    mul_add_div (by omega), div_eq_of_lt (by omega), add_zero]

lemma blocksClusters_entries (c : ℕ) :
    blocksClusters g (c * g.l2Size) = 1 + ((c + 7) / 8 + 4 * g.l2Size - 1) / (4 * g.l2Size) := by
  rw [blocksClusters, sizeToClusters_entries, refcountBlockSize_eq]

variable (r : Request) {c : ℕ}

/-- Two blocks are taken for every table that is not very large. -/
lemma blocksClusters_small (hc : 1 ≤ c) (hsmall : c + 2 ≤ 2 * g.refcountBlockSize) :
    blocksClusters g (c * g.l2Size) = 2 := by
  rw [refcountBlockSize_eq] at hsmall
  rw [blocksClusters_entries, Nat.div_eq_of_lt_le (k := 1) (by omega) (by omega)]

/-- And one more entry describes that table and its two blocks. -/
lemma nextSize_small (hc : 1 ≤ c) (hsmall : c + 2 ≤ 2 * g.refcountBlockSize) :
    nextSize g r (c * g.l2Size) =
      nextRefcountTableSize g r.refcountTableSize (u32 (r.blocksUsed g + 1)) := by
  have hone : (sizeToClusters g (c * g.l2Size) + blocksClusters g (c * g.l2Size)
      + g.refcountBlockSize - 1) / g.refcountBlockSize = 1 := by
    rw [blocksClusters_small g hc hsmall, sizeToClusters_entries]
    rw [refcountBlockSize_eq] at hsmall ⊢
    exact Nat.div_eq_of_lt_le (by omega) (by omega)
  simp only [nextSize, hone]

/-- The blocks only have enough counters for a table of less than two blocks of clusters: every
block more is taken for eight times as many clusters as it can describe. -/
lemma small_of_counters (hc : 1 ≤ c)
    (h : c + blocksClusters g (c * g.l2Size) ≤ blocksClusters g
      (c * g.l2Size) * g.refcountBlockSize) :
    c + 2 ≤ 2 * g.refcountBlockSize := by
  have hL := l2Size_ge g
  rw [blocksClusters_entries, refcountBlockSize_eq] at h
  rw [refcountBlockSize_eq]
  set x := ((c + 7) / 8 + 4 * g.l2Size - 1) / (4 * g.l2Size) with hx
  have hxc : x * (4 * g.l2Size) ≤ (c + 7) / 8 + 4 * g.l2Size - 1 := div_mul_le_self _ _
  have hx1 : 1 ≤ x := by
    rw [hx, Nat.one_le_div_iff (by omega)]
    omega
  obtain ⟨y, hy⟩ : ∃ y, x = y + 1 := ⟨x - 1, by omega⟩
  rw [hy] at h hxc
  have hmul : y * g.l2Size ≥ y := Nat.le_mul_of_pos_right _ (by omega)
  have hexp : (1 + (y + 1)) * (4 * g.l2Size) = 8 * g.l2Size + 4 * (y * g.l2Size) := by ring
  have hexp' : (y + 1) * (4 * g.l2Size) = 4 * (y * g.l2Size) + 4 * g.l2Size := by ring
  rw [hexp] at h
  rw [hexp'] at hxc
  rcases Nat.eq_zero_or_pos y with rfl | hpos
  · omega
  · have hLy : g.l2Size ≤ y * g.l2Size := Nat.le_mul_of_pos_left _ hpos
    omega

/-! ## The loop of `next_refcount_table_size` -/

lemma lt_grown (h : 1 ≤ c) : c < grown c := by
  rw [grown]
  omega

/-- The loop takes the first size that is not below `min`. -/
theorem growTo_eq_iterate {min : ℕ} (hmin : min ≤ 2 ^ 27) :
    ∀ (rounds c : ℕ), 1 ≤ c → min ≤ c + rounds →
      ∃ k, growTo min rounds c = grown^[k] c ∧ min ≤ grown^[k] c ∧ ∀ j < k, grown^[j] c < min := by
  intro rounds
  induction rounds with
  | zero =>
    intro c _ hle
    exact ⟨0, rfl, by simpa using hle, by simp⟩
  | succ rounds ih =>
    intro c hc hle
    simp only [growTo]
    split_ifs with hlt
    · have hstep : u32 (c * 3 + 1) / 2 = grown c := by rw [u32_of_lt (by omega), grown]
      have hgrown := lt_grown hc
      obtain ⟨k, hk, hge, hbefore⟩ := ih (grown c) (by omega) (by omega)
      refine ⟨k + 1, by rw [hstep, hk, Function.iterate_succ_apply], ?_, ?_⟩
      · rwa [Function.iterate_succ_apply]
      rintro (_ | j) hj
      · exact hlt
      · rw [Function.iterate_succ_apply]
        exact hbefore j (by omega)
    · exact ⟨0, rfl, by simpa using hlt, by simp⟩

lemma nextRefcountTableSize_eq (index : ℕ) (h : index < 2 ^ 32) : ∃ k, r.FirstWith g index k ∧
      nextRefcountTableSize g r.refcountTableSize index = u32 (r.clustersAt g k * g.l2Size) := by
  have hL := l2Size_ge g
  have hmin : index / g.l2Size + 1 ≤ 2 ^ 27 := by
    have h64 : index / g.l2Size ≤ index / 64 := div_le_div_left hL (by norm_num)
    omega
  obtain ⟨k, hk, hge, hbefore⟩ := growTo_eq_iterate hmin (index / g.l2Size + 1)
    (max 1 (r.refcountTableSize / g.l2Size)) (le_max_left _ _) (by omega)
  refine ⟨k, ⟨(Nat.div_lt_iff_lt_mul (by omega)).mp hge, fun j hj => ?_⟩, ?_⟩
  · exact (Nat.le_div_iff_mul_le (by omega)).mp (Nat.lt_succ_iff.mp (hbefore j hj))
  · simp only [nextRefcountTableSize, hk]
    rfl

lemma Request.FirstWith.unique {r : Request} {index k k' : ℕ} (h : r.FirstWith g index k)
    (h' : r.FirstWith g index k') : k = k' := by
  rcases lt_trichotomy k k' with hlt | heq | hlt
  · have := h'.2 k hlt
    have := h.1
    omega
  · exact heq
  · have := h.2 k' hlt
    have := h'.1
    omega

lemma Request.one_le_clustersAt (k : ℕ) : 1 ≤ r.clustersAt g k := by
  induction k with
  | zero => exact le_max_left _ _
  | succ k ih =>
    rw [Request.clustersAt, Function.iterate_succ_apply']
    exact le_trans ih (le_of_lt (lt_grown ih))

/-- A size that is found in an `unsigned int` has not been cut off: the one before is not three
times as small. -/
lemma Request.FirstWith.lt_of_u32 {r : Request} {index k : ℕ} (h : r.FirstWith g index k)
    (hlt : index < u32 (r.clustersAt g k * g.l2Size)) : r.clustersAt g k * g.l2Size < 2 ^ 32 := by
  have hL := l2Size_le g
  have hu := u32_lt (r.clustersAt g k * g.l2Size)
  by_contra hge
  have hcut : u32 (r.clustersAt g k * g.l2Size) + 2 ^ 32 ≤ r.clustersAt g k * g.l2Size := by
    rw [u32]
    omega
  rcases k with _ | k
  · have hsize : r.refcountTableSize / g.l2Size * g.l2Size ≤ r.refcountTableSize :=
      div_mul_le_self _ _
    have hidx := r.refcountTableIndex_lt
    have hgrows := r.grows
    have hzero : r.clustersAt g 0 = max 1 (r.refcountTableSize / g.l2Size) := rfl
    rw [hzero] at hge
    rcases max_cases 1 (r.refcountTableSize / g.l2Size) with ⟨hmax, _⟩ | ⟨hmax, _⟩ <;>
      rw [hmax] at hge <;> omega
  · have hbefore := h.2 k (lt_succ_self k)
    have hsucc : r.clustersAt g (k + 1) = grown (r.clustersAt g k) :=
      Function.iterate_succ_apply' _ _ _
    have hdouble : 2 * r.clustersAt g (k + 1) ≤ 3 * r.clustersAt g k + 1 := by
      rw [hsucc, grown]
      omega
    have hmul : 2 * (r.clustersAt g (k + 1) * g.l2Size) ≤ 3 * (r.clustersAt g k * g.l2Size) +
        g.l2Size := by
      calc 2 * (r.clustersAt g (k + 1) * g.l2Size)
          = (2 * r.clustersAt g (k + 1)) * g.l2Size := by ring
        _ ≤ (3 * r.clustersAt g k + 1) * g.l2Size := Nat.mul_le_mul_right _ hdouble
        _ = 3 * (r.clustersAt g k * g.l2Size) + g.l2Size := by ring
    omega

/-! ## The sizing loop -/

/-- When the loop is left, one more round would not change the size. -/
lemma sizingLoop_fixed {tableSize blocks : ℕ} :
    ∀ {rounds start : ℕ}, sizingLoop g r rounds start = some (tableSize, blocks) →
      nextSize g r tableSize = tableSize ∧ blocks = blocksClusters g tableSize := by
  intro rounds
  induction rounds with
  | zero => simp [sizingLoop]
  | succ rounds ih =>
    intro start h
    simp only [sizingLoop] at h
    split_ifs at h with hne
    · exact ih h
    push Not at hne
    simp only [Option.some.injEq, Prod.mk.injEq] at h
    obtain ⟨rfl, rfl⟩ := h
    rw [← hne]
    exact ⟨hne.symm, rfl⟩

lemma smallTable_of_fits {tableSize : ℕ} (hfix : nextSize g r tableSize = tableSize)
    (hfits : Fits g r tableSize (blocksClusters g tableSize)) : r.SmallTable g := by
  obtain ⟨hindex, hentries, hcounters⟩ := hfits
  obtain ⟨k₀, _, hk₀⟩ := nextRefcountTableSize_eq g r _ (u32_lt (r.blocksUsed g +
    (sizeToClusters g tableSize + blocksClusters g tableSize + g.refcountBlockSize - 1)
      / g.refcountBlockSize))
  obtain ⟨c, hc⟩ := exists_u32_mul g (r.clustersAt g k₀)
  have htable : tableSize = c * g.l2Size := by rw [← hc, ← hk₀]; exact hfix.symm
  have hlt : tableSize < 2 ^ 32 := by rw [htable, ← hc]; exact u32_lt _
  have hzero := hentries 0 (Nat.add_pos_left Nat.one_pos _)
  have hc1 : 1 ≤ c := by
    rcases Nat.eq_zero_or_pos c with rfl | hpos
    · simp [htable] at hzero
    · exact hpos
  rw [htable, sizeToClusters_bytes] at hcounters
  have hsmall := small_of_counters g hc1 hcounters
  rw [htable, nextSize_small g r hc1 hsmall] at hfix
  have hroom : r.blocksUsed g + 1 < tableSize :=
    hentries 1 (by rw [htable, blocksClusters_small g hc1 hsmall]; omega)
  rw [u32_of_lt (by omega)] at hfix
  obtain ⟨k, hk, hnext⟩ := nextRefcountTableSize_eq g r (r.blocksUsed g + 1) (by omega)
  have huncut : u32 (r.clustersAt g k * g.l2Size) = tableSize := by rw [← hnext, hfix, htable]
  have hbound := hk.lt_of_u32 g (by rw [huncut]; exact hroom)
  rw [u32_of_lt hbound] at huncut
  have hcs : r.clustersAt g k = c := by
    rw [htable] at huncut
    exact eq_of_mul_eq_mul_right (by have := l2Size_ge g; omega) huncut
  exact ⟨k, hk, by rw [hcs]; exact hsmall, hbound, by rw [huncut]; exact hindex⟩

lemma sizedRight_of_smallTable (h : r.SmallTable g) : SizedRight g r := by
  obtain ⟨k, hk, hsmall, hbound, hindex⟩ := h
  have hone := r.one_le_clustersAt g k
  have hroom := hk.1
  have hnext : nextRefcountTableSize g r.refcountTableSize (u32 (r.blocksUsed g + 1)) =
      r.clustersAt g k * g.l2Size := by
    rw [u32_of_lt (by omega)]
    obtain ⟨k', hk', heq⟩ := nextRefcountTableSize_eq g r (r.blocksUsed g + 1) (by omega)
    rw [heq, hk'.unique g hk, u32_of_lt hbound]
  refine ⟨1, r.clustersAt g k * g.l2Size, 2, ?_, hindex, fun i hi => by omega, ?_⟩
  · rw [sizing, hnext]
    simp only [sizingLoop, nextSize_small g r hone hsmall, hnext, ne_eq, not_true_eq_false,
      if_false, blocksClusters_small g hone hsmall]
  · rw [sizeToClusters_bytes]
    omega

/-- The sizing loop stops with a table that has all the entries that are stored and with blocks that
have all the counters that are stored, exactly if the table stays small. -/
theorem sizedRight_iff_smallTable (r : Request) : SizedRight g r ↔ r.SmallTable g := by
  constructor
  · rintro ⟨rounds, tableSize, blocks, hsizing, hfits⟩
    obtain ⟨hfix, rfl⟩ := sizingLoop_fixed g r hsizing
    exact smallTable_of_fits g r hfix hfits
  · exact sizedRight_of_smallTable g r

/-! ## An image with small clusters -/

/-- An image of 3.1 GiB with clusters of 512 bytes, 400 of them in its refcount table, and all its
blocks in use. -/
def largeImage : Request where
  refcountTableSize := 25600
  freeClusterIndex := 25600 * 256
  freeClusterIndex_lt := by norm_num
  refcountTableIndex := 25600
  refcountTableIndex_lt := by norm_num
  grows := le_rfl

/-- Two blocks with 512 counters are taken for a table with 600 clusters. -/
theorem largeImage_overrun : sizing ⟨9, by norm_num, by norm_num⟩ largeImage 1 = some (38400, 2) ∧
      ¬ ∀ g r, SizedRight g r := by
  refine ⟨by decide +kernel, fun hall => ?_⟩
  obtain ⟨rounds, tableSize, blocks, hsizing, hfits⟩ :=
    hall ⟨9, by norm_num, by norm_num⟩ largeImage
  obtain ⟨hfix, rfl⟩ := sizingLoop_fixed _ _ hsizing
  obtain ⟨k, hk, hsmall, -⟩ := smallTable_of_fits _ _ hfix hfits
  have hfirst : largeImage.FirstWith ⟨9, by norm_num, by norm_num⟩
      (largeImage.blocksUsed ⟨9, by norm_num, by norm_num⟩ + 1) 1 := by
    refine ⟨by decide +kernel, fun j hj => ?_⟩
    obtain rfl : j = 0 := by omega
    decide +kernel
  obtain rfl := hk.unique _ hfirst
  exact absurd hsmall (by decide +kernel)

end Qemu.Qcow2.Growth
