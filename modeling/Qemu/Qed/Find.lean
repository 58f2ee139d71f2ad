import Qemu.Qed.Serve
import Qemu.Qed.Invariant

/-!
# Finding clusters

`qed_find_cluster` and its callback, from the start of a piece of a request to the function that
reads or writes the piece.

All that is known about a piece before its data is touched comes from here: whether its clusters
exist, and how many of them are contiguous.

**Main results:**
* `Fits.piece` — the number of clusters in a piece, as long as the numbers of 32 bits do not
  overflow.
* `reach_findCluster` — the clusters that are found have the entries that the tables say.
-/

namespace Qemu.Qed

open Nat Qed.Geometry

/-! ## The cache and the file -/

/-- Only the references to cached tables differ, and tables that have been dropped or read. -/
structure Recached (c : Context) (f : File) (s s' : State) : Prop where
  l1Table : s'.l1Table = s.l1Table
  fileSize : s'.fileSize = s.fileSize
  queue : s'.allocatingWriteReqs = s.allocatingWriteReqs
  plugged : s'.plugged = s.plugged
  needCheck : s'.needCheck = s.needCheck
  cache : ∀ e ∈ s'.l2Cache, (∃ e₀ ∈ s.l2Cache, e₀.offset = e.offset ∧ e₀.table = e.table) ∨
    ∃ j < c.g.tableNelems, e.offset = s.l1Table j ∧ e.offset ≠ 0 ∧
      ∀ i < c.g.tableNelems, e.table i = f.table e.offset i

section Recached

variable {c : Context} {owner : ℕ → Use} {P : ℕ → Set Sector} {s s' s'' : State} {f : File}

lemma Recached.good (h : Recached c f s s') (hgood : Good c owner P s f) : Good c owner P s' f :=
  hgood.recache h.l1Table h.cache (le_of_eq h.fileSize.symm) (h.fileSize ▸ hgood.owns.fileSize_dvd)

lemma Recached.agrees (h : Recached c f s s') {cluster : ℕ} (ha : Agrees c s f cluster) :
    Agrees c s' f cluster where
  l1 := by rw [h.l1Table, ha.l1]
  cached e he hoffset := by
    rw [h.l1Table] at hoffset
    rcases h.cache e he with ⟨e₀, he₀, hoffset₀, htable⟩ | ⟨_, _, _, _, htable⟩
    · rw [← htable, ← hoffset₀]
      exact ha.cached e₀ he₀ (hoffset₀.trans hoffset)
    · exact htable _ (mod_lt _ c.g.tableNelems_pos)

lemma Recached.refl : Recached c f s s :=
  ⟨rfl, rfl, rfl, rfl, rfl, fun e he => .inl ⟨e, he, rfl, rfl⟩⟩

lemma Recached.trans (h : Recached c f s s') (h' : Recached c f s' s'') : Recached c f s s'' where
  l1Table := h'.l1Table.trans h.l1Table
  fileSize := h'.fileSize.trans h.fileSize
  queue := h'.queue.trans h.queue
  plugged := h'.plugged.trans h.plugged
  needCheck := h'.needCheck.trans h.needCheck
  cache e he := by
    rcases h'.cache e he with ⟨e₀, he₀, hoffset, htable⟩ | hfile
    · rw [← hoffset, ← htable]
      exact h.cache e₀ he₀
    · rw [h.l1Table] at hfile
      exact .inr hfile

lemma recached_unref (r : L2Ref) : Recached c f s (unrefL2 s r) := by
  cases r with
  | none => exact .refl
  | cached offset => exact ⟨rfl, rfl, rfl, rfl, rfl,
      fun e he => .inl (L2Cache.exists_of_mem_unref he)⟩
  | fresh offset table => exact .refl

lemma recached_ref (offset : ℕ) :
    Recached c f s { s with l2Cache := L2Cache.ref s.l2Cache offset } :=
  ⟨rfl, rfl, rfl, rfl, rfl, fun _ he => .inl (L2Cache.exists_of_mem_ref he)⟩

lemma recached_commit {j : ℕ} (table : Table) (hj : j < c.g.tableNelems) (hne : s.l1Table j ≠ 0)
    (htable : ∀ i < c.g.tableNelems, table i = f.table (s.l1Table j) i) :
    Recached c f s { s with l2Cache := L2Cache.commit s.l2Cache ⟨s.l1Table j, table, 1⟩ } := by
  refine ⟨rfl, rfl, rfl, rfl, rfl, fun e he => ?_⟩
  rcases L2Cache.mem_commit he with he | rfl
  · exact .inl ⟨e, he, rfl, rfl⟩
  · exact .inr ⟨j, hj, rfl, hne, htable⟩

end Recached

/-! ## Pieces of a request -/

/-- For `len` bytes the numbers of 32 bits do not overflow, and `qed_bytes_to_clusters` is right. -/
def Fits (g : Geometry) (pos len : ℕ) : Prop :=
  min (g.clustersIn pos len) g.tableNelems < g.clusterSize - 1 ∧
    min (g.clustersIn pos len) g.tableNelems * g.clusterSize < 2 ^ 32

instance (g : Geometry) (pos len : ℕ) :
    Decidable (Fits g pos len) := inferInstanceAs (Decidable (_ ∧ _))

section Pieces

variable {g : Geometry} {p e : ℕ}

lemma Fits.mono {pos len : ℕ} (pos' len' : ℕ) (h : Fits g pos len) (hpos : pos ≤ pos')
    (hend : pos' + len' ≤ pos + len) : Fits g pos' len' := by
  have hle : min (g.clustersIn pos' len') g.tableNelems ≤ min
      (g.clustersIn pos len) g.tableNelems :=
    min_le_min_right _ (g.clustersIn_mono hpos hend)
  exact ⟨hle.trans_lt h.1, (Nat.mul_le_mul_right _ hle).trans_lt h.2⟩

/-- The sectors up to the end of the request or of the L2 table. -/
def Geometry.pieceLimit (g : Geometry) (p e : ℕ) : ℕ :=
  min (e - p) ((p / g.spc / g.tableNelems + 1) * (g.tableNelems * g.spc) - p)

lemma pieceLimit_bytes :
    min (512 * e - 512 * p) ((512 * p / g.l2Bytes + 1) * g.l2Bytes - 512 * p) =
      512 * g.pieceLimit p e := by
  have hl1 := g.l1Index_sector p
  rw [l1Index] at hl1
  have hbytes : g.l2Bytes = 512 * (g.tableNelems * g.spc) := by
    rw [l2Bytes, g.clusterSize_eq]
    ring
  rw [hl1, pieceLimit, hbytes, ← Nat.mul_sub, Nat.mul_left_comm, ← Nat.mul_sub,
    Nat.mul_min_mul_left]

lemma lt_l2End : p < (p / g.spc / g.tableNelems + 1) *
    (g.tableNelems * g.spc) := by
  rw [Nat.div_div_eq_div_mul, Nat.mul_comm g.spc]
  have hpos := Nat.mul_pos g.tableNelems_pos g.spc_pos
  have h := div_add_mod p (g.tableNelems * g.spc)
  have hmod := mod_lt p hpos
  rw [Nat.add_mul, Nat.one_mul, Nat.mul_comm (p / _)]
  omega

lemma pieceLimit_pos (h : p < e) : 0 < g.pieceLimit p e := by
  have h' := lt_l2End (g := g) (p := p)
  rw [pieceLimit, lt_min_iff]
  omega

lemma pieceLimit_le : g.pieceLimit p e ≤ e - p := min_le_left _ _

/-- A piece ends with the request or with the L2 table. -/
lemma pieceLimit_end (h : p < e) : p + g.pieceLimit p e = e ∨
    p + g.pieceLimit p e = (p / g.spc / g.tableNelems + 1) *
      (g.tableNelems * g.spc) := by
  have h' := lt_l2End (g := g) (p := p)
  rw [pieceLimit]
  rcases min_choice (e - p)
    ((p / g.spc / g.tableNelems + 1) * (g.tableNelems * g.spc) - p) with hm | hm
  · rw [hm]
    omega
  · rw [hm]
    omega

/-- The clusters that `l` sectors from `p` on touch. -/
def Geometry.clustersOf (g : Geometry) (p l : ℕ) : ℕ :=
  (p % g.spc + l + (g.spc - 1)) / g.spc

lemma div_clusterSize_round (a : ℕ) :
    (512 * a + (g.clusterSize - 1)) / g.clusterSize = (a + (g.spc - 1)) / g.spc := by
  have hpos := g.spc_pos
  have h : 512 * a + (g.clusterSize - 1) = 512 * (a + (g.spc - 1)) + 511 := by
    rw [g.clusterSize_eq]
    omega
  rw [h, g.clusterSize_eq, ← Nat.div_div_eq_div_mul, mul_add_div (by omega)]
  rfl

lemma clustersIn_sectors (l : ℕ) : g.clustersIn (512 * p) (512 * l) = g.clustersOf p l := by
  have h := g.offsetIntoCluster_sector p
  rw [offsetIntoCluster] at h
  rw [clustersIn, h, ← Nat.mul_add, div_clusterSize_round, clustersOf]

lemma clustersOf_pos {l : ℕ} (hl : 0 < l) : 0 < g.clustersOf p l := by
  refine Nat.div_pos ?_ g.spc_pos
  omega

lemma le_clustersOf_mul (l : ℕ) : p % g.spc + l ≤ g.clustersOf p l * g.spc := by
  have hpos := g.spc_pos
  rw [clustersOf]
  generalize p % g.spc + l = a
  have h := div_add_mod (a + (g.spc - 1)) g.spc
  have hmod := mod_lt (a + (g.spc - 1)) hpos
  rw [Nat.mul_comm] at h
  omega

/-- Sectors that fit into `m` clusters touch no more. -/
lemma clustersOf_le {l m : ℕ} (h : p % g.spc + l ≤ m * g.spc) :
    g.clustersOf p l ≤ m := by
  have hpos := g.spc_pos
  rw [clustersOf, ← Nat.lt_succ_iff]
  refine Nat.div_lt_of_lt_mul ?_
  rw [Nat.mul_comm, succ_mul]
  omega

/-- A piece stays within the L2 table. -/
lemma index_add_clustersOf_le {l : ℕ} (hl : l ≤ g.pieceLimit p e) :
    p / g.spc % g.tableNelems + g.clustersOf p l ≤ g.tableNelems := by
  set cl := p / g.spc
  have hindex : cl % g.tableNelems < g.tableNelems := mod_lt _ g.tableNelems_pos
  suffices h : g.clustersOf p l ≤ g.tableNelems - cl % g.tableNelems by omega
  refine clustersOf_le ?_
  have hlimit : l ≤ (cl / g.tableNelems + 1) * (g.tableNelems * g.spc) - p :=
    hl.trans (min_le_right _ _)
  have hp : p = g.spc * cl + p % g.spc := (div_add_mod _ _).symm
  have hcl' : g.tableNelems * (cl / g.tableNelems) + cl % g.tableNelems = cl := div_add_mod _ _
  have hend : (cl / g.tableNelems + 1) * (g.tableNelems * g.spc) =
      g.spc * cl + (g.tableNelems - cl % g.tableNelems) * g.spc := by
    obtain ⟨d, hd⟩ : ∃ d, g.tableNelems = cl % g.tableNelems + d :=
      ⟨_, (Nat.add_sub_cancel' hindex.le).symm⟩
    rw [show g.tableNelems - cl % g.tableNelems = d by omega]
    calc (cl / g.tableNelems + 1) * (g.tableNelems * g.spc)
        = (g.tableNelems * (cl / g.tableNelems) + g.tableNelems) * g.spc := by ring
      _ = (g.tableNelems * (cl / g.tableNelems) + (cl % g.tableNelems + d)) * g.spc := by
          rw [← hd]
      _ = (cl + d) * g.spc := by rw [← Nat.add_assoc, hcl']
      _ = g.spc * cl + d * g.spc := by ring
  have hmod := mod_lt p g.spc_pos
  have hone : g.spc ≤ (g.tableNelems - cl % g.tableNelems) * g.spc :=
    Nat.le_mul_of_pos_left _ (by omega)
  omega

/-- **The clusters of a piece** are counted right. -/
lemma Fits.piece {l : ℕ} (h : Fits g (512 * p) (512 * (e - p))) (hl : l ≤ g.pieceLimit p e) :
    g.bytesToClusters (512 * (p % g.spc) + 512 * l) % 2 ^ 32 = g.clustersOf p l ∧
      g.clustersOf p l * g.clusterSize < 2 ^ 32 := by
  have hle : g.clustersOf p l ≤ min (g.clustersIn (512 * p) (512 * (e - p))) g.tableNelems := by
    refine le_min ?_ ?_
    · rw [← clustersIn_sectors]
      refine g.clustersIn_mono le_rfl ?_
      have := hl.trans (min_le_left _ _)
      omega
    · have := index_add_clustersOf_le (g := g) (p := p) hl
      omega
  have hround : (512 * (p % g.spc) + 512 * l + (g.clusterSize - 1)) / g.clusterSize =
      g.clustersOf p l := by
    rw [← Nat.mul_add, div_clusterSize_round, clustersOf]
  have hlt : g.clustersOf p l < g.clusterSize - 1 := hle.trans_lt h.1
  have hsize := g.clusterSize_le
  rw [g.bytesToClusters_eq (by rw [hround]; exact hlt), hround, mod_eq_of_lt (by omega)]
  exact ⟨rfl, (Nat.mul_le_mul_right _ hle).trans_lt h.2⟩

end Pieces

/-! ## What is found -/

/-- The entry of the `k`-th cluster that has been found. -/
def ClusterKind.entry (g : Geometry) (offset k : ℕ) : ClusterKind → ℕ
  | found => offset + k * g.clusterSize
  | zero => 1
  | l2 => 0
  | l1 => 0

/-- A piece of `l` sectors from `p` on, in `m` clusters of this kind. -/
structure Found (c : Context) (s : State) (f : File) (l2Table : L2Ref) (p e : ℕ)
    (kind : ClusterKind)
    (offset l m : ℕ) : Prop where
  pos : 0 < l
  le : l ≤ c.g.pieceLimit p e
  aligned : p + l = e ∨ (p + l) % c.g.spc = 0
  clusters : p % c.g.spc + l ≤ m * c.g.spc
  inTable : p / c.g.spc % c.g.tableNelems + m ≤ c.g.tableNelems
  version : ∀ k < m, Version c s f (p / c.g.spc / c.g.tableNelems)
    (p / c.g.spc % c.g.tableNelems + k) (kind.entry c.g offset k)
  l1 : kind = .l1 → s.l1Table (p / c.g.spc / c.g.tableNelems) = 0
  l2 : kind ≠ .l1 → s.l1Table (p / c.g.spc / c.g.tableNelems) ≠ 0 ∧
    l2Table = .cached (s.l1Table (p / c.g.spc / c.g.tableNelems)) ∧
      ∃ e₀, L2Cache.find s.l2Cache (s.l1Table (p / c.g.spc / c.g.tableNelems)) = some e₀
  allocated : kind = .found → offset ≠ 0 ∧ offset ≠ 1

section Find

variable {c : Context} {owner : ℕ → Use} {P : ℕ → Set Sector} {s : State} {f : File} {p e : ℕ}

/-- A table in the cache has entries that may be seen. -/
lemma Version.of_find {j i offset : ℕ} {e₀ : CachedL2Table}
    (hfind : L2Cache.find s.l2Cache offset = some e₀) (hoffset : offset = s.l1Table j) :
    Version c s f j i (e₀.table i) := by
  obtain ⟨hmem, heq⟩ := L2Cache.mem_of_find hfind
  exact .cached hmem (heq.trans hoffset)

lemma findClusterCb_found (acb : Acb) (hgood : Good c owner P s f) (hpe : p < e)
    (himage : 512 * e ≤ c.g.imageSize) (hfits : Fits c.g (512 * p) (512 * (e - p)))
    {e₀ : CachedL2Table} (hne : s.l1Table (p / c.g.spc / c.g.tableNelems) ≠ 0)
    (hacb : acb.l2Table = .cached (s.l1Table (p / c.g.spc / c.g.tableNelems)))
    (hfind : L2Cache.find s.l2Cache (s.l1Table (p / c.g.spc / c.g.tableNelems)) = some e₀) :
    ∃ kind offset l m, findClusterCb c s acb (512 * p) (512 * c.g.pieceLimit p e) =
        ioFn c s acb (.ok kind) offset (512 * l) ∧
      (∀ k < m, e₀.table (p / c.g.spc % c.g.tableNelems + k) = kind.entry c.g offset k) ∧
      kind ≠ .l1 ∧ Found c s f acb.l2Table p e kind offset l m := by
  have hspc := c.g.spc_pos
  have hlimit := pieceLimit_pos (g := c.g) hpe
  obtain ⟨hn, hbytes⟩ := hfits.piece le_rfl
  have hj : p / c.g.spc / c.g.tableNelems < c.g.tableNelems := c.g.l1Index_lt (by omega)
  have hi : p / c.g.spc % c.g.tableNelems < c.g.tableNelems :=
    mod_lt _ c.g.tableNelems_pos
  have htable : acb.l2Table.table s = e₀.table := by
    rw [hacb, L2Ref.table, hfind]
    rfl
  have hcount := countContiguousClusters_spec e₀.table (clustersOf_pos (g := c.g) (p := p) hlimit)
    (index_add_clustersOf_le (g := c.g) (p := p) (e := e) le_rfl)
  rw [findClusterCb]
  simp only [htable, c.g.offsetIntoCluster_sector, hn, c.g.l2Index_sector]
  generalize countContiguousClusters c.g e₀.table (p / c.g.spc % c.g.tableNelems)
    (c.g.clustersOf p (c.g.pieceLimit p e)) = m at hcount ⊢
  obtain ⟨hmpos, hmle, hrun⟩ := hcount
  have hmod := mod_lt p hspc
  have hmspc : c.g.spc ≤ m * c.g.spc := Nat.le_mul_of_pos_left _ hmpos
  have hlen : min (512 * c.g.pieceLimit p e)
      ((m * c.g.clusterSize % 2 ^ 32 + 2 ^ 64 - 512 * (p % c.g.spc)) % 2 ^ 64) =
        512 * min (c.g.pieceLimit p e) (m * c.g.spc - p % c.g.spc) := by
    have hlt : m * c.g.clusterSize < 2 ^ 32 := (Nat.mul_le_mul_right _ hmle).trans_lt hbytes
    have hm' : m * c.g.clusterSize = 512 * (m * c.g.spc) := by
      rw [c.g.clusterSize_eq]
      ring
    rw [mod_eq_of_lt hlt, hm']
    omega
  rw [hlen]
  set l := min (c.g.pieceLimit p e) (m * c.g.spc - p % c.g.spc) with hl
  have hp : p = c.g.spc * (p / c.g.spc) + p % c.g.spc :=
    (div_add_mod _ _).symm
  have haligned : p + l = e ∨ (p + l) % c.g.spc = 0 := by
    rcases min_choice (c.g.pieceLimit p e) (m * c.g.spc - p % c.g.spc) with h | h
    · rw [hl, h]
      rcases pieceLimit_end (g := c.g) hpe with h | h
      · exact .inl h
      · rw [h, ← Nat.mul_assoc, mul_mod_left]
        exact .inr rfl
    · refine .inr ?_
      have hend : p + l = c.g.spc * (p / c.g.spc) + m * c.g.spc := by
        rw [hl, h]
        omega
      rw [hend, mul_add_mod, mul_mod_left]
  set v := e₀.table (p / c.g.spc % c.g.tableNelems)
  have hfound : ∀ kind, kind ≠ .l1 → (kind = .found → v ≠ 0 ∧ v ≠ 1) →
      (∀ k, (if v = 0 ∨ v = 1 then v else v + k * c.g.clusterSize) = kind.entry c.g v k) →
      (∀ k < m, e₀.table (p / c.g.spc % c.g.tableNelems + k) = kind.entry c.g v k) ∧
        kind ≠ .l1 ∧ Found c s f acb.l2Table p e kind v l m := by
    intro kind hkind hoffset hentry
    replace hentry := fun k hk => (hrun k hk).trans (hentry k)
    refine ⟨hentry, hkind, by omega, min_le_left _ _, haligned, by omega, ?_, fun k hk => ?_,
      fun h => absurd h hkind, fun _ => ⟨hne, hacb, e₀, hfind⟩, hoffset⟩
    · have := index_add_clustersOf_le (g := c.g) (p := p) (e := e) le_rfl
      omega
    · rw [← hentry k hk]
      exact .of_find hfind rfl
  by_cases h₀ : v = 0
  · rw [if_pos h₀]
    refine ⟨.l2, _, l, m, rfl, hfound .l2 nofun nofun fun k => ?_⟩
    rw [if_pos (.inl h₀), h₀]
    rfl
  by_cases h₁ : v = 1
  · rw [if_neg h₀, if_pos h₁]
    refine ⟨.zero, _, l, m, rfl, hfound .zero nofun nofun fun k => ?_⟩
    rw [if_pos (.inr h₁), h₁]
    rfl
  · obtain ⟨hdvd, howner⟩ := (hgood.seen _ hj _ hi _ (.of_find hfind rfl)).ok.allocated h₀ h₁
    have hcheck := hgood.owns.checkClusterOffset hdvd (by rw [howner]; exact nofun)
      (by rw [howner]; exact nofun)
    rw [if_neg h₀, if_neg h₁, if_pos hcheck]
    refine ⟨.found, _, l, m, rfl, hfound .found nofun (fun _ => ⟨h₀, h₁⟩) fun k => ?_⟩
    rw [if_neg (not_or.mpr ⟨h₀, h₁⟩)]
    rfl

end Find

/-! ## Runs -/

section Reach

variable {c : Context} {fails : Failures} {r : Run} {Q Q' : Run → Prop}

/-- The run gets to where `Q` holds. -/
def Reach (c : Context) (fails : Failures) (r : Run) (Q : Run → Prop) : Prop :=
  ∃ n, Q ((Run.step c fails)^[n] r)

lemma Reach.now (h : Q r) : Reach c fails r Q := ⟨0, h⟩

lemma Reach.step (h : Reach c fails (r.step c fails) Q) : Reach c fails r Q := by
  obtain ⟨n, h⟩ := h
  exact ⟨n + 1, h⟩

lemma Reach.mono (h : Reach c fails r Q) (hQ : ∀ r, Q r → Q' r) : Reach c fails r Q' := by
  obtain ⟨n, h⟩ := h
  exact ⟨n, hQ _ h⟩

variable {s : State} {f : File} {acb : Acb} {k : ℕ} {b : Bool}

/-- **An access** succeeds or fails. -/
lemma reach_access {op : Io} {next : Next}
    (hok : fails k op = none → Reach c fails
      (runOf (resume c s acb none next) (f.apply op) (k + 1) b) Q)
    (hfail : ∀ m, fails k op = some m →
      Reach c fails (runOf (resume c s acb (some .access) next) (f.fail m op) (k + 1) true) Q) :
    Reach c fails (runOf (s, acb, .access op next) f k b) Q := by
  refine Reach.step ?_
  rcases hfails : fails k op with _ | m
  · have hstep : (runOf (s, acb, .access op next) f k b).step c fails =
        runOf (resume c s acb none next) (f.apply op) (k + 1) b := by
      simp only [Run.step, runOf, hfails]
      rfl
    rw [hstep]
    exact hok hfails
  · have hstep : (runOf (s, acb, .access op next) f k b).step c fails =
        runOf (resume c s acb (some .access) next) (f.fail m op) (k + 1) true := by
      simp only [Run.step, runOf, hfails]
      rfl
    rw [hstep]
    exact hfail m hfails

/-- Where a request is when `qed_aio_next_io` is called. -/
structure AcbAt (acb : Acb) (start p e : ℕ) : Prop where
  pos : acb.curPos + acb.curLen = 512 * p
  offset : acb.qiovOffset + acb.curLen = 512 * (p - start)
  endPos : acb.endPos = 512 * e

variable {owner : ℕ → Use} {P : ℕ → Set Sector} {start p e : ℕ}

/-- **The start of a piece**: `qed_aio_next_io` finds clusters. -/
lemma reach_findCluster (hgood : Good c owner P s f) (hacb : AcbAt acb start p e) (hpe : p < e)
    (himage : 512 * e ≤ c.g.imageSize) (hfits : Fits c.g (512 * p) (512 * (e - p)))
    (hnext : ∀ s' l2Table kind offset l m, Recached c f s s' →
      Found c s' f l2Table p e kind offset l m →
      Reach c fails (runOf (ioFn c s' { acb with
        qiovOffset := 512 * (p - start), curPos := 512 * p, curLen := 0, l2Table := l2Table }
        (.ok kind) offset (512 * l)) f k b) Q) :
    Reach c fails (runOf (nextIo c s acb none) f k b) Q := by
  have hend : ¬ 512 * e ≤ 512 * p := by omega
  have hnextIo : nextIo c s acb none = findCluster c s { acb with
      qiovOffset := 512 * (p - start), curPos := 512 * p, curLen := 0 } (512 * p)
        (512 * e - 512 * p) := by
    rw [nextIo]
    simp only [hacb.pos, hacb.offset, hacb.endPos, if_neg hend]
  have hj : p / c.g.spc / c.g.tableNelems < c.g.tableNelems := c.g.l1Index_lt (by omega)
  rw [hnextIo, findCluster]
  simp only [pieceLimit_bytes, c.g.l1Index_sector]
  by_cases hzero : s.l1Table (p / c.g.spc / c.g.tableNelems) = 0
  · rw [if_pos hzero]
    refine hnext s acb.l2Table .l1 0 _ (c.g.clustersOf p (c.g.pieceLimit p e)) .refl ?_
    refine ⟨pieceLimit_pos hpe, le_rfl, ?_, le_clustersOf_mul _, index_add_clustersOf_le le_rfl, ?_,
      fun _ => hzero, fun h => absurd rfl h, nofun⟩
    · rcases pieceLimit_end (g := c.g) hpe with h | h
      · exact .inl h
      · rw [h, ← Nat.mul_assoc, mul_mod_left]
        exact .inr rfl
    · exact fun _ _ => .absent (hgood.absent hj hzero)
  have hcheck := hgood.owns.checkTableOffset ((hgood.l1 _ hj).owned hzero) nofun nofun
  rw [if_neg hzero, if_neg (by rw [hcheck]; exact nofun)]
  have hunref := recached_unref (c := c) (f := f) (s := s) acb.l2Table
  generalize unrefL2 s acb.l2Table = s₁ at hunref ⊢
  rw [← hunref.l1Table] at hzero ⊢
  -- with the table in the cache, the clusters are found at once
  have hcb : ∀ s₂ e₀, Recached c f s₁ s₂ →
      L2Cache.find s₂.l2Cache (s₁.l1Table (p / c.g.spc / c.g.tableNelems)) = some e₀ →
      Reach c fails (runOf (findClusterCb c s₂ { acb with
        qiovOffset := 512 * (p - start), curPos := 512 * p, curLen := 0,
        l2Table := .cached (s₁.l1Table (p / c.g.spc / c.g.tableNelems)) }
        (512 * p) (512 * c.g.pieceLimit p e)) f k b) Q := by
    intro s₂ e₀ hs₂ hfind
    have hs := hunref.trans hs₂
    rw [← hs₂.l1Table] at hzero hfind ⊢
    obtain ⟨kind, offset, l, m, heq, _, _, hfound⟩ := findClusterCb_found { acb with
        qiovOffset := 512 * (p - start), curPos := 512 * p, curLen := 0,
        l2Table := .cached (s₂.l1Table (p / c.g.spc / c.g.tableNelems)) }
      (hs.good hgood) hpe himage hfits hzero rfl hfind
    rw [heq]
    exact hnext s₂ _ kind offset l m hs hfound
  rcases hfind : L2Cache.find s₁.l2Cache
      (s₁.l1Table (p / c.g.spc / c.g.tableNelems)) with _ | e₀
  · refine Reach.step ?_
    have hcommit := recached_commit (c := c) (f := f) _ hj hzero fun _ _ => rfl
    obtain ⟨e₀, he₀⟩ := L2Cache.find_commit s₁.l2Cache
      ⟨s₁.l1Table (p / c.g.spc / c.g.tableNelems),
        f.table (s₁.l1Table (p / c.g.spc / c.g.tableNelems)), 1⟩
    obtain ⟨e₁, he₁⟩ := L2Cache.find_ref he₀
    exact hcb _ e₁ (hcommit.trans (recached_ref _)) he₁
  · obtain ⟨e₁, he₁⟩ := L2Cache.find_ref hfind
    exact hcb _ e₁ (recached_ref _) he₁

end Reach

end Qemu.Qed
