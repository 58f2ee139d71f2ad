import Qemu.Qed.Update

/-!
# Pieces of a write request

A piece of a write request goes to clusters that are there, or to new ones whose untouched parts are
filled from the backing file.

Until the tables name the new clusters nobody reads them, so an error on the way there leaves the
contents of the image as they were.

**Main results:**
* `reach_writeInplace` — clusters that are there.
* `reach_writeAlloc` — new clusters, or clusters of zeroes.
* `reach_writePiece` — any piece.
-/

namespace Qemu.Qed

open File Nat

section Write

variable {c : Context} {fails : Failures} {owner : ℕ → Use} {P : ℕ → Set Sector} {d : ℕ → Sector}
  {start p e l m offset : ℕ} {s : State} {f f' : File} {acb : Acb} {kind : ClusterKind}
  {k : ℕ} {b : Bool}
  {Q : Run → Prop}

/-- What a write request has in its buffer. -/
structure WriteAcb (acb : Acb) (d : ℕ → Sector) (start : ℕ) : Prop where
  write : acb.write = true
  data : ∀ q, start ≤ q → (if acb.zero then zeroSector else acb.qiov (q - start)) = d q

variable {g : Geometry} {i o size : ℕ} {zero : Bool}

lemma runSector (hdvd : g.clusterSize ∣ offset) (t : ℕ) :
    (offset / 512 + (p % g.spc + t)) / g.spc =
        offset / g.clusterSize + ((p + t) / g.spc - p / g.spc) ∧
      (offset / 512 + (p % g.spc + t)) % g.spc = (p + t) % g.spc := by
  have hp := div_add_mod p g.spc
  have hpt : p + t = g.spc * (p / g.spc) + (p % g.spc + t) := by omega
  constructor
  · rw [div_spc hdvd, hpt, mul_add_div g.spc_pos, Nat.add_sub_cancel_left]
  · obtain ⟨i, rfl⟩ := hdvd
    rw [g.clusterSize_eq, Nat.mul_assoc, Nat.mul_div_cancel_left _ (by omega), mul_add_mod, hpt,
      mul_add_mod]

lemma cluster_eq (i : ℕ) :
    p / g.spc / g.tableNelems * g.tableNelems + (p / g.spc % g.tableNelems + i) =
      p / g.spc + i := by
  have := div_add_mod' (p / g.spc) g.tableNelems
  omega

lemma Found.owned {l2Table : L2Ref} (h : Found c s f l2Table p e .found offset l m)
    (hgood : Good c owner P s f) (himage : 512 * e ≤ c.g.imageSize) :
    c.g.clusterSize ∣ offset ∧
      ∀ i < m, owner (offset / c.g.clusterSize + i) = .data (p / c.g.spc + i) := by
  have hpos := c.g.clusterSize_pos
  have hj := h.l1Index_lt himage
  obtain ⟨h₀, h₁⟩ := h.allocated rfl
  have hentry : ∀ i < m, c.g.clusterSize ∣ offset + i * c.g.clusterSize ∧
      owner ((offset + i * c.g.clusterSize) / c.g.clusterSize) = .data (p / c.g.spc + i) := by
    intro i hi
    have hok := (hgood.seen _ hj _ (by have := h.inTable; omega) _ (h.version i hi)).ok
    rw [cluster_eq] at hok
    obtain ⟨hzero, hone⟩ := run_ne (g := c.g) (i := i) h₀ h₁
    exact hok.allocated hzero hone
  have hm : 0 < m := by
    have := h.clusters
    have := h.pos
    rcases Nat.eq_zero_or_pos m with rfl | hm
    · omega
    · exact hm
  refine ⟨?_, fun i hi => ?_⟩
  · have := (hentry 0 hm).1
    rwa [Nat.zero_mul, Nat.add_zero] at this
  · rw [← (hentry i hi).2, add_mul_div_right _ _ hpos]

lemma writeMain_eq (hwrite : WriteAcb acb d start) (hacb : PieceAcb acb start p e l) :
    writeMain c s acb none = (s, acb, .access (.write .writeAio
      ((acb.curCluster + 512 * (p % c.g.spc)) / 512) l fun i => d (p + i))
      (if acb.findClusterRet = .found then .nextIo
        else if c.backing.isSome then .writeFlushBeforeL2Update else .writeL2UpdateCb)) := by
  rw [writeMain]
  simp only [hacb.pos, hacb.len, hacb.offset, c.g.offsetIntoCluster_sector,
    Nat.mul_div_cancel_left _ (show 0 < 512 by omega)]
  congr 4
  funext i
  rw [← hwrite.data (p + i) (by have := hacb.start_le; omega),
    show p + i - start = p - start + i by have := hacb.start_le; omega]

/-- **Clusters that are there.** -/
lemma reach_writeInplace (hpiece : Piece c owner P s f acb p e .found acb.curCluster l m)
    (hwrite : WriteAcb acb d start) (hacb : PieceAcb acb start p e l)
    (hcont : Continues c fails P d start p e l s f acb b Q) :
    Reach c fails (runOf (writeMain c s acb none) f k b) Q := by
  have hentry := hpiece.entry
  obtain ⟨hgood, hfound, hret, himage, hidle, hagrees⟩ := hpiece
  obtain ⟨hdvd, howned⟩ := hfound.owned hgood himage
  have hm := clustersOf_le hfound.clusters
  obtain ⟨first, hfirst⟩ : ∃ first, first = acb.curCluster / 512 + p % c.g.spc := ⟨_, rfl⟩
  have hsector : (acb.curCluster + 512 * (p % c.g.spc)) / 512 = first := by omega
  rw [writeMain_eq hwrite hacb, hret, if_pos rfl, hsector]
  -- a sector that is written belongs to a sector of the piece
  have hpiece : ∀ x, first ≤ x → x < first + l →
      ∃ t < l, x = acb.curCluster / 512 + (p % c.g.spc + t) ∧
        owner (x / c.g.spc) = .data ((p + t) / c.g.spc) ∧
          x % c.g.spc = (p + t) % c.g.spc := by
    intro x hlo hhi
    obtain ⟨t, rfl⟩ : ∃ t, x = acb.curCluster / 512 + (p % c.g.spc + t) :=
      ⟨x - first, by omega⟩
    have ht : t < l := by omega
    obtain ⟨hdiv, hmod⟩ := runSector (p := p) hdvd t
    obtain ⟨i, hi, hcluster⟩ := exists_cluster (g := c.g) (Nat.le_add_right p t)
      (Nat.add_lt_add_left ht p)
    refine ⟨t, ht, rfl, ?_, hmod⟩
    rw [hdiv, hcluster, Nat.add_sub_cancel_left]
    exact howned i (by omega)
  have hwrites : ∀ n, n ≤ l →
      Keeps c.g owner (fun u => ∀ cluster, u ≠ .data cluster) f
        (f.write first n fun i => d (p + i)) ∧
      Good c owner (widen P d p (p + l)) s (f.write first n fun i => d (p + i)) := by
    intro n hn
    refine ⟨fun x hx => sectors_write fun hrange => ?_, ?_⟩
    · obtain ⟨t, _, _, hown, _⟩ := hpiece x hrange.1 (by omega)
      exact hx _ hown
    refine (hgood.mono subset_widen).writeData (length_le_write _ _ _) fun x => ?_
    by_cases hrange : first ≤ x ∧ x < first + n
    · obtain ⟨t, ht, rfl, hown, hmod⟩ := hpiece x hrange.1 (by omega)
      refine .inr (.inr ⟨_, hown, fun q hq hq' => ?_⟩)
      have hqt : q = p + t := by
        rw [← div_add_mod q c.g.spc, hq, hq', hmod, div_add_mod]
      rw [write]
      simp only [if_pos hrange]
      rw [show acb.curCluster / 512 + (p % c.g.spc + t) - first = t by omega, hqt, widen,
        if_pos (by omega)]
      exact Set.mem_insert _ _
    · exact .inl (sectors_write hrange)
  refine reach_access (fun _ => ?_) fun m' _ => ?_
  · obtain ⟨hf, hgood'⟩ := hwrites l le_rfl
    have hagrees' := agrees_writeData hgood hf (by simp) (by simp)
    refine hcont.next s _ acb _ ⟨rfl, rfl, rfl, rfl⟩ hacb.done hidle ⟨⟨owner, ?_⟩, le_rfl,
      fun cluster hcl h => (hagrees' cluster hcl h).1,
      fun cluster hcl _ h => (hagrees' cluster hcl h).2⟩
    refine hgood'.assign_of_agrees (v := fun i => acb.curCluster + i * c.g.clusterSize)
      (fun i hi => ?_)
      (fun i hi => ?_) ?_
    · exact (hagrees' _ (hentry i hi).1 (hagrees i hi)).1
    · exact (hagrees' _ (hentry i hi).1 (hagrees i hi)).2.trans (hentry i hi).2
    · intro i hi q hq hp hl
      obtain ⟨h₀, h₁⟩ := hfound.allocated rfl
      have hq' := div_add_mod q c.g.spc
      have hp' := div_add_mod p c.g.spc
      rw [hq, Nat.mul_add, Nat.mul_comm _ i] at hq'
      rw [entryView_run h₀ h₁, write]
      simp only
      rw [if_pos (by omega)]
      exact congrArg d (by omega)
  · exact hcont.fail _ (.of_good rfl rfl rfl (hwrites _ (min_le_right _ _)).2 hfound.end_le hidle)

/-! ## New clusters -/

/-- The tables in memory are the same. -/
structure SameTables (s s' : State) : Prop where
  l1Table : s'.l1Table = s.l1Table
  l2Cache : s'.l2Cache = s.l2Cache

variable {s' : State}

lemma SameTables.version (h : SameTables s s') {j v : ℕ} (hv : Version c s f j i v) :
    Version c s' f j i v := by
  cases hv with
  | absent habsent => exact .absent habsent
  | file hne =>
    rw [← h.l1Table] at hne ⊢
    exact .file hne
  | cached he hoffset => exact .cached (h.l2Cache ▸ he) (hoffset.trans (by rw [h.l1Table]))

lemma SameTables.agrees (h : SameTables s s') {cluster : ℕ} (ha : Agrees c s f cluster) :
    Agrees c s' f cluster where
  l1 := by rw [h.l1Table, ha.l1]
  cached e he hoffset := ha.cached e (h.l2Cache ▸ he) (by rw [hoffset, h.l1Table])

lemma SameTables.good (h : SameTables s s') (hgood : Good c owner P s f)
    (hsize : s.fileSize ≤ s'.fileSize) (hdvd : c.g.clusterSize ∣ s'.fileSize) :
    Good c owner P s' f :=
  hgood.recache h.l1Table (fun e he => .inl ⟨e, h.l2Cache ▸ he, rfl, rfl⟩) hsize hdvd

/-- What has been found stays there when only data is written. -/
lemma Found.transfer {l2Table : L2Ref} (h : Found c s f l2Table p e kind o l m)
    (hs : SameTables s s') (hgood : Good c owner P s' f') (himage : 512 * e ≤ c.g.imageSize)
    (hf : Keeps c.g owner (· ≠ .free) f f') :
    Found c s' f' l2Table p e kind o l m :=
  { h with
    version := fun i hi => (hs.version (h.version i hi)).congr hgood (h.l1Index_lt himage)
      (by have := h.inTable; omega) (U := (· ≠ .free)) (fun x hx => (hf x hx).symm) nofun nofun
    l1 := fun hkind => by
      rw [hs.l1Table]
      exact h.l1 hkind
    l2 := fun hkind => by
      rw [hs.l1Table, hs.l2Cache]
      exact h.l2 hkind }

/-- The parts of the clusters of a piece that it does not write. -/
def Untouched (c : Context) (f : File) (zero : Bool) (p l : ℕ) : Prop :=
  ∀ i < c.g.clustersOf p l, ∀ q, q / c.g.spc = p / c.g.spc + i →
    ¬ (p ≤ q ∧ q < p + l) →
      zero = true ∨ fileEntry c f (p / c.g.spc + i) = 1 → c.backingSector q = zeroSector

lemma reach_writeL2Update (hpiece : Piece c owner P s f acb p e kind o l m)
    (hready : Ready c owner P d p l offset f) (hacb : PieceAcb acb start p e l)
    (hnclusters : acb.curNclusters = c.g.clustersOf p l)
    (hcont : Continues c fails P d start p e l s f acb b Q) :
    Reach c fails (runOf (writeL2Update c s acb none offset) f k b) Q := by
  by_cases hkind : kind = .l1
  · subst hkind
    exact reach_newL2 hpiece hready hacb hnclusters hcont
  · exact reach_updateL2 hpiece hready hkind hacb hnclusters hcont

lemma Piece.backingSector_mem {q : ℕ} (hpiece : Piece c owner P s f acb p e kind o l m)
    (hkind : kind ≠ .found) (huntouched : Untouched c f zero p l) (hi : i < c.g.clustersOf p l)
    (hq : q / c.g.spc = p / c.g.spc + i) (hout : ¬ (p ≤ q ∧ q < p + l)) :
    c.backingSector q ∈ P q := by
  have hentry := hpiece.entry i hi
  obtain ⟨hgood, h, _, himage, -, -⟩ := hpiece
  have hm := clustersOf_le h.clusters
  have hv := h.version i (by omega)
  have hview := (hgood.seen _ (h.l1Index_lt himage) _ (by have := h.inTable; omega) _ hv).view q
    (by rw [cluster_eq, hq])
  cases kind with
  | found => exact absurd rfl hkind
  | l1 => exact hview
  | l2 => exact hview
  | zero =>
    rw [huntouched i hi q hq hout (.inr hentry.2)]
    exact hview

lemma Piece.ready_zero (h : Piece c owner P s f acb p e kind o l m) (hkind : kind ≠ .found)
    (huntouched : Untouched c f true p l) (hd : ∀ q, p ≤ q → d q = zeroSector) :
    Ready c owner P d p l 1 f where
  seen i hi := by
    refine ⟨.inr (.inl rfl), fun q hq => ?_⟩
    show zeroSector ∈ widen P d p (p + l) q
    rw [widen]
    split_ifs with hrange
    · rw [hd q hrange.1]
      exact Set.mem_insert _ _
    · rw [← huntouched i hi q hq hrange (.inl rfl)]
      exact h.backingSector_mem hkind huntouched hi hq hrange
  data i _ q _ hp _ := (hd q hp).symm

/-- New clusters that have been filled: the data, between sectors of the backing file. -/
structure Filled (c : Context) (d : ℕ → Sector) (p l offset : ℕ) (f : File) : Prop where
  sectors : ∀ y < c.g.clustersOf p l * c.g.spc, f.sectors (offset / 512 + y) =
    let q := p / c.g.spc * c.g.spc + y
    if p ≤ q ∧ q < p + l then d q else c.backingSector q
  length : offset / 512 + c.g.clustersOf p l * c.g.spc ≤ f.length

/-- The sectors behind a piece, to the end of its last cluster. -/
lemma postfill_sectors (p l : ℕ) :
    c.g.startOfCluster (512 * p + 512 * l + c.g.clusterSize - 1) - (512 * p + 512 * l) =
      512 * (c.g.clustersOf p l * c.g.spc - (p % c.g.spc + l)) := by
  have hpos := c.g.clusterSize_pos
  have hp := div_add_mod p c.g.spc
  have hround : p + l + (c.g.spc - 1) = c.g.spc * (p / c.g.spc) +
      (p % c.g.spc + l + (c.g.spc - 1)) := by omega
  rw [Geometry.startOfCluster, ← Nat.mul_add, Nat.add_sub_assoc hpos, div_clusterSize_round, hround,
    mul_add_div c.g.spc_pos, ← Geometry.clustersOf, c.g.clusterSize_eq, Nat.mul_left_comm,
    ← Nat.mul_sub, Nat.add_mul, Nat.mul_comm (p / _)]
  congr 1
  omega

lemma write_congr {sector n : ℕ} {data data' : ℕ → Sector} (h : ∀ i < n, data i = data' i) :
    f.write sector n data = f.write sector n data' := by
  rw [write, write]
  congr 1
  funext x
  split_ifs with hx
  · exact h _ (by omega)
  · rfl

lemma write_none {sector : ℕ} {data : ℕ → Sector} : f.write sector 0 data = f := by
  rw [write]
  congr 1
  funext x
  exact if_neg (by omega)

/-- **Copying** from the backing file. -/
lemma reach_copyFromBackingFile {x a n : ℕ} {cb : State → Acb → Option Errno → State × Acb × Action}
    {next : Next} (hcb : resume c s acb none next = cb s acb none)
    (hfail : ∀ m data, Reach c fails
      (runOf (resume c s acb (some .access) next) (f.write x m data) (k + 1) true) Q)
    (hok : ∀ k', Reach c fails (runOf (cb s acb none)
      (f.write x n fun i => c.backingSector (a + i)) k' b) Q) :
    Reach c fails
      (runOf (copyFromBackingFile c s acb (512 * a) (512 * n) (512 * x) cb next) f k b) Q := by
  rw [copyFromBackingFile]
  split_ifs with hzero
  · obtain rfl : n = 0 := by omega
    have hok' := hok k
    rwa [write_none] at hok'
  · simp only [Nat.mul_div_cancel_left _ (show 0 < 512 by omega)]
    refine reach_access (fun _ => ?_) fun m _ => hfail _ _
    rw [hcb, apply, write_congr fun i hi => readBackingFile_sector hi]
    exact hok (k + 1)

/-- New clusters, from sector `x` on, with what the backing file has before and behind a piece. -/
def surround (c : Context) (p l x : ℕ) (f : File) : File :=
  (f.write x (p % c.g.spc)
      fun i => c.backingSector (p / c.g.spc * c.g.spc + i)).write
    (x + (p % c.g.spc + l))
    (c.g.clustersOf p l * c.g.spc - (p % c.g.spc + l))
    fun i => c.backingSector (p + l + i)

lemma filled_write {x : ℕ} (hoffset : offset = 512 * x) (hl : 0 < l) : Filled c d p l offset
      ((surround c p l x f).write (x + p % c.g.spc) l fun i => d (p + i)) := by
  have hp := div_add_mod' p c.g.spc
  have hx : offset / 512 = x := by rw [hoffset, Nat.mul_div_cancel_left _ (by omega)]
  constructor
  · intro y hy
    rw [hx]
    simp only [surround, write]
    by_cases hdata : p % c.g.spc ≤ y ∧ y < p % c.g.spc + l
    · rw [if_pos (by omega), if_pos (by omega)]
      exact congrArg d (by omega)
    rw [if_neg (by omega), if_neg (by omega : ¬ (p ≤ _ ∧ _ < p + l))]
    by_cases hpost : p % c.g.spc + l ≤ y
    · rw [if_pos (by omega)]
      exact congrArg c.backingSector (by omega)
    · rw [if_neg (by omega), if_pos (by omega)]
      exact congrArg c.backingSector (by omega)
  · rw [hx]
    simp only [surround, write]
    split_ifs <;> omega

lemma Filled.ready {owner' : ℕ → Use} (h : Filled c d p l offset f)
    (hdvd : c.g.clusterSize ∣ offset) (hoffset : offset ≠ 0)
    (howner : ∀ i < c.g.clustersOf p l, owner' (offset / c.g.clusterSize + i) =
      .data (p / c.g.spc + i))
    (hbacking : ∀ i < c.g.clustersOf p l, ∀ q, q / c.g.spc = p / c.g.spc + i →
      ¬ (p ≤ q ∧ q < p + l) → c.backingSector q ∈ P q) :
    Ready c owner' P d p l offset f := by
  have hpos := c.g.clusterSize_pos
  have hspc := c.g.clusterSize_eq
  have hge : c.g.clusterSize ≤ offset := le_of_dvd (by omega) hdvd
  have hone : offset ≠ 1 := by
    have := c.g.eight_le_spc
    omega
  have hentry : ∀ i, newEntry c.g offset i = offset + i * c.g.clusterSize :=
    fun i => if_neg (by omega)
  have hview : ∀ i < c.g.clustersOf p l, ∀ q, q / c.g.spc = p / c.g.spc + i →
      entryView c f (newEntry c.g offset i) q = if p ≤ q ∧
      q < p + l then d q else c.backingSector q := by
    intro i hi q hq
    have hq' := div_add_mod' q c.g.spc
    have hmod := mod_lt q c.g.spc_pos
    have hi' : i * c.g.spc + c.g.spc ≤
        c.g.clustersOf p l * c.g.spc := by
      rw [← succ_mul]
      exact Nat.mul_le_mul_right _ hi
    have hsectors := h.sectors (i * c.g.spc + q % c.g.spc) (by omega)
    rw [hq, Nat.add_mul] at hq'
    simp only [← Nat.add_assoc, hq'] at hsectors
    rw [hentry, entryView_run hoffset hone, hsectors]
  refine ⟨fun i hi => ⟨.inr (.inr ?_), fun q hq => ?_⟩, fun i hi q hq hp hl => ?_⟩
  · rw [hentry, add_mul_div_right _ _ hpos]
    exact ⟨Dvd.dvd.add hdvd (Nat.dvd_mul_left _ _), howner i hi⟩
  · rw [hview i hi q hq, widen]
    split_ifs with hrange
    · exact Set.mem_insert _ _
    · exact hbacking i hi q hq hrange
  · rw [hview i hi q hq, if_pos ⟨hp, hl⟩]

/-- The failures whose errors reach the request: not of a data write behind the old end of a file
with a backing file, nor of the header write of an allocating write without one. -/
def Kept (c : Context) (fails : Failures) (zero : Bool) (size : ℕ) : Prop :=
  ∀ k op m, fails k op = some m →
    (∀ sector n data, op = .write .writeAio sector n data → c.backing.isSome = true →
      sector * 512 < size) ∧
      ∀ needCheck, op = .writeHeader needCheck → zero = true

lemma Kept.mono {size' : ℕ} (h : Kept c fails zero size) (hle : size ≤ size') :
    Kept c fails zero size' := fun k op m hfails =>
  ⟨fun sector n data hop hbacking => ((h k op m hfails).1 sector n data hop hbacking).trans_le hle,
    (h k op m hfails).2⟩

/-- **Filled clusters** are linked. -/
lemma reach_linkFilled (hpiece : Piece c owner P s f acb p e kind o l m)
    (hacb : PieceAcb acb start p e l) (hnclusters : acb.curNclusters = c.g.clustersOf p l)
    (hkind : kind ≠ .found) (huntouched : Untouched c f false p l) (howns : Owns c.g owner offset)
    (hsize : offset + c.g.clustersOf p l * c.g.clusterSize ≤ s.fileSize)
    (hfilled : Filled c d p l offset f') (hgood' : Good c owner P s f')
    (hf : ∀ x < offset / 512, f'.sectors x = f.sectors x)
    (hcont : Continues c fails P d start p e l s f acb b Q) :
    Reach c fails (runOf (writeL2Update c s acb none offset) f' k b) Q := by
  have hfound := hpiece.found
  have hf' : Keeps c.g owner (· ≠ .free) f f' := by
    intro x hx
    refine hf x ?_
    by_contra hge
    exact hx (howns.free_sector (by omega))
  have hagrees' := agrees_writeData hpiece.good hf' nofun nofun
  have hcluster := fun i hi => (hpiece.entry i hi).1
  -- the new clusters belong to the guest's clusters from now on
  obtain ⟨hkeep, hgood₁⟩ := hgood'.newUse (c.g.clustersOf p l)
    (fun i => .data (p / c.g.spc + i)) howns hsize hfilled.length fun _ => nofun
  have hnew : ∀ i < c.g.clustersOf p l, newUse c.g owner offset (c.g.clustersOf p l)
      (fun i => .data (p / c.g.spc + i)) (offset / c.g.clusterSize + i) =
        .data (p / c.g.spc + i) := by
    intro i hi
    rw [newUse, if_pos (by omega), Nat.add_sub_cancel_left]
  have hready := hfilled.ready (P := P) howns.fileSize_dvd howns.fileSize_pos.ne' hnew
    fun i hi q hq hout => hpiece.backingSector_mem hkind huntouched hi hq hout
  have hfound' := hfound.transfer ⟨rfl, rfl⟩ hgood' hpiece.image hf'
  refine reach_writeL2Update { hpiece with
    good := hgood₁, found := hfound', agrees := ?_ } hready hacb hnclusters
    (hcont.move ⟨rfl, rfl, rfl, rfl⟩ le_rfl hagrees')
  exact fun i hi => (hagrees' _ (hcluster i hi) (hpiece.agrees i hi)).1

/-- **New clusters** are filled and linked. -/
lemma reach_writePrefill {ret : Option Errno} (hpiece : Piece c owner P s f acb p e kind o l m)
    (hwrite : WriteAcb acb d start) (hacb : PieceAcb acb start p e l)
    (hnclusters : acb.curNclusters = c.g.clustersOf p l) (hkind : kind ≠ .found)
    (huntouched : Untouched c f false p l) (howns : Owns c.g owner acb.curCluster)
    (hsize : acb.curCluster + c.g.clustersOf p l * c.g.clusterSize ≤ s.fileSize)
    (hkept : Kept c fails false acb.curCluster)
    (hcont : Continues c fails P d start p e l s f acb b Q) :
    Reach c fails (runOf (writePrefill c s acb ret) f k b) Q := by
  have hgood := hpiece.good
  obtain ⟨x, hx⟩ : ∃ x, acb.curCluster = 512 * x := by
    obtain ⟨t, ht⟩ := howns.fileSize_dvd
    exact ⟨c.g.spc * t, by rw [ht, c.g.clusterSize_eq, Nat.mul_assoc]⟩
  have hdiv : acb.curCluster / 512 = x := by omega
  have hfailed : ∀ r : Run, r.s = s → r.acb.id = acb.id → r.failed = true →
      (∃ err, r.act = .complete (some err)) → Good c owner P r.s r.f → Reach c fails r Q := by
    rintro r rfl hid hfailed ⟨err, herr⟩ hgood
    exact hcont.fail r (.of_good herr hid hfailed
      (hgood.mono subset_widen) hpiece.found.end_le hpiece.idle)
  have hcluster : acb.curCluster / 512 ≤ x := hdiv.le
  rw [writePrefill, hacb.pos, c.g.startOfCluster_sector, c.g.offsetIntoCluster_sector, hx]
  refine reach_copyFromBackingFile rfl
    (fun m data => hfailed _ rfl rfl rfl ⟨_, rfl⟩ (hgood.writeFree _ _ _ howns hcluster))
      fun k₁ => ?_
  have hpost : acb.curCluster + c.g.offsetIntoCluster (512 * p) + 512 * l =
      512 * (x + (p % c.g.spc + l)) := by
    rw [c.g.offsetIntoCluster_sector, hx]
    ring
  rw [writePostfill]
  simp only [hacb.pos, hacb.len, postfill_sectors, hpost]
  rw [← Nat.mul_add]
  refine reach_copyFromBackingFile rfl (fun m data => hfailed _ rfl rfl rfl ⟨_, rfl⟩
      ((hgood.writeFree _ _ _ howns hcluster).writeFree _ _ _ howns (by omega))) fun k₂ => ?_
  rw [← surround]
  have hfilled := filled_write (f := f) (d := d) (p := p) (c := c) hx hpiece.found.pos
  have hsector : (acb.curCluster + 512 * (p % c.g.spc)) / 512 =
      x + p % c.g.spc := by
    omega
  have hgood₃ : ∀ n, Good c owner P s
      ((surround c p l x f).write (x + p % c.g.spc) n fun i => d (p + i)) := fun n =>
    ((hgood.writeFree _ _ _ howns hcluster).writeFree _ _ _ howns (by omega)).writeFree
      _ _ _ howns (by omega)
  have hlink : ∀ k', Reach c fails (runOf (writeL2Update c s acb none acb.curCluster)
      ((surround c p l x f).write (x + p % c.g.spc) l fun i => d (p + i)) k' b) Q := fun k' => by
    refine reach_linkFilled hpiece hacb hnclusters hkind huntouched howns hsize hfilled (hgood₃ l)
      (fun y hy => ?_) hcont
    rw [surround, sectors_write (by omega), sectors_write (by omega), sectors_write (by omega)]
  rw [writeMain_eq hwrite hacb, hpiece.ret, if_neg hkind, hsector]
  by_cases hbacking : c.backing.isSome = true
  · rw [if_pos hbacking]
    refine reach_access (fun _ => ?_) fun m' hfails => ?_
    · exact reach_access (fun _ => hlink _) fun m' _ => hfailed _ rfl rfl rfl ⟨_, rfl⟩ (hgood₃ l)
    · have hlt := (hkept _ _ _ hfails).1 _ _ _ rfl hbacking
      omega
  · rw [if_neg hbacking]
    exact reach_access (fun _ => hlink _) fun m' _ => hfailed _ rfl rfl rfl ⟨_, rfl⟩ (hgood₃ _)

/-! ## Allocating writes -/

/-- The tables in memory and the sectors of the file are the same. -/
structure SameImage (s s' : State) (f f' : File) : Prop extends SameTables s s' where
  sectors : f'.sectors = f.sectors
  length : f'.length = f.length

lemma SameImage.table (h : SameImage s s' f f') : f'.table = f.table := by
  funext offset i
  rw [File.table, File.table, h.sectors]

lemma SameImage.good (h : SameImage s s' f f') (hgood : Good c owner P s f)
    (hsize : s.fileSize ≤ s'.fileSize) (hdvd : c.g.clusterSize ∣ s'.fileSize) :
    Good c owner P s' f' :=
  (h.toSameTables.good hgood hsize hdvd).writeData h.length.ge fun x => .inl (congrFun h.sectors x)

lemma SameImage.fileEntry (h : SameImage s s' f f') (cluster : ℕ) :
    fileEntry c f' cluster = fileEntry c f cluster := by
  rw [Qed.fileEntry, Qed.fileEntry, h.table]

lemma SameImage.agrees (h : SameImage s s' f f') {cluster : ℕ} (ha : Agrees c s f cluster) :
    Agrees c s' f' cluster := by
  have ha' := h.toSameTables.agrees ha
  exact ⟨h.table ▸ ha'.l1, h.table ▸ ha'.cached⟩

lemma SameImage.untouched (h : SameImage s s' f f') (hu : Untouched c f zero p l) :
    Untouched c f' zero p l := by
  intro i hi q hq hout hzero
  rw [h.fileEntry] at hzero
  exact hu i hi q hq hout hzero

/-- The request is the first of the queue from now on. -/
lemma writeAlloc_eq (hidle : Idle s acb.id) (len : ℕ) :
    ∃ s₁, SameTables s s₁ ∧ s₁.fileSize = s.fileSize ∧ Idle s₁ acb.id ∧
      s₁.allocatingWriteReqs ≠ [] ∧
      s₁.allocatingWriteReqs.head? = some acb.id ∧
        writeAlloc c s acb len = writeAlloc c s₁ acb len := by
  obtain ⟨hplugged, hqueue | hqueue⟩ := hidle
  · refine ⟨{ s with timer := false, allocatingWriteReqs := [acb.id] }, ⟨rfl, rfl⟩, rfl,
      ⟨hplugged, .inr rfl⟩, nofun, rfl, ?_⟩
    simp [writeAlloc, hqueue]
  · exact ⟨s, ⟨rfl, rfl⟩, rfl, ⟨hplugged, .inr hqueue⟩, by simp [hqueue], by simp [hqueue], rfl⟩

/-- **A piece that is not there**, or is of zeroes. -/
lemma reach_writeAlloc (hpiece : Piece c owner P s f acb p e kind o l m)
    (hwrite : WriteAcb acb d start) (hacb : PieceAcb acb start p e 0) (hkind : kind ≠ .found)
    (hfits : Fits c.g (512 * p) (512 * (e - p))) (huntouched : Untouched c f acb.zero p l)
    (hkept : Kept c fails acb.zero size) (hsize : size ≤ s.fileSize)
    (hcont : Continues c fails P d start p e l s f acb b Q) :
    Reach c fails (runOf (writeAlloc c s acb (512 * l)) f k b) Q := by
  have hentry := hpiece.entry
  obtain ⟨hgood, hfound, hret, himage, hidle, hagrees⟩ := hpiece
  obtain ⟨hn, hbytes⟩ := hfits.piece hfound.le
  obtain ⟨s₁, htables, hsize₁, hidle₁, hqueue, hfirst, heq⟩ :=
    writeAlloc_eq (c := c) hidle (512 * l)
  rw [heq, writeAlloc]
  simp only [hqueue, hfirst, hacb.pos, c.g.offsetIntoCluster_sector, hn, allocClusters,
    mod_eq_of_lt hbytes, ne_eq, not_true, false_or, if_true, if_false]
  rw [if_neg (by simp [hidle₁.1])]
  let acb₁ : Acb := { acb with
      curPos := 512 * p, curNclusters := c.g.clustersOf p l, curLen := 512 * l }
  have hacb₁ : PieceAcb acb₁ start p e l := ⟨hacb.start_le, rfl, rfl, hacb.offset, hacb.endPos⟩
  have hcont' : ∀ s₂ f₂ acb₂, SameImage s s₂ f f₂ → s.fileSize ≤ s₂.fileSize →
      SameRequest acb acb₂ →
      Continues c fails P d start p e l s₂ f₂ acb₂ b Q := fun s₂ f₂ acb₂ himg hsize₂ hsame₂ =>
    hcont.move hsame₂ hsize₂ fun cluster _ h => ⟨himg.agrees h, himg.fileEntry cluster⟩
  have hpiece : ∀ s₂ f₂ acb₂, SameImage s s₂ f f₂ → Good c owner P s₂ f₂ → Idle s₂ acb₂.id →
      acb₂.l2Table = acb.l2Table → acb₂.findClusterRet = acb.findClusterRet →
      Piece c owner P s₂ f₂ acb₂ p e kind o l m := fun s₂ f₂ acb₂ himg hgood₂ hidle₂ htable hret₂ =>
    ⟨hgood₂, htable ▸ hfound.transfer himg.toSameTables hgood₂ himage fun x _ =>
      congrFun himg.sectors x, hret₂.trans hret, himage, hidle₂,
        fun i hi => himg.agrees (hagrees i hi)⟩
  by_cases hzero : acb.zero = true
  · have hd : ∀ q, p ≤ q → d q = zeroSector := by
      intro q hq
      have := hacb.start_le
      rw [← hwrite.data q (by omega), if_pos hzero]
    rw [if_pos hzero]
    -- from `qed_aio_write_zero_cluster` on
    have hlink : ∀ s₂ f₂ k₂, SameImage s s₂ f f₂ → s₂.fileSize = s.fileSize → Idle s₂ acb.id →
        Reach c fails (runOf (writeZeroCluster c s₂ acb₁ none) f₂ k₂ b) Q := by
      intro s₂ f₂ k₂ himg hsize₂ hidle₂
      have hgood₂ := himg.good hgood hsize₂.ge (hsize₂ ▸ hgood.owns.fileSize_dvd)
      have hpiece₂ := hpiece s₂ f₂ acb₁ himg hgood₂ hidle₂ rfl rfl
      exact reach_writeL2Update hpiece₂
        (hpiece₂.ready_zero hkind (himg.untouched (hzero ▸ huntouched)) hd)
        hacb₁ rfl (hcont' s₂ f₂ _ himg hsize₂.ge ⟨rfl, rfl, rfl, rfl⟩)
    split_ifs with hkind' hcheck
    · have himg : SameImage s s₁ f f := ⟨htables, rfl, rfl⟩
      have hgood₁ := himg.good hgood hsize₁.ge (hsize₁ ▸ hgood.owns.fileSize_dvd)
      refine Reach.step ?_
      refine (hcont' s₁ f acb himg hsize₁.ge ⟨rfl, rfl, rfl, rfl⟩).next s₁ f
        _ _ ⟨rfl, rfl, rfl, rfl⟩
        hacb₁.done hidle₁ ⟨⟨owner, ?_⟩, le_rfl, fun _ _ h => h, fun _ _ _ _ => rfl⟩
      refine (hgood₁.mono subset_widen).assign_of_agrees (v := fun _ => 1)
        (fun i hi => himg.agrees (hagrees i hi)) (fun i hi => ?_)
          fun i hi q hq hp _ => (hd q hp).symm
      have hone := (hentry i hi).2
      rwa [← hret, hkind'] at hone
    · refine reach_access (fun _ => ?_) fun m' _ => ?_
      · exact hlink _ _ _ ⟨⟨htables.l1Table, htables.l2Cache⟩, rfl, rfl⟩ hsize₁ hidle₁
      have himg : SameImage s { s₁ with needCheck := true } f (f.fail m' (.writeHeader true)) := by
        refine ⟨⟨htables.l1Table, htables.l2Cache⟩, ?_, ?_⟩
        · rw [fail]
          split_ifs <;> rfl
        · rw [fail]
          split_ifs <;> rfl
      refine hcont.fail _ (.of_good rfl rfl rfl ((himg.good hgood hsize₁.ge ?_).mono subset_widen)
        hfound.end_le hidle₁)
      exact hsize₁ ▸ hgood.owns.fileSize_dvd
    · exact hlink _ _ _ ⟨htables, rfl, rfl⟩ hsize₁ hidle₁
  · rw [if_neg hzero]
    rw [Bool.not_eq_true] at hzero
    have hlink : ∀ s₂ f₂ k₂, SameImage s s₂ f f₂ →
        s₂.fileSize = s.fileSize + c.g.clustersOf p l * c.g.clusterSize → Idle s₂ acb.id →
        Reach c fails (runOf (writePrefill c s₂ { acb₁ with curCluster := s₁.fileSize } none)
          f₂ k₂ b) Q := by
      intro s₂ f₂ k₂ himg hsize₂ hidle₂
      have hgrow : s.fileSize ≤ s₂.fileSize := by omega
      have hgood₂ := himg.good hgood hgrow (by
        rw [hsize₂]
        exact Dvd.dvd.add hgood.owns.fileSize_dvd (Nat.dvd_mul_left _ _))
      exact reach_writePrefill (hpiece s₂ f₂ _ himg hgood₂ hidle₂ rfl rfl)
        ⟨hwrite.write, hwrite.data⟩
        ⟨hacb.start_le, rfl, rfl, hacb.offset, hacb.endPos⟩ rfl hkind
          (himg.untouched (hzero ▸ huntouched))
        (hsize₁ ▸ hgood.owns) (hsize₁ ▸ hsize₂.ge) (Kept.mono (hzero ▸ hkept) (hsize₁ ▸ hsize))
        (hcont' s₂ f₂ _ himg hgrow ⟨rfl, rfl, rfl, rfl⟩)
    split_ifs with hcheck
    · refine reach_access (fun _ => ?_) fun m' hfails => ?_
      · exact hlink _ _ _ ⟨⟨htables.l1Table, htables.l2Cache⟩, rfl, rfl⟩ (by rw [hsize₁]) hidle₁
      · have := (hkept _ _ _ hfails).2 _ rfl
        rw [hzero] at this
        cases this
    · exact hlink _ _ _ ⟨⟨htables.l1Table, htables.l2Cache⟩, rfl, rfl⟩ (by rw [hsize₁]) hidle₁

/-! ## Any piece -/

/-- For a write from `p` to `e`, the tables in memory are those of the file, and where the first and
last clusters are filled up, the backing file has what the guest sees. -/
structure Relies (c : Context) (s : State) (f : File) (zero : Bool) (p e : ℕ) : Prop where
  agrees : ∀ cluster, p / c.g.spc ≤ cluster → cluster * c.g.spc < e →
    Agrees c s f cluster
  edges : ∀ q, q < p ∧ q / c.g.spc = p / c.g.spc ∨
      e ≤ q ∧ q / c.g.spc = (e - 1) / c.g.spc →
    zero = true ∨ fileEntry c f (q / c.g.spc) = 1 → c.backingSector q = zeroSector

/-- The clusters of a piece do not go beyond its last sector. -/
lemma cluster_lt_end (hi : i < g.clustersOf p l) :
    (p / g.spc + i) * g.spc < p + l := by
  by_contra hge
  exact not_touched (g := g) (Nat.le_of_not_lt hge) hi rfl

lemma Relies.piece_agrees (h : Relies c s f zero p e) (hle : p + l ≤ e) :
    ∀ i < c.g.clustersOf p l, Agrees c s f (p / c.g.spc + i) := fun i hi => by
  refine h.agrees _ (Nat.le_add_right _ _) ?_
  have := cluster_lt_end hi
  omega

lemma Relies.untouched (h : Relies c s f zero p e)
    (haligned : p + l = e ∨ (p + l) % c.g.spc = 0) : Untouched c f zero p l := by
  intro i hi q hq hout hzero
  have hpos := c.g.spc_pos
  have hlt := cluster_lt_end hi
  rw [← hq] at hzero hlt
  refine h.edges q ?_ hzero
  by_cases hqp : q < p
  · refine .inl ⟨hqp, ?_⟩
    have := Nat.div_le_div_right (c := c.g.spc) hqp.le
    omega
  have hge : p + l ≤ q := by omega
  have hq' := div_add_mod' q c.g.spc
  have hmod := mod_lt q hpos
  rcases haligned with hend | haligned
  · refine .inr ⟨by omega, ?_⟩
    refine ((Nat.div_eq_iff hpos).mpr ⟨?_, ?_⟩).symm <;> omega
  obtain ⟨t, ht⟩ := dvd_of_mod_eq_zero haligned
  rw [ht, Nat.mul_comm] at hge
  have := (Nat.le_div_iff_mul_le hpos).mpr hge
  have := Nat.mul_le_mul_right c.g.spc this
  rw [ht, Nat.mul_comm c.g.spc] at hlt
  omega

/-- **A piece of a write request.** -/
lemma reach_writePiece (hgood : Good c owner P s f) (hwrite : WriteAcb acb d start)
    (hacb : AcbAt acb start p e) (hstart : start ≤ p) (hpe : p < e)
    (hfits : Fits c.g (512 * p) (512 * (e - p))) (himage : 512 * e ≤ c.g.imageSize)
    (hidle : Idle s acb.id) (hrelies : Relies c s f acb.zero p e)
    (hkept : Kept c fails acb.zero size) (hsize : size ≤ s.fileSize)
    (hfail : ∀ r, Failed c P d p e acb.id r → Reach c fails r Q)
    (hnext : ∀ l s' f' acb' k', 0 < l → p + l ≤ e → (p + l = e ∨ (p + l) % c.g.spc = 0) →
      SameRequest acb acb' → AcbAt acb' start (p + l) e → Idle s' acb.id →
        Written c P d p l s f s' f' →
      Reach c fails (runOf (nextIo c s' acb' none) f' k' b) Q) :
    Reach c fails (runOf (nextIo c s acb none) f k b) Q := by
  refine reach_findCluster hgood hacb hpe himage hfits
    fun s₁ l2Table kind offset l m hrecached hfound => ?_
  have hle := hfound.end_le
  have hgood₁ := hrecached.good hgood
  have hidle₁ := hrecached.idle hidle
  have hagrees₁ : ∀ i < c.g.clustersOf p l, Agrees c s₁ f (p / c.g.spc + i) := fun i hi =>
    hrecached.agrees (hrelies.piece_agrees hle i hi)
  have hcont : ∀ acb₁, SameRequest acb acb₁ → Continues c fails P d start p e l s₁ f acb₁ b Q := by
    refine fun acb₁ hsame₁ => ⟨hsame₁.id ▸ hfail, fun s' f' acb' k' hsame hat hidle' hwritten => ?_⟩
    refine hnext l s' f' acb' k' hfound.pos hle hfound.aligned (hsame₁.trans hsame) hat
      (hsame₁.id ▸ hidle') ?_
    exact hwritten.of_sameEntries hrecached.fileSize.ge fun cluster _ h => ⟨hrecached.agrees h, rfl⟩
  rw [ioFn, if_pos hwrite.write]
  have halloc : kind ≠ .found → Reach c fails (runOf (writeAlloc c s₁ { acb with
      qiovOffset := 512 * (p - start), curPos := 512 * p, curLen := 0, l2Table := l2Table,
      findClusterRet := kind } (512 * l)) f k b) Q := fun hkind =>
    reach_writeAlloc ⟨hgood₁, hfound, rfl, himage, hidle₁, hagrees₁⟩ ⟨hwrite.write, hwrite.data⟩
      ⟨hstart, rfl, rfl, rfl, hacb.endPos⟩ hkind hfits (hrelies.untouched hfound.aligned) hkept
      (hrecached.fileSize ▸ hsize) (hcont _ ⟨rfl, rfl, rfl, rfl⟩)
  cases kind with
  | found =>
    exact reach_writeInplace ⟨hgood₁, hfound, rfl, himage, hidle₁, hagrees₁⟩
      ⟨hwrite.write, hwrite.data⟩
      ⟨hstart, rfl, rfl, rfl, hacb.endPos⟩ (hcont _ ⟨rfl, rfl, rfl, rfl⟩)
  | zero => exact halloc nofun
  | l2 => exact halloc nofun
  | l1 => exact halloc nofun

end Write

end Qemu.Qed
