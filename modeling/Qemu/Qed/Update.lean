import Qemu.Qed.Find

/-!
# Linking clusters into the tables

The end of an allocating write, from `qed_aio_write_l2_update` on: the entries of the new clusters
go into the L2 table in memory and then into the file.  A new L2 table is written as a whole, and
flushed, before the L1 table gets to know it.

**Main results:** `reach_updateL2` for an L2 table that is there, `reach_newL2` for a new one.
-/

namespace Qemu.Qed

open Nat

/-! ## Writing tables -/

variable {g : Geometry} {c : Context} {fails : Failures} {owner : ℕ → Use} {P : ℕ → Set Sector}
  {d : ℕ → Sector} {i n x start p e l m offset o k j cluster fileSize : ℕ}
  {s s' : State} {f f' : File}
  {acb : Acb} {kind : ClusterKind} {b : Bool} {Q : Run → Prop} {table : Table} {l2Table : L2Ref}
  {e₀ : CachedL2Table} {U : Use → Prop}

lemma sectors_write {sector : ℕ} {data : ℕ → Sector} (h : ¬ (sector ≤ x ∧ x < sector + n)) :
    (f.write sector n data).sectors x = f.sectors x := if_neg h

lemma length_le_write (sector n : ℕ) (data : ℕ → Sector) :
    f.length ≤ (f.write sector n data).length := by
  rw [File.write]
  split_ifs
  · exact le_rfl
  · exact le_max_left _ _

lemma table_write {first : ℕ} :
    (f.write (offset / 512 + first) n (tableSectors table first)).table offset i =
      if first ≤ i / 64 ∧ i / 64 < first + n then table i else f.table offset i := by
  have hi : i / 64 * 64 + i % 64 = i := div_add_mod' i 64
  rw [File.table, File.write]
  simp only
  split_ifs with h₁ h₂ h₂
  · rw [tableSectors, show first + (offset / 512 + i / 64 - (offset / 512 + first)) =
      i / 64 by omega]
    exact congrArg table hi
  · omega
  · omega
  · rfl

/-- A write of part of a table stays within the table. -/
lemma TableOwned.keeps {u : Use} {first : ℕ} (data : ℕ → Sector) (h : TableOwned c.g owner u offset)
    (hn : first + n ≤ c.g.tableNelems / 64) :
    Keeps c.g owner (· ≠ u) f (f.write (offset / 512 + first) n data) := by
  refine fun x hx => sectors_write fun ⟨hlo, hhi⟩ => hx ?_
  have hi : 64 * (x - offset / 512) < c.g.tableNelems := by omega
  have howner := owner_tableSector h hi
  rwa [Nat.mul_div_cancel_left _ (by omega), show offset / 512 + (x - offset / 512) = x by
    omega] at howner

/-! ## What a write leaves behind -/

/-- The sectors that a write may have changed. -/
def widen (P : ℕ → Set Sector) (d : ℕ → Sector) (p e : ℕ) : ℕ → Set Sector := fun q =>
  if p ≤ q ∧ q < e then insert (d q) (P q) else P q

/-- The sectors that a write has changed. -/
def assign (P : ℕ → Set Sector) (d : ℕ → Sector) (p l : ℕ) : ℕ → Set Sector := fun q =>
  if p ≤ q ∧ q < p + l then {d q} else P q

/-- No other request is in the queue. -/
def Idle (s : State) (id : ℕ) : Prop :=
  s.plugged = false ∧ (s.allocatingWriteReqs = [] ∨ s.allocatingWriteReqs = [id])

lemma Recached.idle {id : ℕ} (h : Recached c f s s') (hidle : Idle s id) : Idle s' id :=
  ⟨h.plugged.trans hidle.1, by rw [h.queue]; exact hidle.2⟩

/-- The same request, at another place. -/
structure SameRequest (acb acb' : Acb) : Prop where
  id : acb'.id = acb.id
  write : acb'.write = acb.write
  zero : acb'.zero = acb.zero
  qiov : acb'.qiov = acb.qiov

lemma SameRequest.trans {acb acb' acb'' : Acb} (h : SameRequest acb acb')
    (h' : SameRequest acb' acb'') :
    SameRequest acb acb'' :=
  ⟨h'.id.trans h.id, h'.write.trans h.write, h'.zero.trans h.zero, h'.qiov.trans h.qiov⟩

/-- A write of the sectors from `p` to `e` has failed. -/
def Failed (c : Context) (P : ℕ → Set Sector) (d : ℕ → Sector) (p e id : ℕ) (r : Run) : Prop :=
  (∃ err, r.act = .complete (some err)) ∧ r.acb.id = id ∧ r.failed = true ∧
    (∃ owner, Good c owner (widen P d p e) r.s r.f) ∧ Idle r.s id

/-- `l` sectors from `p` on have been written. -/
structure Written (c : Context) (P : ℕ → Set Sector) (d : ℕ → Sector) (p l : ℕ)
    (s : State) (f : File)
    (s' : State) (f' : File) : Prop where
  good : ∃ owner, Good c owner (assign P d p l) s' f'
  size : s.fileSize ≤ s'.fileSize
  agrees : ∀ cluster, cluster / c.g.tableNelems < c.g.tableNelems →
    Agrees c s f cluster → Agrees c s' f' cluster
  entry : ∀ cluster, cluster / c.g.tableNelems < c.g.tableNelems →
    p + l ≤ cluster * c.g.spc → Agrees c s f cluster →
      fileEntry c f' cluster = fileEntry c f cluster

lemma subset_widen (q : ℕ) : P q ⊆ widen P d p e q := by
  rw [widen]
  split_ifs
  · exact Set.subset_insert _ _
  · exact subset_rfl

lemma widen_subset {e' : ℕ} (h : e ≤ e') (q : ℕ) : widen P d p e q ⊆ widen P d p e' q := by
  rw [widen, widen]
  split_ifs with h₁ h₂
  · exact subset_rfl
  · omega
  · exact Set.subset_insert _ _
  · exact subset_rfl

lemma Failed.of_good {id : ℕ} {err : Errno} {r : Run} (hact : r.act = .complete (some err))
    (hid : r.acb.id = id) (hfailed : r.failed = true)
    (hgood : Good c owner (widen P d p (p + l)) r.s r.f) (hle : p + l ≤ e) (hidle : Idle r.s id) :
    Failed c P d p e id r :=
  ⟨⟨err, hact⟩, hid, hfailed, ⟨owner, hgood.mono (widen_subset hle)⟩, hidle⟩

lemma div_mod_cluster (hi : i < g.tableNelems) :
    (j * g.tableNelems + i) / g.tableNelems = j ∧ (j * g.tableNelems + i) % g.tableNelems = i := by
  rw [Nat.mul_comm, mul_add_div g.tableNelems_pos, div_eq_of_lt hi, mul_add_mod, mod_eq_of_lt hi]
  exact ⟨rfl, rfl⟩

lemma clusterIndex (hi : p / g.spc % g.tableNelems + i < g.tableNelems) :
    (p / g.spc + i) / g.tableNelems = p / g.spc / g.tableNelems ∧
      (p / g.spc + i) % g.tableNelems = p / g.spc % g.tableNelems + i := by
  have hcl := div_add_mod' (p / g.spc) g.tableNelems
  have heq : p / g.spc + i = p / g.spc / g.tableNelems * g.tableNelems +
      (p / g.spc % g.tableNelems + i) := by omega
  rw [heq]
  exact div_mod_cluster hi

lemma Good.assign (h : Good c owner (widen P d p (p + l)) s f)
    (hdata : ∀ cluster v, Version c s f (cluster / c.g.tableNelems) (cluster % c.g.tableNelems) v →
      ∀ q, q / c.g.spc = cluster → p ≤ q → q < p + l → entryView c f v q = d q) :
    Good c owner (assign P d p l) s f := by
  refine h.narrow fun j hj i hi v hv q hq => ?_
  obtain ⟨hdiv, hmod⟩ := div_mod_cluster (j := j) hi
  rw [Qed.assign]
  split_ifs with hrange
  · refine hdata (j * c.g.tableNelems + i) v ?_ q hq hrange.1 hrange.2
    rwa [hdiv, hmod]
  · have hold := (h.seen j hj i hi v hv).view q hq
    rwa [widen, if_neg hrange] at hold

/-! ## Entries of new clusters -/

/-- The entry of the `k`-th new cluster. -/
def newEntry (g : Geometry) (offset k : ℕ) : ℕ :=
  if offset = 0 ∨ offset = 1 then offset else offset + k * g.clusterSize

lemma updateL2Table_apply {index : ℕ} : updateL2Table g table index n offset i =
      if index ≤ i ∧ i < index + n then newEntry g offset (i - index) else table i := rfl

/-- New clusters for `l` sectors from `p` on, ready to be linked. -/
structure Ready (c : Context) (owner : ℕ → Use) (P : ℕ → Set Sector) (d : ℕ → Sector)
    (p l offset : ℕ)
    (f : File) : Prop where
  seen : ∀ k < c.g.clustersOf p l,
    Seen c owner (widen P d p (p + l)) f (p / c.g.spc + k) (newEntry c.g offset k)
  data : ∀ k < c.g.clustersOf p l, ∀ q, q / c.g.spc = p / c.g.spc + k →
    p ≤ q → q < p + l → entryView c f (newEntry c.g offset k) q = d q

/-- The `l` sectors from `p` on are mapped by the entries from `index` on of the L2 table `j`. -/
structure InTable (g : Geometry) (p l j index : ℕ) : Prop where
  cluster : j * g.tableNelems + index = p / g.spc
  l1 : j < g.tableNelems
  l2 : index + g.clustersOf p l ≤ g.tableNelems

/-- The new entries of an L2 table may be seen. -/
lemma Ready.seen_update {index : ℕ} (h : Ready c owner P d p l offset f)
    (hin : InTable c.g p l j index)
    (hold : Seen c owner (widen P d p (p + l)) f (j * c.g.tableNelems + i) (table i)) :
    Seen c owner (widen P d p (p + l)) f (j * c.g.tableNelems + i)
      (updateL2Table c.g table index (c.g.clustersOf p l) offset i) := by
  rw [updateL2Table_apply]
  split_ifs with hindex
  · have hseen := h.seen (i - index) (by omega)
    have hcl := hin.cluster
    rwa [show p / c.g.spc + (i - index) = j * c.g.tableNelems + i by omega] at hseen
  · exact hold

/-- The cluster of a sector is one of those that a piece touches. -/
lemma exists_cluster {q : ℕ} (hp : p ≤ q) (hl : q < p + l) :
    ∃ k < g.clustersOf p l, q / g.spc = p / g.spc + k := by
  refine ⟨q / g.spc - p / g.spc, ?_, ?_⟩
  · have hle := le_clustersOf_mul (g := g) (p := p) l
    have hp' := div_add_mod p g.spc
    have hq : q / g.spc < p / g.spc + g.clustersOf p l := by
      refine Nat.div_lt_of_lt_mul ?_
      rw [Nat.mul_add, Nat.mul_comm _ (g.clustersOf p l)]
      omega
    have := Nat.div_le_div_right (c := g.spc) hp
    omega
  · have := Nat.div_le_div_right (c := g.spc) hp
    omega

/-- Entries that have reached the file show the new data. -/
lemma Good.assign_of_agrees (h : Good c owner (widen P d p (p + l)) s f) {v : ℕ → ℕ}
    (hagrees : ∀ k < c.g.clustersOf p l, Agrees c s f (p / c.g.spc + k))
    (hentry : ∀ k < c.g.clustersOf p l, fileEntry c f (p / c.g.spc + k) = v k)
    (hdata : ∀ k < c.g.clustersOf p l, ∀ q, q / c.g.spc = p / c.g.spc + k →
      p ≤ q → q < p + l → entryView c f (v k) q = d q) :
    Good c owner (Qed.assign P d p l) s f := by
  refine h.assign fun cluster v' hv q hq hp hl => ?_
  obtain ⟨k, hk, hcluster⟩ := exists_cluster (g := c.g) hp hl
  rw [hq] at hcluster
  subst hcluster
  rw [hv.eq_fileEntry h (hagrees k hk), hentry k hk]
  exact hdata k hk q hq hp hl

/-- A cluster after a piece has no sector of the piece. -/
lemma not_touched (h : p + l ≤ cluster * g.spc) (hk : k < g.clustersOf p l) :
    cluster ≠ p / g.spc + k := by
  rintro rfl
  refine absurd (clustersOf_le (g := g) (p := p) (l := l) (m := k) ?_) (by omega)
  have hp := div_add_mod p g.spc
  rw [Nat.add_mul, Nat.mul_comm (p / _)] at h
  omega

lemma Ready.congr {owner' : ℕ → Use} (h : Ready c owner P d p l offset f)
    (howner : ∀ k, owner k ≠ .free → owner' k = owner k) (hf : Keeps c.g owner U f f')
    (hU : ∀ i, U (.data i)) :
    Ready c owner' P d p l offset f' where
  seen i hi := by
    have hseen := (h.seen i hi).congr hf hU
    exact ⟨hseen.ok.mono howner, hseen.view⟩
  data i hi q hq hp hl := by
    rw [← h.data i hi q hq hp hl]
    have hok := (h.seen i hi).ok
    rw [← hq] at hok
    exact entryView_congr hok fun x hx _ => hf x (hx ▸ hU _)

/-- **The new entries are linked** in the L2 table of the file, and no others have changed. -/
lemma Ready.written {index : ℕ} (hready : Ready c owner P d p l offset f')
    (hgood : Good c owner (widen P d p (p + l)) s' f') (hin : InTable c.g p l j index)
    (hagrees : ∀ i < c.g.clustersOf p l, Agrees c s f (p / c.g.spc + i))
    (hsize : s.fileSize ≤ s'.fileSize) (hne : s'.l1Table j ≠ 0)
    (htable : ∀ i < c.g.clustersOf p l, f'.table (s'.l1Table j) (index + i) = newEntry c.g offset i)
    (hkept : ∀ cluster, cluster / c.g.tableNelems < c.g.tableNelems → Agrees c s f cluster →
      Agrees c s' f' cluster ∧
        ((cluster / c.g.tableNelems = j → ¬ (index ≤ cluster % c.g.tableNelems ∧
        cluster % c.g.tableNelems < index + c.g.clustersOf p l)) →
        fileEntry c f' cluster = fileEntry c f cluster)) : Written c P d p l s f s' f' := by
  have hcluster : ∀ i < c.g.clustersOf p l, (p / c.g.spc + i) / c.g.tableNelems = j ∧
      (p / c.g.spc + i) % c.g.tableNelems = index + i := by
    intro i hi
    have := hin.l2
    rw [← hin.cluster, Nat.add_assoc]
    exact div_mod_cluster (by omega)
  have hnew : ∀ i < c.g.clustersOf p l, Agrees c s' f' (p / c.g.spc + i) := fun i hi =>
    (hkept _ (by rw [(hcluster i hi).1]; exact hin.l1) (hagrees i hi)).1
  refine ⟨⟨owner, hgood.assign_of_agrees hnew (fun i hi => ?_) hready.data⟩, hsize,
    fun cluster hcl h => (hkept cluster hcl h).1, fun cluster hcl hafter h => ?_⟩
  · have hl1 := (hnew i hi).l1
    rw [(hcluster i hi).1] at hl1
    rw [fileEntry, (hcluster i hi).1, (hcluster i hi).2, hl1, if_neg hne, htable i hi]
  · refine (hkept cluster hcl h).2 fun hjj hindex => ?_
    refine not_touched (g := c.g) hafter (k := cluster % c.g.tableNelems - index) (by omega) ?_
    have hcl' := div_add_mod' cluster c.g.tableNelems
    have := hin.cluster
    rw [hjj] at hcl'
    omega

/-! ## An L2 table that is there -/

/-- The piece that a request is working on. -/
structure PieceAcb (acb : Acb) (start p e l : ℕ) : Prop where
  start_le : start ≤ p
  pos : acb.curPos = 512 * p
  len : acb.curLen = 512 * l
  offset : acb.qiovOffset = 512 * (p - start)
  endPos : acb.endPos = 512 * e

lemma PieceAcb.done (h : PieceAcb acb start p e l) : AcbAt acb start (p + l) e where
  pos := by rw [h.pos, h.len, Nat.mul_add]
  offset := by
    have := h.start_le
    rw [h.offset, h.len]
    omega
  endPos := h.endPos

/-- A piece of a write request after the lookup, with tables in memory that are those of the
file. -/
structure Piece (c : Context) (owner : ℕ → Use) (P : ℕ → Set Sector) (s : State)
    (f : File) (acb : Acb)
    (p e : ℕ) (kind : ClusterKind) (o l m : ℕ) : Prop where
  good : Good c owner P s f
  found : Found c s f acb.l2Table p e kind o l m
  ret : acb.findClusterRet = kind
  image : 512 * e ≤ c.g.imageSize
  idle : Idle s acb.id
  agrees : ∀ i < c.g.clustersOf p l, Agrees c s f (p / c.g.spc + i)

/-- A write leads to `Q` once it has failed, or has written the piece. -/
structure Continues (c : Context) (fails : Failures) (P : ℕ → Set Sector) (d : ℕ → Sector)
    (start p e l : ℕ)
    (s : State) (f : File) (acb : Acb) (b : Bool) (Q : Run → Prop) : Prop where
  fail : ∀ r, Failed c P d p e acb.id r → Reach c fails r Q
  next : ∀ s' f' acb' k', SameRequest acb acb' → AcbAt acb' start (p + l) e → Idle s' acb.id →
    Written c P d p l s f s' f' → Reach c fails (runOf (nextIo c s' acb' none) f' k' b) Q

/-- Tables in memory that were those of the file still are, with the same entries. -/
def SameEntries (c : Context) (s : State) (f : File) (s' : State) (f' : File) : Prop :=
  ∀ cluster, cluster / c.g.tableNelems < c.g.tableNelems → Agrees c s f cluster →
    Agrees c s' f' cluster ∧ fileEntry c f' cluster = fileEntry c f cluster

lemma Written.of_sameEntries {s₁ s₂ : State} {f₁ f₂ : File} (h : Written c P d p l s₁ f₁ s₂ f₂)
    (hsize : s.fileSize ≤ s₁.fileSize) (hagrees : SameEntries c s f s₁ f₁) :
    Written c P d p l s f s₂ f₂ where
  good := h.good
  size := hsize.trans h.size
  agrees cluster hcl ha := h.agrees cluster hcl (hagrees cluster hcl ha).1
  entry cluster hcl hafter ha :=
    (h.entry cluster hcl hafter (hagrees cluster hcl ha).1).trans (hagrees cluster hcl ha).2

/-- The tables say the same when the request goes on. -/
lemma Continues.move {s₁ : State} {f₁ : File} {acb₁ : Acb}
    (h : Continues c fails P d start p e l s f acb b Q) (hsame : SameRequest acb acb₁)
    (hsize : s.fileSize ≤ s₁.fileSize) (hagrees : SameEntries c s f s₁ f₁) :
    Continues c fails P d start p e l s₁ f₁ acb₁ b Q where
  fail := hsame.id ▸ h.fail
  next s' f' acb' k' hsame' hat hidle hwritten := h.next s' f' acb' k' (hsame.trans hsame') hat
    (hsame.id ▸ hidle) (hwritten.of_sameEntries hsize hagrees)

lemma Found.end_le (h : Found c s f l2Table p e kind o l m) : p + l ≤ e := by
  have := h.le.trans pieceLimit_le
  have := h.pos
  omega

lemma Found.l1Index_lt (h : Found c s f l2Table p e kind o l m)
    (himage : 512 * e ≤ c.g.imageSize) : p / c.g.spc / c.g.tableNelems < c.g.tableNelems := by
  have := h.end_le
  have := h.pos
  exact c.g.l1Index_lt (by omega)

lemma Found.index (h : Found c s f l2Table p e kind o l m) (himage : 512 * e ≤ c.g.imageSize) :
    InTable c.g p l (p / c.g.spc / c.g.tableNelems) (p / c.g.spc % c.g.tableNelems) where
  cluster := div_add_mod' _ _
  l1 := h.l1Index_lt himage
  l2 := by
    have := clustersOf_le h.clusters
    have := h.inTable
    omega

lemma Piece.entry (h : Piece c owner P s f acb p e kind o l m) (i : ℕ)
    (hi : i < c.g.clustersOf p l) :
    (p / c.g.spc + i) / c.g.tableNelems < c.g.tableNelems ∧
      fileEntry c f (p / c.g.spc + i) = kind.entry c.g o i := by
  have hm := clustersOf_le h.found.clusters
  have hin := h.found.inTable
  have hv := h.found.version i (by omega)
  obtain ⟨hdiv, hmod⟩ := clusterIndex (g := c.g) (p := p) (i := i) (by omega)
  rw [← hdiv, ← hmod] at hv
  exact ⟨hdiv ▸ h.found.l1Index_lt h.image, (hv.eq_fileEntry h.good (h.agrees i hi)).symm⟩

/-- The L2 table in memory gets the new entries. -/
lemma Good.linkL2 {index : ℕ} (hgood : Good c owner P s f) (hready : Ready c owner P d p l offset f)
    (hin : InTable c.g p l j index) (hfind : L2Cache.find s.l2Cache (s.l1Table j) = some e₀) :
    Good c owner (widen P d p (p + l)) (Qed.setTable s (s.l1Table j)
      (updateL2Table c.g e₀.table index (c.g.clustersOf p l) offset)) f :=
  (hgood.mono subset_widen).setTable hin.l1 fun i hi => hready.seen_update hin
    ((hgood.mono subset_widen).seen _ hin.l1 i hi _ (.of_find hfind rfl))

lemma Good.l1_congr (hgood : Good c owner P s f) (hf : Keeps c.g owner U f f') (hU : U .l1)
    (hcluster : cluster / c.g.tableNelems < c.g.tableNelems) :
    f'.table c.g.l1TableOffset (cluster / c.g.tableNelems) =
      f.table c.g.l1TableOffset (cluster / c.g.tableNelems) :=
  table_congr ⟨hgood.owns.l1_dvd, hgood.owns.l1⟩ hcluster hf hU

lemma Good.l2_congr (hgood : Good c owner P s f) (hf : Keeps c.g owner U f f')
    (hcluster : cluster / c.g.tableNelems < c.g.tableNelems)
    (hU : U (.l2 (cluster / c.g.tableNelems))) (hne : s.l1Table (cluster / c.g.tableNelems) ≠ 0) :
    f'.table (s.l1Table (cluster / c.g.tableNelems)) (cluster % c.g.tableNelems) =
      f.table (s.l1Table (cluster / c.g.tableNelems)) (cluster % c.g.tableNelems) :=
  table_congr ((hgood.l1 _ hcluster).owned hne) (mod_lt _ c.g.tableNelems_pos) hf hU

lemma agrees_setTable (hgood : Good c owner P s f) (hj : j < c.g.tableNelems)
    (he₀ : e₀ ∈ s.l2Cache) (hoffset : e₀.offset = s.l1Table j)
    (hf : Keeps c.g owner (· ≠ .l2 j) f f')
    (htable : ∀ i < c.g.tableNelems, f'.table (s.l1Table j) i = table i ∨
      f'.table (s.l1Table j) i = f.table (s.l1Table j) i ∧ table i = e₀.table i)
    (cluster : ℕ) (hcluster : cluster / c.g.tableNelems < c.g.tableNelems)
    (h : Agrees c s f cluster) :
    Agrees c (setTable s (s.l1Table j) table) f' cluster ∧ ((cluster / c.g.tableNelems = j →
          table (cluster % c.g.tableNelems) = e₀.table (cluster % c.g.tableNelems)) →
        fileEntry c f' cluster = fileEntry c f cluster) := by
  have hi : cluster % c.g.tableNelems < c.g.tableNelems := mod_lt _ c.g.tableNelems_pos
  have hl1 := hgood.l1_congr hf nofun hcluster
  have hother := fun hjj : cluster / c.g.tableNelems ≠ j =>
    hgood.l2_congr hf hcluster fun heq => hjj (Use.l2.inj heq)
  refine ⟨⟨hl1.trans h.l1, fun e he hoffset' => ?_⟩, fun hsame => ?_⟩
  · obtain ⟨e₁, he₁, rfl⟩ := mem_setTable.mp he
    obtain ⟨_, _, _, hne₁⟩ := hgood.cached e₁ he₁
    have hoffset' : e₁.offset = s.l1Table (cluster / c.g.tableNelems) := by
      split_ifs at hoffset'
      · exact hoffset'
      · exact hoffset'
    split_ifs with heq
    · have hjj : cluster / c.g.tableNelems = j :=
        hgood.l1_inj hcluster hj (hoffset' ▸ hne₁) (hoffset'.symm.trans heq)
      show table _ = f'.table e₁.offset _
      rw [heq]
      rcases htable _ hi with hi' | ⟨hi', hi''⟩
      · exact hi'.symm
      · rw [hi', hi'', ← hoffset]
        exact h.cached e₀ he₀ (by rw [hjj, hoffset])
    · have hjj : cluster / c.g.tableNelems ≠ j := fun hjj => heq (by rw [hoffset', hjj])
      rw [hoffset', hother hjj (hoffset' ▸ hne₁), ← hoffset']
      exact h.cached e₁ he₁ hoffset'
  · rw [fileEntry, fileEntry, hl1, h.l1]
    split_ifs with hzero
    · rfl
    by_cases hjj : cluster / c.g.tableNelems = j
    · rw [hjj]
      have hold := h.cached e₀ he₀ (by rw [hjj, hoffset])
      rw [hoffset] at hold
      rcases htable _ hi with hi' | ⟨hi', _⟩
      · rw [hi', hsame hjj, hold]
      · exact hi'
    · exact hother hjj hzero

/-- **An L2 table that is there.** -/
lemma reach_updateL2 (hpiece : Piece c owner P s f acb p e kind o l m)
    (hready : Ready c owner P d p l offset f) (hkind : kind ≠ .l1) (hacb : PieceAcb acb start p e l)
    (hnclusters : acb.curNclusters = c.g.clustersOf p l)
    (hcont : Continues c fails P d start p e l s f acb b Q) :
    Reach c fails (runOf (writeL2Update c s acb none offset) f k b) Q := by
  obtain ⟨hgood, hfound, hret, himage, hidle, hagrees⟩ := hpiece
  have hin := hfound.index himage
  obtain ⟨hne, hl2Table, e₀, hfind⟩ := hfound.l2 hkind
  have htable : acb.l2Table.table s = e₀.table := by
    rw [hl2Table, L2Ref.table, hfind]
    rfl
  have hgood₁ := hgood.linkL2 hready hin hfind
  rw [writeL2Update]
  simp only [hret, if_neg hkind, htable, hacb.pos, hnclusters, c.g.l2Index_sector]
  rw [hl2Table, L2Ref.offset]
  obtain ⟨hj, hinTable⟩ := And.intro hin.l1 hin.l2
  set j := p / c.g.spc / c.g.tableNelems
  set index := p / c.g.spc % c.g.tableNelems
  set n := c.g.clustersOf p l
  set table := updateL2Table c.g e₀.table index n offset with htabledef
  obtain ⟨he₀, hoffset₀⟩ := L2Cache.mem_of_find hfind
  have he₁ : { e₀ with table := table } ∈ (setTable s (s.l1Table j) table).l2Cache :=
    mem_setTable.mpr ⟨e₀, he₀, if_pos hoffset₀⟩
  -- whatever part of the table has been written
  have hwrite : ∀ count, count ≤ (index + n + 63) / 64 - index / 64 → ∀ f₁,
      f.write (s.l1Table j / 512 + index / 64) count (tableSectors table (index / 64)) = f₁ →
      Keeps c.g owner (· ≠ .l2 j) f f₁ ∧
        (∀ i, f₁.table (s.l1Table j) i = if index / 64 ≤ i / 64 ∧
          i / 64 < index / 64 + count then table i
          else f.table (s.l1Table j) i) ∧
        Good c owner (widen P d p (p + l)) (setTable s (s.l1Table j) table) f₁ := by
    rintro count hle' f₁ rfl
    have hbound : index / 64 + count ≤ c.g.tableNelems / 64 := by
      have := c.g.tableNelems_eq
      omega
    have hf := ((hgood.l1 j hj).owned hne).keeps (f := f) (tableSectors table (index / 64)) hbound
    refine ⟨hf, fun i => table_write,
      hgood₁.writeL2 hj hne he₁ hoffset₀ (length_le_write _ _ _) hf fun i _ => ?_⟩
    rw [l1Table_setTable, table_write]
    split_ifs
    · exact .inr rfl
    · exact .inl rfl
  refine reach_access (fun _ => ?_) fun m' _ => ?_
  · simp only [File.apply, writeTable, resume]
    generalize hf₁ : f.write _ _ _ = f₁
    obtain ⟨hf, htable₁, hgood₂⟩ := hwrite _ le_rfl f₁ hf₁
    have htables : ∀ i < c.g.tableNelems, f₁.table (s.l1Table j) i = table i ∨
        f₁.table (s.l1Table j) i = f.table (s.l1Table j) i ∧ table i = e₀.table i := by
      intro i hi
      rw [htable₁]
      split_ifs with hwritten
      · exact .inl rfl
      · refine .inr ⟨rfl, ?_⟩
        rw [htabledef, updateL2Table_apply, if_neg]
        omega
    have hready' := hready.congr (fun _ _ => rfl) hf (by simp)
    refine hcont.next _ _ acb _ ⟨rfl, rfl, rfl, rfl⟩ hacb.done hidle (hready'.written hgood₂ hin
      hagrees le_rfl hne (fun i hi => ?_) fun cluster hcl h => ?_)
    · rw [l1Table_setTable, htable₁, if_pos (by omega), htabledef, updateL2Table_apply,
        if_pos (by omega), Nat.add_sub_cancel_left]
    · refine (agrees_setTable hgood hj he₀ hoffset₀ hf htables cluster hcl h).imp_right
        fun hsame hout =>
        hsame fun hjj => ?_
      rw [htabledef, updateL2Table_apply, if_neg (hout hjj)]
  · exact hcont.fail _ (.of_good rfl rfl rfl (hwrite _ (min_le_right _ _) _ rfl).2.2
      hfound.end_le hidle)

/-! ## A new L2 table -/

/-- What lies behind the end of the file is free. -/
lemma Owns.free (h : Owns g owner fileSize) (hk : fileSize < (k + 1) * g.clusterSize) :
    owner k = .free := by
  by_contra hne
  have := h.used_lt k hne
  omega

lemma Owns.free_sector (h : Owns g owner fileSize) (hx : fileSize / 512 ≤ x) :
    owner (x / g.spc) = .free := by
  refine h.free ?_
  obtain ⟨t, rfl⟩ := h.fileSize_dvd
  rw [g.clusterSize_eq, Nat.mul_assoc, Nat.mul_div_cancel_left _ (by omega)] at hx
  have hle : t ≤ x / g.spc := (Nat.le_div_iff_mul_le g.spc_pos).mpr (by
    rw [Nat.mul_comm]
    exact hx)
  rw [Nat.mul_comm]
  exact Nat.mul_lt_mul_of_pos_right (by omega) g.clusterSize_pos

lemma Owns.fileSize_pos (h : Owns g owner fileSize) : 0 < fileSize := by
  have hheader := (h.header 0).mpr h.headerSize_pos
  have := h.used_lt 0 (by rw [hheader]; exact nofun)
  have := g.clusterSize_pos
  omega

/-- Give the `n` clusters from an offset on a use. -/
def newUse (g : Geometry) (owner : ℕ → Use) (offset n : ℕ) (use : ℕ → Use) : ℕ → Use := fun k =>
  if offset / g.clusterSize ≤ k ∧ k < offset / g.clusterSize + n then
    use (k - offset / g.clusterSize)
  else owner k

/-- **New uses** for clusters behind the end of the file. -/
lemma Good.newUse (n : ℕ) (use : ℕ → Use) (h : Good c owner P s f) (howns : Owns c.g owner fileSize)
    (hsize : fileSize + n * c.g.clusterSize ≤ s.fileSize)
    (hlength : fileSize / 512 + n * c.g.spc ≤ f.length) (huse : ∀ i, use i ≠ .header) :
    (∀ k, owner k ≠ .free → Qed.newUse c.g owner fileSize n use k = owner k) ∧
      Good c (Qed.newUse c.g owner fileSize n use) P s f := by
  have hpos := c.g.clusterSize_pos
  have hfree : ∀ k, fileSize / c.g.clusterSize ≤ k → owner k = .free := by
    intro k hk
    refine howns.free ?_
    have := lt_succ_of_le hk
    exact (Nat.div_lt_iff_lt_mul hpos).mp this
  have hkeep : ∀ k, owner k ≠ .free → Qed.newUse c.g owner fileSize n use k = owner k := by
    intro k hk
    refine if_neg fun hk' => hk (hfree k hk'.1)
  obtain ⟨t, ht⟩ := howns.fileSize_dvd
  have hdiv : fileSize / c.g.clusterSize = t := by rw [ht, Nat.mul_div_cancel_left _ hpos]
  refine ⟨hkeep, h.extend hkeep { h.owns with used_lt := ?_, header := ?_, l1 := ?_ } ?_⟩
  · intro k hk
    rw [Qed.newUse, hdiv] at hk
    split_ifs at hk with hrange
    · calc (k + 1) * c.g.clusterSize ≤ (t + n) * c.g.clusterSize :=
        Nat.mul_le_mul_right _ (by omega)
        _ = fileSize + n * c.g.clusterSize := by rw [ht]; ring
        _ ≤ s.fileSize := hsize
    · exact h.owns.used_lt k hk
  · intro k
    rw [Qed.newUse]
    split_ifs with hrange
    · refine ⟨fun h => absurd h (huse _), fun hk => ?_⟩
      have hheader := (h.owns.header k).mpr hk
      rw [hfree k hrange.1] at hheader
      cases hheader
    · exact h.owns.header k
  · intro k hk
    rw [hkeep]
    · exact h.owns.l1 k hk
    · rw [h.owns.l1 k hk]
      exact nofun
  · intro k hk
    rw [Qed.newUse, hdiv] at hk
    split_ifs at hk with hrange
    · refine le_trans ?_ hlength
      rw [ht, c.g.clusterSize_eq, Nat.mul_assoc, Nat.mul_div_cancel_left _ (by omega),
        Nat.mul_comm c.g.spc, ← Nat.add_mul]
      exact Nat.mul_le_mul_right _ (by omega)
    · exact h.written k hk

/-- Sectors behind the end of the file may be written. -/
lemma Good.writeFree (h : Good c owner P s f) (sector n : ℕ) (data : ℕ → Sector)
    (howns : Owns c.g owner fileSize) (hsector : fileSize / 512 ≤ sector) :
    Good c owner P s (f.write sector n data) := by
  refine h.writeData (length_le_write _ _ _) fun x => ?_
  by_cases hx : sector ≤ x ∧ x < sector + n
  · exact .inr (.inl (howns.free_sector (hsector.trans hx.1)))
  · exact .inl (sectors_write hx)

/-- Both L1 tables get to know a new L2 table, and the other entries stay. -/
lemma agrees_newL2 {l2Offset : ℕ} (hgood : Good c owner P s f)
    (hzero : s.l1Table j = 0) (hne : l2Offset ≠ 0) (hnew : ∀ e ∈ s.l2Cache, e.offset ≠ l2Offset)
    (hl1 : s'.l1Table = Function.update s.l1Table j l2Offset)
    (hcache : s'.l2Cache = s.l2Cache) (hf : Keeps c.g owner (· ≠ .l1) f f')
    (hl1_file : ∀ i < c.g.tableNelems, f'.table c.g.l1TableOffset i = s'.l1Table i ∨
      f'.table c.g.l1TableOffset i = f.table c.g.l1TableOffset i ∧ i ≠ j)
    (cluster : ℕ) (hcluster : cluster / c.g.tableNelems < c.g.tableNelems)
    (h : Agrees c s f cluster) :
    Agrees c s' f' cluster ∧
      ((cluster / c.g.tableNelems = j → f'.table l2Offset (cluster % c.g.tableNelems) = 0) →
        fileEntry c f' cluster = fileEntry c f cluster) := by
  have hl1' : f'.table c.g.l1TableOffset (cluster / c.g.tableNelems) =
      s'.l1Table (cluster / c.g.tableNelems) := by
    rcases hl1_file _ hcluster with hfile | ⟨hfile, hjj⟩
    · exact hfile
    · rw [hfile, h.l1, hl1, Function.update_of_ne hjj]
  have htable := hgood.l2_congr hf hcluster nofun
  refine ⟨⟨hl1', fun e he hoffset => ?_⟩, fun hsame => ?_⟩
  · rw [hcache] at he
    obtain ⟨_, _, _, hne'⟩ := hgood.cached e he
    rw [hl1, Function.update_apply] at hoffset
    split_ifs at hoffset with hjj
    · exact absurd hoffset (hnew e he)
    · rw [hoffset, htable (hoffset ▸ hne'), ← hoffset]
      exact h.cached e he hoffset
  · rw [fileEntry, fileEntry, hl1', h.l1, hl1, Function.update_apply]
    by_cases hjj : cluster / c.g.tableNelems = j
    · rw [if_pos hjj, if_neg hne, hsame hjj, hjj, if_pos hzero]
    rw [if_neg hjj]
    split_ifs with hzero'
    · rfl
    · exact htable hzero'

/-- The tables stay what they were when only data is written. -/
lemma agrees_writeData (hgood : Good c owner P s f) (hf : Keeps c.g owner U f f') (hU₁ : U .l1)
    (hU₂ : ∀ j, U (.l2 j)) : SameEntries c s f s f' := by
  intro cluster hcluster h
  have hl1 := hgood.l1_congr hf hU₁ hcluster
  have hl2 := hgood.l2_congr hf hcluster (hU₂ _)
  refine ⟨⟨hl1.trans h.l1, fun e he hoffset => ?_⟩, ?_⟩
  · obtain ⟨_, _, _, hne⟩ := hgood.cached e he
    rw [h.cached e he hoffset, hoffset, hl2 (hoffset ▸ hne)]
  rw [fileEntry, fileEntry, hl1, h.l1]
  split_ifs with hzero
  · rfl
  · exact hl2 hzero

/-- A new L2 table, which is in the file, is linked in the L1 table. -/
lemma reach_writeL1Update {l2Offset index : ℕ} (hgood : Good c owner (widen P d p (p + l)) s f)
    (hready : Ready c owner P d p l offset f) (hin : InTable c.g p l j index)
    (hl : 0 < c.g.clustersOf p l)
    (hagrees : ∀ i < c.g.clustersOf p l, Agrees c s f (p / c.g.spc + i)) (hzero : s.l1Table j = 0)
    (howned : TableOwned c.g owner (.l2 j) l2Offset) (hne : l2Offset ≠ 0)
    (hnew : ∀ e' ∈ s.l2Cache, e'.offset ≠ l2Offset)
    (htable : table = updateL2Table c.g (fun _ => 0) index (c.g.clustersOf p l) offset)
    (hfile : ∀ i < c.g.tableNelems, f.table l2Offset i = table i) (hacb : PieceAcb acb start p e l)
    (hl2 : acb.l2Table = .fresh l2Offset table) (hidle : Idle s acb.id) (hle : p + l ≤ e)
    (hcont : Continues c fails P d start p e l s f acb b Q) :
    Reach c fails (runOf (writeL1Update c s acb none) f k b) Q := by
  obtain ⟨hj, hinTable⟩ := And.intro hin.l1 hin.l2
  have hindex : p / c.g.spc / c.g.tableNelems = j := by
    rw [← hin.cluster]
    exact (div_mod_cluster (by omega)).1
  rw [writeL1Update]
  simp only [hacb.pos, c.g.l1Index_sector, hindex, hl2, L2Ref.offset]
  have hseen : ∀ i < c.g.tableNelems, Seen c owner (widen P d p (p + l)) f (j * c.g.tableNelems + i)
      (f.table l2Offset i) := by
    intro i hi
    rw [hfile i hi, htable]
    exact hready.seen_update hin (hgood.seen j hj i hi 0 (.absent (hgood.absent hj hzero)))
  set s₁ : State := { s with l1Table := Function.update s.l1Table j l2Offset }
  have hgood₁ : Good c owner (widen P d p (p + l)) s₁ f :=
    hgood.setL1 hj hzero howned hseen rfl rfl rfl
  have hl1 : s₁.l1Table j = l2Offset := Function.update_self ..
  -- the L1 table is written, or not, and the new table goes into the cache
  have hwrite : ∀ count, count ≤ (j + 1 + 63) / 64 - j / 64 → ∀ f₁,
      f.write (c.g.l1TableOffset / 512 + j / 64) count (tableSectors s₁.l1Table (j / 64)) = f₁ →
      Keeps c.g owner (· ≠ .l1) f f₁ ∧
        (∀ i, f₁.table c.g.l1TableOffset i = if j / 64 ≤ i / 64 ∧
          i / 64 < j / 64 + count then s₁.l1Table i
          else f.table c.g.l1TableOffset i) ∧
        Good c owner (widen P d p (p + l)) s₁ f₁ ∧ Recached c f₁ s₁
          { s₁ with
            l2Cache := L2Cache.ref (L2Cache.commit s₁.l2Cache ⟨l2Offset, table, 1⟩) l2Offset } := by
    rintro count hcount f₁ rfl
    have hbound : j / 64 + count ≤ c.g.tableNelems / 64 := by
      have := c.g.tableNelems_eq
      omega
    have hf := TableOwned.keeps (f := f) (tableSectors s₁.l1Table (j / 64))
      ⟨hgood.owns.l1_dvd, hgood.owns.l1⟩ hbound
    refine ⟨hf, fun i => table_write, hgood₁.writeL1 (length_le_write _ _ _) hf fun i hi => ?_, ?_⟩
    · rw [table_write]
      split_ifs
      · exact .inr rfl
      · exact .inl rfl
    · have hrecached := recached_commit (s := s₁) (f := f.write _ _ _) table hj
        (hl1.trans_ne hne) fun i hi => by
        rw [hl1, ← hfile i hi]
        exact (table_congr howned hi hf (by simp)).symm
      rw [hl1] at hrecached
      exact hrecached.trans (recached_ref _)
  refine reach_access (fun _ => ?_) fun m' _ => ?_
  · simp only [File.apply, writeTable, resume, commitL2Update, hl2, L2Ref.offset, L2Ref.table]
    generalize hf : f.write _ _ _ = f₁
    obtain ⟨hf₁, htableL1, hgood₂, hrecached⟩ := hwrite _ le_rfl f₁ hf
    have hl1_file : ∀ i < c.g.tableNelems, f₁.table c.g.l1TableOffset i = s₁.l1Table i ∨
        f₁.table c.g.l1TableOffset i = f.table c.g.l1TableOffset i ∧ i ≠ j := by
      intro i hi
      rw [htableL1]
      split_ifs with hwritten
      · exact .inl rfl
      · exact .inr ⟨rfl, fun hij => hwritten (by rw [hij]; omega)⟩
    have hready₁ := hready.congr (fun _ _ => rfl) hf₁ (by simp)
    have htable₁ : ∀ i < c.g.tableNelems, f₁.table l2Offset i = table i := fun i hi =>
      (table_congr howned hi hf₁ (by simp)).trans (hfile i hi)
    have hkept := agrees_newL2 hgood hzero hne hnew (show s₁.l1Table = _ from rfl) rfl hf₁ hl1_file
    refine hcont.next _ _ _ _ ⟨rfl, rfl, rfl, rfl⟩ ⟨hacb.done.pos, hacb.done.offset,
      hacb.done.endPos⟩ hidle
      (hready₁.written (hrecached.good hgood₂) hin hagrees le_rfl (hl1.trans_ne hne)
        (fun i hi => ?_) fun cluster hcl h => ?_)
    · rw [show s₁.l1Table _ = l2Offset from hl1, htable₁ _ (by omega), htable, updateL2Table_apply,
        if_pos (by omega), Nat.add_sub_cancel_left]
    · refine (hkept cluster hcl h).imp hrecached.agrees fun hsame hout => hsame fun hjj => ?_
      rw [htable₁ _ (mod_lt _ c.g.tableNelems_pos), htable, updateL2Table_apply, if_neg (hout hjj)]
  · obtain ⟨-, -, hgood₂, hrecached⟩ := hwrite _ (min_le_right m' _) _ rfl
    simp only [resume, commitL2Update, hl2, L2Ref.offset, L2Ref.table]
    exact hcont.fail _ (.of_good rfl rfl rfl (hrecached.good hgood₂) hle hidle)

/-- **A new L2 table.** -/
lemma reach_newL2 (hpiece : Piece c owner P s f acb p e .l1 o l m)
    (hready : Ready c owner P d p l offset f) (hacb : PieceAcb acb start p e l)
    (hnclusters : acb.curNclusters = c.g.clustersOf p l)
    (hcont : Continues c fails P d start p e l s f acb b Q) :
    Reach c fails (runOf (writeL2Update c s acb none offset) f k b) Q := by
  have hentry := hpiece.entry
  obtain ⟨hgood, hfound, hret, himage, hidle, hagrees⟩ := hpiece
  have hle := hfound.end_le
  have hsize : c.g.tableSize * c.g.clusterSize % 2 ^ 32 = c.g.tableSize * c.g.clusterSize := by
    refine mod_eq_of_lt ?_
    calc c.g.tableSize * c.g.clusterSize ≤ 16 * (64 * 1024 * 1024) :=
          Nat.mul_le_mul c.g.tableSize_le c.g.clusterSize_le
      _ < 2 ^ 32 := by norm_num
  have hunref := recached_unref (c := c) (f := f) (s := s) acb.l2Table
  have htableNelems := c.g.tableNelems_eq
  rw [writeL2Update]
  simp only [hret, if_true, allocClusters, hacb.pos, hnclusters, c.g.l2Index_sector, hsize]
  generalize unrefL2 s acb.l2Table = s₁ at hunref ⊢
  rw [hunref.fileSize]
  set s₂ : State := { s₁ with fileSize := s.fileSize + c.g.tableSize * c.g.clusterSize }
  have hgood₂ : Good c owner (widen P d p (p + l)) s₂ f := by
    refine (hgood.mono subset_widen).recache hunref.l1Table hunref.cache (Nat.le_add_right _ _) ?_
    exact Dvd.dvd.add hgood.owns.fileSize_dvd (Nat.dvd_mul_left _ _)
  have hidle₂ : Idle s₂ acb.id := hunref.idle hidle
  generalize htable : updateL2Table c.g (fun _ => 0) _ _ offset = table
  rw [writeTable]
  simp only [show (0 + c.g.tableNelems + 63) / 64 - 0 / 64 = c.g.tableSize * c.g.spc by omega]
  -- the new table is written behind the end of the file
  have hwrite : ∀ count, Good c owner (widen P d p (p + l)) s₂
      (f.write (s.fileSize / 512 + 0 / 64) count (tableSectors table (0 / 64))) := fun count =>
    hgood₂.writeFree _ _ _ hgood.owns (Nat.le_add_right _ _)
  refine reach_access (fun _ => ?_) fun m' _ =>
    hcont.fail _ (.of_good rfl rfl rfl (hwrite _) hle hidle₂)
  rw [File.apply]
  set f₁ := f.write (s.fileSize / 512 + 0 / 64) (c.g.tableSize * c.g.spc)
    (tableSectors table (0 / 64)) with hf₁def
  have hgood₁ : Good c owner (widen P d p (p + l)) s₂ f₁ := hwrite _
  refine reach_access (fun _ => ?_) fun m' _ =>
    hcont.fail _ (.of_good rfl rfl rfl hgood₁ hle hidle₂)
  rw [File.apply, resume]
  have hf₁ : Keeps c.g owner (· ≠ .free) f f₁ := by
    intro x hx
    refine sectors_write fun hx' => hx (hgood.owns.free_sector ?_)
    omega
  have hgood_s₁ := hunref.good hgood
  have hagrees₁ : SameEntries c s f s₂ f₁ := by
    intro cluster hcluster h
    obtain ⟨h₁, h₂⟩ := agrees_writeData hgood_s₁ hf₁ nofun nofun cluster hcluster (hunref.agrees h)
    exact ⟨⟨h₁.l1, h₁.cached⟩, h₂⟩
  have hnew : ∀ e' ∈ s₁.l2Cache, e'.offset ≠ s.fileSize := by
    intro e' he' heq
    obtain ⟨j', hj', hoffset, hne'⟩ := hgood_s₁.cached e' he'
    have hused := ((hgood_s₁.l1 j' hj').owned (hoffset ▸ hne')).2 0 c.g.tableSize_pos
    rw [← hoffset, heq, Nat.add_zero, hgood.owns.free (by
      have := div_add_mod s.fileSize c.g.clusterSize
      have := mod_lt s.fileSize c.g.clusterSize_pos
      rw [Nat.add_mul, Nat.mul_comm (s.fileSize / _)]
      omega)] at hused
    cases hused
  -- its clusters belong to it from now on
  obtain ⟨hkeep, hgood₃⟩ := hgood₁.newUse c.g.tableSize
    (fun _ => .l2 (p / c.g.spc / c.g.tableNelems)) hgood.owns le_rfl
    (by
      have := Nat.mul_pos c.g.tableSize_pos c.g.spc_pos
      rw [hf₁def, File.write, if_neg this.ne']
      exact le_max_right _ _) fun _ => nofun
  refine reach_writeL1Update hgood₃ (hready.congr hkeep hf₁ nofun)
    (hfound.index himage) (clustersOf_pos hfound.pos)
      (fun i hi => (hagrees₁ _ (hentry i hi).1 (hagrees i hi)).1)
    ((congrFun hunref.l1Table _).trans (hfound.l1 rfl))
    ⟨hgood.owns.fileSize_dvd, fun i hi => if_pos ⟨by omega, by omega⟩⟩ hgood.owns.fileSize_pos.ne'
      hnew htable.symm
    (fun i hi => ?_) ⟨hacb.start_le, rfl, hacb.len, hacb.offset, hacb.endPos⟩ rfl hidle₂ hle
    (hcont.move ⟨rfl, rfl, rfl, rfl⟩ (Nat.le_add_right _ _) hagrees₁)
  rw [hf₁def, table_write, if_pos (by omega)]

end Qemu.Qed
