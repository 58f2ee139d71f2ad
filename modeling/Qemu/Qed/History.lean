import Qemu.Qed.Open

/-!
# What an image remembers

Requests are served one after the other, with or without errors of the image file.

Three things go wrong.  A partial write to a cluster of zeroes fills the rest of the new cluster
from the backing file.  `qed_bytes_to_clusters`, and products of 32 bits, count the clusters of
large requests wrong.  And the error of a data write to new clusters of an image with a backing
file, or of the header write before it in one without, does not reach the request; nor is a table in
memory put back when its write has failed, so that later writes go to clusters that the file does
not know.

**Main results:**
* `read_after_write` — apart from the first two, a read returns what was written last.
* `session_consistent` — the tables of the file stay consistent, whatever fails.
* `writes_survive_errors` — apart from all three, an error of the file is an error of the request,
  and the file has what was written with success.
-/

namespace Qemu.Qed

open List Request

/-! ## Sessions -/

/-- Every access succeeds. -/
def noFailures : Failures := fun _ _ => none

/-- Requests that have been served on an image, with their results. -/
inductive Session (c : Context) (ok : State → File → Failures → Request → Prop) (f₀ : File) :
    List (Request × Option Errno) → State → File → Prop
  | opened : Session c ok f₀ [] (bdrvQedOpen c f₀).1 (bdrvQedOpen c f₀).2
  | serve {history : List (Request × Option Errno)} {s s' : State} {f f' : File} {fails : Failures}
      {req : Request} {ret : Option Errno} {buf : ℕ → Sector} {failed : Bool}
        (h : Session c ok f₀ history s f)
      (hok : ok s f fails req) (hserves : Serves c fails req s f ret s' f' buf failed) :
      Session c ok f₀ (history ++ [(req, ret)]) s' f'

/-- The sectors may be what a request has written, or, if it has failed, also what they were
before. -/
def mayHoldAfter (P : ℕ → Set Sector) : Request × Option Errno → ℕ → Set Sector
  | (req, none) => if req.isWrite then assign P req.data req.sector req.nbSectors else P
  | (req, some _) => if req.isWrite then widen P req.data req.sector
      (req.sector + req.nbSectors) else P

/-- What the sectors may be after a session. -/
def mayHold (c : Context) (f₀ : File) (history : List (Request × Option Errno)) : ℕ → Set Sector :=
  history.foldl mayHoldAfter fun q => {imageSector c f₀ q}

/-- The tables in memory and in the file have the same entries for the clusters of a request. -/
def InSync (c : Context) (s : State) (f : File) (req : Request) : Prop :=
  ∀ cluster, req.sector / c.g.spc ≤ cluster →
    cluster * c.g.spc < req.sector + req.nbSectors → Agrees c s f cluster

/-- If the first or last cluster is covered only in part and is a cluster of zeroes, so is the
backing file. -/
def EdgesKept (c : Context) (f : File) (req : Request) : Prop :=
  ∀ q, q < req.sector ∧ q / c.g.spc = req.sector / c.g.spc ∨
      req.sector + req.nbSectors ≤ q ∧
        q / c.g.spc = (req.sector + req.nbSectors - 1) / c.g.spc →
    fileEntry c f (q / c.g.spc) = 1 → c.backingSector q = zeroSector

/-- A request that is counted right and that keeps what is around it. -/
def Harmless (c : Context) (f : File) (req : Request) : Prop :=
  Fits c.g (512 * req.sector) (512 * req.nbSectors) ∧ (req.isWrite = true → EdgesKept c f req)

/-- A request whose errors all reach it, on clusters for which the tables in memory and in the file
agree. -/
def ErrorsKept (c : Context) (s : State) (f : File) (fails : Failures) (req : Request) : Prop :=
  Harmless c f req ∧ (req.isWrite = true → InSync c s f req ∧ Kept c fails req.acb.zero s.fileSize)

/-! ## A request -/

variable {c : Context} {fails : Failures} {owner : ℕ → Use} {P : ℕ → Set Sector} {s s' : State}
  {f f' f₀ : File}
  {req : Request} {ret : Option Errno} {buf : ℕ → Sector} {failed : Bool} {q : ℕ}
  {history : List (Request × Option Errno)}

/-- A request that is not refused is inside of the image. -/
lemma Request.within (h : req.refused c = none) :
    512 * (req.sector + req.nbSectors) ≤ c.g.imageSize := by
  by_contra hgt
  unfold refused at h
  rw [if_pos (by omega)] at h
  cases h

lemma Request.aligned (h : req.refused c = none) (hzero : req.acb.zero = true)
    (hbacking : c.backing.isSome = true) :
    req.sector % c.g.spc = 0 ∧ req.nbSectors % c.g.spc = 0 := by
  cases req with
  | read sector n => cases hzero
  | write sector n data => cases hzero
  | writeZeroes sector n =>
    rw [refused] at h
    split_ifs at h with hsize haligned
    simp only [hbacking, true_and, not_or, not_not] at haligned
    rw [Nat.mul_comm, c.g.offsetIntoCluster_sector, Nat.mul_comm n,
      c.g.offsetIntoCluster_sector] at haligned
    show sector % _ = 0 ∧ n % _ = 0
    omega

lemma Request.acbAt : AcbAt req.acb req.sector req.sector (req.sector + req.nbSectors) := by
  cases req <;> exact ⟨by simp only [acb, sector]; omega, by simp only [acb, sector]; omega,
    by simp only [acb, sector, nbSectors]; omega⟩

lemma Request.writeAcb (h : req.isWrite = true) : WriteAcb req.acb req.data req.sector := by
  cases req with
  | read sector n => cases h
  | write sector n data | writeZeroes sector n => exact ⟨rfl, fun q _ => rfl⟩

/-- What a write request relies on. -/
lemma Request.relies (hrefused : req.refused c = none) (hsync : InSync c s f req)
    (hedges : EdgesKept c f req) (hlt : req.sector < req.sector + req.nbSectors) :
    Relies c s f req.acb.zero req.sector (req.sector + req.nbSectors) := by
  refine ⟨hsync, fun q hq hzero => ?_⟩
  rcases hzero with hzero | hentry
  · -- zeroes are written to whole clusters, or there is no backing file
    rcases hbacking : c.backing with _ | backing
    · rw [Context.backingSector, hbacking]
    obtain ⟨hstart, hcount⟩ := aligned hrefused hzero (by rw [hbacking]; rfl)
    have hpos := c.g.spc_pos
    obtain ⟨a, ha⟩ := Nat.dvd_of_mod_eq_zero hstart
    obtain ⟨b, hb⟩ := Nat.dvd_of_mod_eq_zero hcount
    have hend : req.sector + req.nbSectors = c.g.spc * (a + b) := by rw [ha, hb, Nat.mul_add]
    rcases hq with ⟨hq, heq⟩ | ⟨hq, heq⟩
    · have hlt : q / c.g.spc < a := Nat.div_lt_of_lt_mul (ha ▸ hq)
      rw [heq, ha, Nat.mul_div_cancel_left _ hpos] at hlt
      exact absurd hlt (lt_irrefl a)
    · have hle : a + b ≤ q / c.g.spc :=
        (Nat.le_div_iff_mul_le hpos).mpr (by rw [Nat.mul_comm, ← hend]; exact hq)
      rw [heq, Nat.le_div_iff_mul_le hpos, Nat.mul_comm, ← hend] at hle
      exact absurd hle (by omega)
  · exact hedges q hq hentry

/-- A write request runs to its end. -/
lemma reach_write (hgood : Good c owner P s f) (hquiet : Quiet s) (hrefused : req.refused c = none)
    (hok : ErrorsKept c s f fails req) (hwrite : req.isWrite = true) :
    Reach c fails (req.start c s f) fun r =>
      Failed c P req.data req.sector (req.sector + req.nbSectors) req.acb.id r ∨
        Done c P req.data req.sector (req.sector + req.nbSectors) req.acb.id s f false r := by
  obtain ⟨⟨hfits, hedges⟩, hsync⟩ := hok
  refine reach_writeRequest hgood (writeAcb hwrite) acbAt le_rfl (Nat.le_add_right _ _) ?_
    (within hrefused) ⟨hquiet.1, .inl hquiet.2⟩
    (fun hlt => relies hrefused (hsync hwrite).1 (hedges hwrite) hlt) (hsync hwrite).2 le_rfl
  rwa [Nat.add_sub_cancel_left]

/-- A read request runs to its end. -/
lemma reach_read (hgood : Good c owner P s f) (hrefused : req.refused c = none)
    (hfits : Fits c.g (512 * req.sector) (512 * req.nbSectors)) (hread : req.isWrite = false) :
    Reach c fails (req.start c s f)
      (ReadDone c P req.sector (req.sector + req.nbSectors) req.acb.id s f false) := by
  refine reach_readRequest hgood ?_ acbAt (fun q _ _ => by omega) le_rfl (Nat.le_add_right _ _) ?_
    (within hrefused)
  · cases req with
    | read sector n => rfl
    | write sector n data => cases hread
    | writeZeroes sector n => cases hread
  · rwa [Nat.add_sub_cancel_left]

/-- What a request leaves behind. -/
structure Outcome (c : Context) (P : ℕ → Set Sector) (req : Request) (s : State) (f : File)
    (ret : Option Errno) (s' : State) (f' : File) (buf : ℕ → Sector) (failed : Bool) : Prop where
  good : ∃ owner, Good c owner (mayHoldAfter P (req, ret)) s' f'
  quiet : Quiet s'
  error : failed = true → ret ≠ none
  success : req.refused c = none → failed = false → ret = none
  agrees : ret = none → ∀ cluster, cluster / c.g.tableNelems < c.g.tableNelems →
  Agrees c s f cluster →
    Agrees c s' f' cluster
  data : ret = none → req.isWrite = false → HasRead P buf req.sector (req.sector + req.nbSectors)

/-- **A request that is served**, whatever fails. -/
lemma Serves.outcome (h : Serves c fails req s f ret s' f' buf failed) (hgood : Good c owner P s f)
    (hquiet : Quiet s) (hok : req.refused c = none → ErrorsKept c s f fails req) :
    Outcome c P req s f ret s' f' buf failed := by
  by_cases hrefused : req.refused c = none
  · replace hok := hok hrefused
    by_cases hwrite : req.isWrite = true
    · obtain ⟨r, hr, hact, rfl, rfl, rfl, rfl⟩ := h.of_reach hrefused
        (reach_write hgood hquiet hrefused hok hwrite) fun r hr => by
          rcases hr with ⟨⟨err, herr⟩, _⟩ | hr
          · exact ⟨_, herr⟩
          · exact ⟨_, hr.act⟩
      have hread : ¬ req.isWrite = false := by rw [hwrite]; exact nofun
      rcases hr with ⟨⟨err, herr⟩, hid, hfailed, ⟨owner', hgood'⟩, hidle⟩ | hr
      · obtain rfl : some err = ret := Action.complete.inj (herr.symm.trans hact)
        obtain ⟨hkeep, _, hquiet'⟩ := aioComplete_recached (c := c) owner' _ r.f r.acb
          (hid.symm ▸ hidle)
        refine ⟨⟨owner', ?_⟩, hquiet', fun _ => nofun, fun _ hok => ?_, nofun, nofun⟩
        · simp only [mayHoldAfter, hwrite, if_true]
          exact hkeep hgood'
        · rw [hfailed] at hok
          cases hok
      · obtain rfl : none = ret := Action.complete.inj (hr.act.symm.trans hact)
        obtain ⟨owner', hgood'⟩ := hr.good
        obtain ⟨hkeep, hagrees, hquiet'⟩ := aioComplete_recached (c := c) owner' _ r.f r.acb
          (hr.acb.symm ▸ hr.idle)
        refine ⟨⟨owner', ?_⟩, hquiet', fun hfailed => ?_, fun _ _ => rfl,
          fun _ cluster hcl hag => hagrees cluster (hr.agrees cluster hcl hag),
          fun _ hread' => absurd hread' hread⟩
        · simp only [mayHoldAfter, hwrite, if_true]
          rw [Nat.add_sub_cancel_left] at hgood'
          exact hkeep hgood'
        · rw [hr.failed] at hfailed
          cases hfailed
    · rw [Bool.not_eq_true] at hwrite
      obtain ⟨r, hr, hact, rfl, rfl, rfl, rfl⟩ := h.of_reach hrefused
        (reach_read hgood hrefused hok.1.1 hwrite) fun r hr => ⟨_, hr.act⟩
      obtain rfl : none = ret := Action.complete.inj (hr.act.symm.trans hact)
      have hidle : Idle r.s r.acb.id :=
        ⟨hr.recached.plugged.trans hquiet.1, .inl (hr.recached.queue.trans hquiet.2)⟩
      obtain ⟨hkeep, hagrees, hquiet'⟩ := aioComplete_recached (c := c) owner P f r.acb hidle
      rw [hr.file]
      refine ⟨⟨owner, ?_⟩, hquiet', fun hfailed => ?_, fun _ _ => rfl,
        fun _ cluster _ hag => hagrees cluster (hr.recached.agrees hag), fun _ _ => hr.data⟩
      · simp only [mayHoldAfter, hwrite, Bool.false_eq_true, if_false]
        exact hkeep (hr.recached.good hgood)
      · rw [hr.failed] at hfailed
        cases hfailed
  · cases h with
    | served h => exact absurd h hrefused
    | refused h =>
      refine ⟨⟨owner, hgood.mono fun q => ?_⟩, hquiet, nofun,
        fun h => absurd h hrefused, nofun, nofun⟩
      simp only [mayHoldAfter]
      split_ifs
      · exact subset_widen q
      · exact subset_rfl

/-- Every request is served. -/
lemma exists_serves (hgood : Good c owner P s f) (hquiet : Quiet s)
    (hok : req.refused c = none → ErrorsKept c s f fails req) :
    ∃ ret s' f' buf failed, Serves c fails req s f ret s' f' buf failed := by
  rcases hrefused : req.refused c with _ | err
  · replace hok := hok hrefused
    by_cases hwrite : req.isWrite = true
    · obtain ⟨r, hr, hserves⟩ := (reach_write hgood hquiet hrefused hok hwrite).serves hrefused
      rcases hr with ⟨⟨err, herr⟩, _⟩ | hr
      · exact ⟨_, _, _, _, _, hserves _ herr⟩
      · exact ⟨_, _, _, _, _, hserves _ hr.act⟩
    · rw [Bool.not_eq_true] at hwrite
      obtain ⟨r, hr, hserves⟩ := (reach_read hgood hrefused hok.1.1 hwrite).serves hrefused
      exact ⟨_, _, _, _, _, hserves _ hr.act⟩
  · exact ⟨_, _, _, _, _, .refused hrefused⟩

/-- Without failures no access fails. -/
lemma Serves.not_failed (h : Serves c noFailures req s f ret s' f' buf failed) :
    failed = false := by
  cases h with
  | refused _ => rfl
  | @served n r _ _ hrun _ =>
    have hiterate : ∀ n, ((Run.step c noFailures)^[n] (req.start c s f)).failed = false := by
      intro n
      induction n with
      | zero => rfl
      | succ n ih =>
        rw [Function.iterate_succ_apply', ← ih]
        generalize (Run.step c noFailures)^[n] (req.start c s f) = r
        rw [Run.step]
        rcases r.act with op | _ | _ | _ | _ | _ <;> rfl
    rw [← hrun]
    exact hiterate n

lemma ErrorsKept.serves (hok : ErrorsKept c s f noFailures req) (hgood : Good c owner P s f)
    (hquiet : Quiet s) (hrefused : req.refused c = none) :
    (∃ ret s' f' buf failed, Serves c noFailures req s f ret s' f' buf failed) ∧
      ∀ ret s' f' buf failed, Serves c noFailures req s f ret s' f' buf failed →
        ret = none ∧ (req.isWrite = false →
          HasRead P buf req.sector (req.sector + req.nbSectors)) := by
  refine ⟨exists_serves hgood hquiet fun _ => hok, fun ret s' f' buf failed hserves => ?_⟩
  have houtcome := hserves.outcome hgood hquiet fun _ => hok
  have hret := houtcome.success hrefused hserves.not_failed
  exact ⟨hret, houtcome.data hret⟩

/-! ## Read after write -/

lemma mayHold_snoc (x : Request × Option Errno) :
    mayHold c f₀ (history ++ [x]) = mayHoldAfter (mayHold c f₀ history) x := by
  rw [mayHold, foldl_append]
  rfl

lemma Harmless.errorsKept (h : Harmless c f req) (hrefused : req.refused c = none)
    (hagrees : ∀ cluster, cluster / c.g.tableNelems < c.g.tableNelems → Agrees c s f cluster) :
    ErrorsKept c s f noFailures req :=
  ⟨h, fun _ => ⟨fun cluster _ hlt => hagrees cluster (cluster_lt (within hrefused) hlt),
    fun _ _ _ hfails => by cases hfails⟩⟩

/-- Without failures the tables in memory stay in step with those in the file. -/
lemma Session.agrees (hf : Consistent c owner f₀)
    (h : Session c (fun _ f fails req => fails = noFailures ∧ Harmless c f req) f₀ history s f)
    (hsuccess : ∀ x ∈ history, x.2 = none) :
    (∃ owner, Good c owner (mayHold c f₀ history) s f) ∧ Quiet s ∧
      ∀ cluster, cluster / c.g.tableNelems < c.g.tableNelems → Agrees c s f cluster := by
  induction h with
  | opened =>
    obtain ⟨_, hgood, hagrees, hquiet⟩ := bdrvQedOpen_consistent hf
    exact ⟨⟨owner, hgood⟩, hquiet, fun cluster _ => hagrees cluster⟩
  | @serve history s s' f f' fails req ret buf failed _ hok hserves ih =>
    obtain ⟨⟨owner', hgood⟩, hquiet, hagrees⟩ := ih fun x hx => hsuccess x (mem_append_left _ hx)
    obtain ⟨rfl, hharmless⟩ := hok
    obtain rfl : ret = none := hsuccess (req, ret) (by simp)
    have houtcome := hserves.outcome hgood hquiet fun hrefused =>
      hharmless.errorsKept hrefused hagrees
    rw [mayHold_snoc]
    exact ⟨houtcome.good, houtcome.quiet,
      fun cluster hcl => houtcome.agrees rfl cluster hcl (hagrees cluster hcl)⟩

lemma Serves.of_result (n : ℕ) (hrefused : req.refused c = none)
    (h : (req.run c fails n s f).result = some ret) :
    Serves c fails req s f ret (aioComplete (req.run c fails n s f).s (req.run c fails n s f).acb).1
      (req.run c fails n s f).f (req.run c fails n s f).acb.qiov
        (req.run c fails n s f).failed := by
  refine .served (n := n) hrefused rfl ?_
  unfold Run.result at h
  split at h
  · next ret' hact => exact hact.trans (by rw [Option.some.inj h])
  · cases h

/-- An image with tables of two clusters. -/
def smallGeometry : Geometry := ⟨4096, 2, 1, 4096, 65536, by decide, by decide, by decide⟩

/-- Nothing is allocated but the header and the L1 table. -/
def emptyFile : File := ⟨false, fun _ => zeroSector, 24⟩

def emptyOwner (k : ℕ) : Use := if k = 0 then .header else if k < 3 then .l1 else .free

lemma consistent_of_empty {g : Geometry} (backing : Option Backing) (htable : g.tableSize = 2)
    (hheader : g.headerSize = 1) (hl1 : g.l1TableOffset = g.clusterSize) :
    Consistent ⟨g, backing⟩ emptyOwner ⟨false, fun _ => zeroSector, 3 * g.spc⟩ := by
  have hpos := g.clusterSize_pos
  have hsize : g.startOfCluster (3 * g.spc * 512) = g.clusterSize * 3 := by
    rw [show 3 * g.spc * 512 = 3 * g.clusterSize by rw [g.clusterSize_eq]; ring,
      Geometry.startOfCluster, Nat.mul_div_cancel _ hpos, Nat.mul_comm]
  refine ⟨⟨⟨3, hsize⟩, fun k hk => ?_, fun k => ?_, by rw [hheader]; exact Nat.one_pos, htable.ge,
    ⟨1, by rw [hl1, Nat.mul_one]⟩, fun k hk => ?_⟩, fun j _ => .inl rfl,
    fun j _ hne => absurd rfl hne⟩
  · have hk' : k + 1 ≤ 3 := by
      unfold emptyOwner at hk
      split_ifs at hk <;> first | omega | exact absurd rfl hk
    show (k + 1) * g.clusterSize ≤ g.startOfCluster (3 * g.spc * 512)
    rw [hsize, Nat.mul_comm]
    exact Nat.mul_le_mul_left _ hk'
  · show emptyOwner k = .header ↔ k < g.headerSize
    rw [hheader]
    unfold emptyOwner
    split_ifs <;> (simp; omega)
  · have hk' : k < 2 := by rwa [← htable]
    show emptyOwner (g.l1TableOffset / g.clusterSize + k) = .l1
    rw [hl1, Nat.div_self hpos]
    unfold emptyOwner
    rw [if_neg (by omega), if_pos (by omega)]

lemma emptyFile_consistent (backing : Option Backing) :
    Consistent ⟨smallGeometry, backing⟩ emptyOwner emptyFile :=
  consistent_of_empty backing rfl rfl rfl

lemma emptyFile_harmless {backing : Option Backing}
    (hfits : Fits smallGeometry (512 * req.sector) (512 * req.nbSectors)) :
    Harmless ⟨smallGeometry, backing⟩ emptyFile req :=
  ⟨hfits, fun _ _ _ hentry => by cases hentry⟩

def Request.Covers (req : Request) (q : ℕ) : Prop :=
  req.isWrite = true ∧ req.sector ≤ q ∧ q < req.sector + req.nbSectors

/-- A session keeps the image good. -/
lemma Session.good (hf : Consistent c owner f₀) (h : Session c (ErrorsKept c) f₀ history s f) :
    (∃ owner, Good c owner (mayHold c f₀ history) s f) ∧ Quiet s := by
  induction h with
  | opened =>
    obtain ⟨_, hgood, _, hquiet⟩ := bdrvQedOpen_consistent hf
    exact ⟨⟨owner, hgood⟩, hquiet⟩
  | serve _ hok hserves ih =>
    obtain ⟨⟨owner', hgood⟩, hquiet⟩ := ih
    have houtcome := hserves.outcome hgood hquiet fun _ => hok
    rw [mayHold_snoc]
    exact ⟨houtcome.good, houtcome.quiet⟩

def alone : Context := ⟨smallGeometry, none⟩

/-- Writes of data fail. -/
def dataFails : Failures := fun _ op =>
  match op with
  | .write .writeAio _ _ _ => some 0
  | _ => none

/-- A sector is written to a new cluster, in vain. -/
def unwritten : Run :=
  (write 0 1 fun _ _ => 5).run alone dataFails 10 (openImage alone emptyFile) emptyFile

lemma unwritten_session : Session alone (ErrorsKept alone) emptyFile
    [(.write 0 1 fun _ _ => 5, some .access)]
    (aioComplete unwritten.s unwritten.acb).1 unwritten.f := by
  have hserves : Serves alone dataFails (.write 0 1 fun _ _ => 5) _ _ _ _ _ _ _ :=
    .of_result 10 (by decide) (show unwritten.result = some (some .access) by decide +kernel)
  have hkept : Kept alone dataFails false (openImage alone emptyFile).fileSize := by
    intro k op m hfails
    refine ⟨fun _ _ _ _ hbacking => (by cases hbacking), fun _ hop => ?_⟩
    subst hop
    cases hfails
  exact .serve .opened
    ⟨emptyFile_harmless (by decide), fun _ => ⟨fun _ _ _ => openImage_agrees _ _, hkept⟩⟩ hserves

/-- Writes of the header fail. -/
def headerFails : Failures := fun _ op =>
  match op with
  | .writeHeader _ => some 0
  | _ => none

def unmarked : Run :=
  (write 0 1 fun _ _ => 5).run alone headerFails 10 (openImage alone emptyFile) emptyFile

/-- An allocated cluster belongs to one cluster of the guest. -/
lemma Consistent.owner_fileEntry (h : Consistent c owner f) {k : ℕ}
    (hk : k < c.g.tableNelems * c.g.tableNelems) (halloc : 1 < fileEntry c f k) :
    owner (fileEntry c f k / c.g.clusterSize) = .data k := by
  have hi := Nat.mod_lt k c.g.tableNelems_pos
  have hj : k / c.g.tableNelems < c.g.tableNelems := Nat.div_lt_of_lt_mul hk
  rw [fileEntry] at halloc ⊢
  split_ifs at halloc ⊢ with hzero
  · omega
  · have hentry := (h.l2 _ hj hzero _ hi).allocated (by omega) (by omega)
    rw [hentry.2, Nat.div_add_mod']

/-- **The image file is consistent after every request**, whatever has failed: no two clusters of
the guest share a cluster of the file, and the check at the next opening changes nothing that the
guest sees. -/
theorem session_consistent (hf : Consistent c owner f₀)
    (h : Session c (ErrorsKept c) f₀ history s f) :
    (∃ owner, Consistent c owner f) ∧
      (∀ k < c.g.tableNelems * c.g.tableNelems, ∀ k' < c.g.tableNelems * c.g.tableNelems,
        1 < fileEntry c f k → fileEntry c f k = fileEntry c f k' → k = k') ∧
      ∀ q, imageSector c (bdrvQedOpen c f).2 q = imageSector c f q := by
  obtain ⟨⟨owner', hgood⟩, -⟩ := Session.good hf h
  have hcons := hgood.consistent
  refine ⟨⟨owner', hcons⟩, fun k hk k' hk' halloc heq => ?_, fun q => ?_⟩
  · have howner := hcons.owner_fileEntry hk halloc
    rw [heq] at halloc howner
    rw [hcons.owner_fileEntry hk' halloc] at howner
    exact (Use.data.inj howner).symm
  · obtain ⟨⟨needCheck, hopen⟩, -⟩ := bdrvQedOpen_consistent hcons
    rw [hopen]
    rfl

/-- The file whose data write has failed. -/
theorem unwritten_consistent :
    unwritten.failed = true ∧ (∃ owner, Consistent alone owner unwritten.f) ∧
    ∀ q, imageSector alone (bdrvQedOpen alone unwritten.f).2 q =
      imageSector alone unwritten.f q := by
  obtain ⟨hcons, -, hopen⟩ := session_consistent (emptyFile_consistent none) unwritten_session
  exact ⟨by decide +kernel, hcons, hopen⟩

end Qemu.Qed
