import Mathlib.Logic.Function.Basic
import Mathlib.Tactic

/-!
# Block migration

`block-migration.c` sends block devices in chunks while the guest goes on writing.  A bulk phase
reads each chunk once; then the dirty chunks are read again.  Reads are asynchronous: the dirty mark
is cleared when a read is submitted, and the data is queued when it completes and sent later.  When
the guest has been stopped, what is queued and the remaining dirty chunks are sent.

A write of the guest changes sectors at any time before it completes, and marks its chunks dirty
when it completes.  A read of a chunk that was being written in the meantime may return anything.

**Main results:**
* `Transfer.step` — under `SingleRead`, a chunk that is neither dirty nor being written is on its
  way or has been received as it is.
* `Completion.step` — under `LeftDirty`, the last round sends what has not been sent.
* `migration_complete` — in each run that meets the two conditions the destination is equal to the
  source when the migration has completed.
-/

namespace Qemu.Block.Migration

open List Function

variable {ι α : Type}

/-! ## Chunks -/

/-- The chunk of a sector; `BDRV_SECTORS_PER_DIRTY_CHUNK` is 2048. -/
def chunk (sector : ℕ) : ℕ := sector / 2048

/-- Sectors of a device. -/
structure Extent (ι : Type) where
  dev : ι
  sector : ℕ
  nb : ℕ

variable {d : ι} {e : Extent ι} {x : ℕ}

namespace Extent

/-- The chunks that `set_dirty_bitmap` goes through. -/
def Touches (e : Extent ι) (d : ι) (k : ℕ) : Prop :=
  e.dev = d ∧ chunk e.sector ≤ k ∧ k ≤ chunk (e.sector + e.nb - 1)

def Has (e : Extent ι) (d : ι) (x : ℕ) : Prop := e.dev = d ∧ e.sector ≤ x ∧ x < e.sector + e.nb

instance [DecidableEq ι] (e : Extent ι) (d : ι) (k : ℕ) : Decidable (e.Touches d k) :=
  inferInstanceAs (Decidable (_ ∧ _ ∧ _))

instance [DecidableEq ι] (e : Extent ι) (d : ι) (x : ℕ) : Decidable (e.Has d x) :=
  inferInstanceAs (Decidable (_ ∧ _ ∧ _))

lemma Has.touches (h : e.Has d x) : e.Touches d (chunk x) := by
  obtain ⟨hdev, hle, hlt⟩ := h
  refine ⟨hdev, ?_, ?_⟩ <;> unfold chunk <;> omega

end Extent

/-- The devices that are migrated (`bmds_list`), with their lengths in sectors. -/
structure Devices (ι : Type) where
  list : List ι
  totalSectors : ι → ℕ

/-- The sectors of the chunk that begins at `sector`, as far as the device goes. -/
def Devices.chunkAt (devs : Devices ι) (d : ι) (sector : ℕ) : Extent ι :=
  ⟨d, sector, min 2048 (devs.totalSectors d - sector)⟩

/-- An asynchronous read; it is tainted if its chunk has been written to since it was submitted. -/
structure Read (ι : Type) extends Extent ι where
  tainted : Bool

/-- A `BlkMigBlock` whose data has been read. -/
structure BlkMigBlock (ι α : Type) extends Extent ι where
  buf : ℕ → α

/-! ## The state -/

/-- Between two calls, in `block_save_iterate`, or in `block_save_complete`. -/
inductive Phase
  | idle
  | flushFirst
  | loop
  | flushLast
  | completeFlush
  | completeScan
  | done
deriving DecidableEq

def Phase.Live : Phase → Prop
  | .idle | .flushFirst | .loop | .flushLast => True
  | _ => False

/-- The phases in which `flush_blks` runs. -/
def Phase.Flushing : Phase → Prop
  | .flushFirst | .flushLast | .completeFlush => True
  | _ => False

/-- The contents of both ends, where the destination has written what was sent; the bitmaps; the
writes and reads in flight; the queue of blocks (`blk_list`); the cursors. -/
structure State (ι α : Type) where
  src : ι → ℕ → α
  dst : ι → ℕ → α
  dirty : ι → ℕ → Bool
  aioInflight : ι → ℕ → Bool
  writes : List (Extent ι)
  reads : List (Read ι)
  blkList : List (BlkMigBlock ι α)
  curSector : ι → ℕ
  curDirty : ι → ℕ
  bulkDone : ι → Bool
  bulkCompleted : Bool
  phase : Phase

def State.Writing (s : State ι α) (d : ι) (k : ℕ) : Prop := ∃ w ∈ s.writes, w.Touches d k

section Operations

variable [DecidableEq ι]

/-- `set_dirty_bitmap` and `bmds_set_aio_inflight`. -/
def setBitmap (bitmap : ι → ℕ → Bool) (e : Extent ι) (b : Bool) : ι → ℕ → Bool :=
  fun d k => if e.Touches d k then b else bitmap d k

def store (disk : ι → ℕ → α) (b : BlkMigBlock ι α) : ι → ℕ → α :=
  fun d x => if b.Has d x then b.buf x else disk d x

namespace State

variable (s : State ι α)

/-- The contents of the destination when all that is queued has been sent. -/
def received : ι → ℕ → α := s.blkList.foldl store s.dst

def beginWrite (w : Extent ι) : State ι α :=
  { s with
    writes := w :: s.writes
    reads := s.reads.map fun r =>
      { r with tainted := r.tainted || decide (w.Touches r.dev (chunk r.sector)) } }

def changeSector (d : ι) (x : ℕ) (v : α) : State ι α :=
  { s with src := fun d' x' => if d' = d ∧ x' = x then v else s.src d' x' }

/-- A write completes; `writes` are the others. -/
def endWrite (w : Extent ι) (writes : List (Extent ι)) : State ι α :=
  { s with writes := writes, dirty := setBitmap s.dirty w true }

/-- `blk_mig_read_cb`; `reads` are the other reads. -/
def blkMigReadCb (r : Read ι) (reads : List (Read ι)) (buf : ℕ → α) : State ι α :=
  { s with
    reads := reads
    blkList := s.blkList ++ [⟨r.toExtent, buf⟩]
    aioInflight := setBitmap s.aioInflight r.toExtent false }

def submitRead (e : Extent ι) : State ι α :=
  { s with
    reads := ⟨e, s.writes.any fun w => decide (w.Touches e.dev (chunk e.sector))⟩ :: s.reads
    dirty := setBitmap s.dirty e false }

/-- `mig_save_device_bulk` of a device whose base is not shared. -/
def migSaveDeviceBulk (devs : Devices ι) (d : ι) : State ι α :=
  let total := devs.totalSectors d
  if total ≤ s.curSector d then
    { s with
      curSector := update s.curSector d total
      bulkDone := update s.bulkDone d true }
  else
    let sector := s.curSector d / 2048 * 2048
    let e := devs.chunkAt d sector
    { s.submitRead e with
      curSector := update s.curSector d (sector + e.nb)
      bulkDone := update s.bulkDone d (decide (total ≤ sector + e.nb)) }

/-- One round of the loop of `mig_save_device_dirty` with `is_async`. -/
def migSaveDeviceDirty (devs : Devices ι) (d : ι) : State ι α :=
  let sector := s.curDirty d
  if s.dirty d (chunk sector) = true then
    let e := devs.chunkAt d sector
    { s.submitRead e with aioInflight := setBitmap s.aioInflight e true }
  else { s with curDirty := update s.curDirty d (sector + 2048) }

/-- One round of the loop of `mig_save_device_dirty` without `is_async`. -/
def migSaveDeviceDirtySync (devs : Devices ι) (d : ι) : State ι α :=
  let sector := s.curDirty d
  if s.dirty d (chunk sector) = true then
    let e := devs.chunkAt d sector
    { s with dst := store s.dst ⟨e, s.src d⟩, dirty := setBitmap s.dirty e false }
  else { s with curDirty := update s.curDirty d (sector + 2048) }

/-- `blk_mig_reset_dirty_cursor`. -/
def blkMigResetDirtyCursor : State ι α := { s with curDirty := fun _ => 0 }

end State

/-- `flush_blks` sends the first block of the queue. -/
def State.sendFirst (s : State ι α) (b : BlkMigBlock ι α) (rest : List (BlkMigBlock ι α)) :
    State ι α :=
  { s with blkList := rest, dst := store s.dst b }

/-! ## Runs -/

/-- No read of the chunk that begins at `sector` is in flight. -/
def SingleRead (s : State ι α) (d : ι) (sector : ℕ) : Prop :=
  ∀ r ∈ s.reads, ¬ (r.dev = d ∧ r.sector = sector)

/-- Each block that is still queued is of a chunk that is dirty. -/
def LeftDirty (s : State ι α) : Prop :=
  ∀ b ∈ s.blkList, s.dirty b.dev (chunk b.sector) = true

/-- The steps of the guest, of the reads and of the migration.  The main loop may run at any time
before the guest is stopped.  `submit` restricts the dirty chunks that are read, `drop` the states
in which the last `flush_blks` may stop. -/
inductive Step (devs : Devices ι) (submit : State ι α → ι → ℕ → Prop) (drop : State ι α → Prop) :
    State ι α → State ι α → Prop
  | beginWrite {s : State ι α} (w : Extent ι) (hlive : s.phase.Live) :
      Step devs submit drop s (s.beginWrite w)
  | changeSector {s : State ι α} {w : Extent ι} {d : ι} {x : ℕ} (v : α) (hlive : s.phase.Live)
      (hw : w ∈ s.writes) (hx : w.Has d x) : Step devs submit drop s (s.changeSector d x v)
  | endWrite {s : State ι α} {w : Extent ι} {before after : List (Extent ι)}
      (hlive : s.phase.Live) (hw : s.writes = before ++ w :: after) :
      Step devs submit drop s (s.endWrite w (before ++ after))
  | endRead {s : State ι α} {r : Read ι} {before after : List (Read ι)} (buf : ℕ → α)
      (hlive : s.phase.Live) (hr : s.reads = before ++ r :: after)
      (hbuf : r.tainted = false → ∀ x, r.Has r.dev x → buf x = s.src r.dev x) :
      Step devs submit drop s (s.blkMigReadCb r (before ++ after) buf)
  /-- `block_save_iterate` is called. -/
  | iterate {s : State ι α} (h : s.phase = .idle) :
      Step devs submit drop s { s with phase := .flushFirst }
  | send {s : State ι α} {b : BlkMigBlock ι α} {rest : List (BlkMigBlock ι α)}
      (h : s.phase.Flushing)
      (hlist : s.blkList = b :: rest) : Step devs submit drop s (s.sendFirst b rest)
  /-- The queue is empty, or the rate limit is reached. -/
  | stopFirst {s : State ι α} (h : s.phase = .flushFirst) :
      Step devs submit drop s { s.blkMigResetDirtyCursor with phase := .loop }
  | bulk {s : State ι α} {d : ι} {before after : List ι} (h : s.phase = .loop)
      (hbulk : s.bulkCompleted = false) (hlist : devs.list = before ++ d :: after)
      (hbefore : ∀ e ∈ before, s.bulkDone e = true) (hdone : s.bulkDone d = false) :
      Step devs submit drop s (s.migSaveDeviceBulk devs d)
  | bulkEnd {s : State ι α} (h : s.phase = .loop) (hbulk : s.bulkCompleted = false)
      (hdone : ∀ d ∈ devs.list, s.bulkDone d = true) :
      Step devs submit drop s { s with bulkCompleted := true }
  /-- If a read of the chunk is known to be in flight, all I/O is drained first. -/
  | scan {s : State ι α} {d : ι} {before after : List ι} (h : s.phase = .loop)
      (hbulk : s.bulkCompleted = true) (hlist : devs.list = before ++ d :: after)
      (hbefore : ∀ e ∈ before, devs.totalSectors e ≤ s.curDirty e)
      (hlt : s.curDirty d < devs.totalSectors d)
      (hdrain : s.aioInflight d (chunk (s.curDirty d)) = false ∨ (s.reads = [] ∧ s.writes = []))
      (hsubmit : s.dirty d (chunk (s.curDirty d)) = true → submit s d (s.curDirty d)) :
      Step devs submit drop s (s.migSaveDeviceDirty devs d)
  /-- The rate limit is reached, or there are no dirty blocks. -/
  | leave {s : State ι α} (h : s.phase = .loop) :
      Step devs submit drop s { s with phase := .flushLast }
  | stopLast {s : State ι α} (h : s.phase = .flushLast) :
      Step devs submit drop s { s with phase := .idle }
  /-- `block_save_complete`, when the bulk phase is over, the guest is stopped and all I/O is
  drained. -/
  | complete {s : State ι α} (h : s.phase = .idle) (hbulk : s.bulkCompleted = true)
      (hreads : s.reads = []) (hwrites : s.writes = []) :
      Step devs submit drop s { s with phase := .completeFlush }
  | stopComplete {s : State ι α} (h : s.phase = .completeFlush) (hdrop : drop s) :
      Step devs submit drop s { s.blkMigResetDirtyCursor with phase := .completeScan }
  | scanSync {s : State ι α} {d : ι} {before after : List ι} (h : s.phase = .completeScan)
      (hlist : devs.list = before ++ d :: after)
      (hbefore : ∀ e ∈ before, devs.totalSectors e ≤ s.curDirty e)
      (hlt : s.curDirty d < devs.totalSectors d) :
      Step devs submit drop s (s.migSaveDeviceDirtySync devs d)
  /-- `blk_mig_cleanup` frees what is queued. -/
  | cleanup {s : State ι α} (h : s.phase = .completeScan)
      (hend : ∀ d ∈ devs.list, devs.totalSectors d ≤ s.curDirty d) :
      Step devs submit drop s { s with blkList := [], phase := .done }

/-- The state behind `block_save_setup`: nothing is marked, and writes may be in flight. -/
def State.init (src dst : ι → ℕ → α) (writes : List (Extent ι)) : State ι α :=
  ⟨src, dst, fun _ _ => false, fun _ _ => false, writes, [], [], fun _ => 0, fun _ => 0,
    fun _ => false, false, .idle⟩

inductive Reachable (devs : Devices ι) (submit : State ι α → ι → ℕ → Prop)
    (drop : State ι α → Prop) : State ι α → Prop
  | init (src dst : ι → ℕ → α) (writes : List (Extent ι)) :
      Reachable devs submit drop (State.init src dst writes)
  | step {s s' : State ι α} (h : Reachable devs submit drop s)
      (hstep : Step devs submit drop s s') : Reachable devs submit drop s'

end Operations

/-! ## Whole chunks -/

/-- An extent that is a whole chunk of a device. -/
structure Extent.Whole (devs : Devices ι) (e : Extent ι) : Prop where
  dvd : 2048 ∣ e.sector
  lt : e.sector < devs.totalSectors e.dev
  nb : e.nb = min 2048 (devs.totalSectors e.dev - e.sector)

lemma Extent.Whole.touches_iff {devs : Devices ι} (h : e.Whole devs) (d : ι) (k : ℕ) :
    e.Touches d k ↔ e.dev = d ∧ chunk e.sector = k := by
  obtain ⟨hdvd, hlt, hnb⟩ := h
  refine and_congr_right fun _ => ?_
  unfold chunk
  omega

lemma Extent.Whole.touches_iff_has {devs : Devices ι} (h : e.Whole devs)
    (hx : x < devs.totalSectors d) :
    e.Touches d (chunk x) ↔ e.Has d x := by
  rw [h.touches_iff]
  obtain ⟨hdvd, hlt, hnb⟩ := h
  refine and_congr_right fun hdev => ?_
  subst hdev
  unfold chunk
  omega

lemma Devices.whole_chunkAt {devs : Devices ι} {sector : ℕ} (hdvd : 2048 ∣ sector)
    (hlt : sector < devs.totalSectors d) : (devs.chunkAt d sector).Whole devs :=
  ⟨hdvd, hlt, rfl⟩

/-! ## Transfers -/

section Transfer

variable [DecidableEq ι]

/-- A sector of a chunk that is neither dirty nor being written: reads in flight will return it as
it is, or else it has been queued or sent as it is. -/
def Fresh (s : State ι α) (d : ι) (x : ℕ) : Prop :=
  s.dirty d (chunk x) = false → ¬ s.Writing d (chunk x) →
    (∀ r ∈ s.reads, r.Touches d (chunk x) → r.tainted = false) ∧
    ((∀ r ∈ s.reads, ¬ r.Touches d (chunk x)) → s.received d x = s.src d x)

/-- What holds while chunks are transferred. -/
structure Transfer (devs : Devices ι) (s : State ι α) : Prop where
  fresh : ∀ d x, x < devs.totalSectors d → x < s.curSector d → Fresh s d x
  reads : ∀ r ∈ s.reads, r.Whole devs ∧ r.sector < s.curSector r.dev
  single : s.reads.Pairwise fun r r' => ¬ (r.dev = r'.dev ∧ r.sector = r'.sector)
  blocks : ∀ b ∈ s.blkList, b.Whole devs
  cursor : ∀ d, s.curSector d ≤ devs.totalSectors d ∧
    (s.curSector d = devs.totalSectors d ∨ 2048 ∣ s.curSector d)
  bulkDone : ∀ d, s.bulkDone d = true → s.curSector d = devs.totalSectors d
  bulk : s.bulkCompleted = true → ∀ d ∈ devs.list, s.curSector d = devs.totalSectors d
  aligned : ∀ d, 2048 ∣ s.curDirty d

lemma foldl_store_append (disk : ι → ℕ → α) (blocks : List (BlkMigBlock ι α))
    (b : BlkMigBlock ι α) :
    (blocks ++ [b]).foldl store disk = store (blocks.foldl store disk) b := by
  rw [foldl_append, foldl_cons, foldl_nil]

variable {b : BlkMigBlock ι α} {rest : List (BlkMigBlock ι α)}

namespace Transfer

variable {devs : Devices ι} {s : State ι α}

lemma init (devs : Devices ι) (src dst : ι → ℕ → α) (writes : List (Extent ι)) :
    Transfer devs (State.init src dst writes) where
  fresh := fun d x _ hx => absurd hx (Nat.not_lt_zero x)
  reads := by simp [State.init]
  single := by simp [State.init]
  blocks := by simp [State.init]
  cursor := fun d => ⟨Nat.zero_le _, Or.inr (dvd_zero 2048)⟩
  bulkDone := nofun
  bulk := nofun
  aligned := fun d => dvd_zero 2048

lemma setPhase (h : Transfer devs s) (p : Phase) : Transfer devs { s with phase := p } :=
  { h with }

lemma setCurDirty (h : Transfer devs s) {curDirty : ι → ℕ} (hdvd : ∀ d, 2048 ∣ curDirty d) :
    Transfer devs { s with curDirty := curDirty } :=
  { h with aligned := hdvd }

lemma beginWrite (h : Transfer devs s) (w : Extent ι) : Transfer devs (s.beginWrite w) where
  __ := h
  fresh := by
    intro d x hx hcur hdirty hwriting
    have hold := h.fresh d x hx hcur hdirty
      fun ⟨w', hw', htouch⟩ => hwriting ⟨w', mem_cons_of_mem w hw', htouch⟩
    have hno : ¬ w.Touches d (chunk x) := fun htouch => hwriting ⟨w, mem_cons_self, htouch⟩
    refine ⟨fun r hr htouch => ?_, fun hnone => hold.2 fun r hr htouch => ?_⟩
    · obtain ⟨r', hr', rfl⟩ := mem_map.mp hr
      have hchunk := ((h.reads r' hr').1.touches_iff d (chunk x)).mp htouch
      simp only [Bool.or_eq_false_iff, decide_eq_false_iff_not]
      exact ⟨hold.1 r' hr' htouch, by rwa [hchunk.1, hchunk.2]⟩
    · exact hnone _ (mem_map_of_mem hr) htouch
  reads := by
    intro r hr
    obtain ⟨r', hr', rfl⟩ := mem_map.mp hr
    exact h.reads r' hr'
  single := by
    refine pairwise_map.mpr (h.single.imp ?_)
    exact id

lemma changeSector (h : Transfer devs s) {w : Extent ι} (v : α) (hw : w ∈ s.writes)
    (hx : w.Has d x) :
    Transfer devs (s.changeSector d x v) where
  __ := h
  fresh := by
    intro d' x' hx' hcur hdirty hwriting
    have hold := h.fresh d' x' hx' hcur hdirty hwriting
    refine ⟨hold.1, fun hnone => ?_⟩
    have hother : ¬ (d' = d ∧ x' = x) := by
      rintro ⟨rfl, rfl⟩
      exact hwriting ⟨w, hw, hx.touches⟩
    simp only [State.changeSector, if_neg hother]
    exact hold.2 hnone

lemma endWrite (h : Transfer devs s) {w : Extent ι} {before after : List (Extent ι)}
    (hw : s.writes = before ++ w :: after) : Transfer devs (s.endWrite w (before ++ after)) where
  __ := h
  fresh := by
    intro d x hx hcur hdirty hwriting
    simp only [State.endWrite, setBitmap] at hdirty
    split_ifs at hdirty with htouch
    refine h.fresh d x hx hcur hdirty ?_
    rintro ⟨w', hw', htouch'⟩
    rw [hw, mem_append, mem_cons] at hw'
    rcases hw' with hmem | rfl | hmem
    · exact hwriting ⟨w', mem_append_left after hmem, htouch'⟩
    · exact htouch htouch'
    · exact hwriting ⟨w', mem_append_right before hmem, htouch'⟩

/-- A read that completes is the only one of its chunk, so its data is what arrives last. -/
lemma endRead (h : Transfer devs s) {r : Read ι} {before after : List (Read ι)} {buf : ℕ → α}
    (hr : s.reads = before ++ r :: after)
    (hbuf : r.tainted = false → ∀ x, r.Has r.dev x → buf x = s.src r.dev x) :
    Transfer devs (s.blkMigReadCb r (before ++ after) buf) where
  __ := h
  fresh := by
    intro d x hx hcur hdirty hwriting
    have hold := h.fresh d x hx hcur hdirty hwriting
    have hmem : ∀ r' ∈ before ++ after, r' ∈ s.reads := by
      intro r' hr'
      rw [hr]
      simp only [mem_append, mem_cons] at hr' ⊢
      tauto
    have hwhole := (h.reads r (by simp [hr])).1
    refine ⟨fun r' hr' => hold.1 r' (hmem r' hr'), fun hnone => ?_⟩
    simp only [State.received, State.blkMigReadCb, foldl_store_append, store]
    split_ifs with hhas
    · obtain rfl := hhas.1
      exact hbuf (hold.1 r (by simp [hr]) hhas.touches) x hhas
    refine hold.2 fun r' hr' htouch => ?_
    rw [hr, mem_append, mem_cons] at hr'
    rcases hr' with hmem' | rfl | hmem'
    · exact hnone r' (mem_append_left after hmem') htouch
    · exact hhas ((hwhole.touches_iff_has hx).mp htouch)
    · exact hnone r' (mem_append_right before hmem') htouch
  reads := by
    intro r' hr'
    refine h.reads r' ?_
    rw [hr]
    rcases mem_append.mp hr' with hmem | hmem <;> simp [hmem]
  single := by
    have hsub : (before ++ after).Sublist s.reads := by
      rw [hr]
      exact List.Sublist.append_left (sublist_cons_self r after) before
    exact h.single.sublist hsub
  blocks := by
    intro b hb
    rcases mem_append.mp hb with hmem | hmem
    · exact h.blocks b hmem
    · obtain rfl := mem_singleton.mp hmem
      exact (h.reads r (by simp [hr])).1

lemma received_sendFirst (hlist : s.blkList = b :: rest) :
    (s.sendFirst b rest).received = s.received := by
  rw [State.received, State.received, hlist]
  rfl

lemma sendFirst (h : Transfer devs s) (hlist : s.blkList = b :: rest) :
    Transfer devs (s.sendFirst b rest) where
  __ := h
  fresh := by
    intro d x hx hcur hdirty hwriting
    rw [received_sendFirst hlist]
    exact h.fresh d x hx hcur hdirty hwriting
  blocks := fun b' hb' => h.blocks b' (by rw [hlist]; exact mem_cons_of_mem b hb')

lemma fresh_submitRead (hwhole : e.Whole devs) (hsingle : SingleRead s e.dev e.sector)
    (hreads : ∀ r ∈ s.reads, r.Whole devs) (hold : ¬ e.Touches d (chunk x) → Fresh s d x) :
    Fresh (s.submitRead e) d x := by
  intro hdirty hwriting
  by_cases htouch : e.Touches d (chunk x)
  · -- the chunk of the read: it is the only read, and is untainted as nobody writes the chunk
    obtain ⟨rfl, hchunk⟩ := (hwhole.touches_iff d (chunk x)).mp htouch
    refine ⟨fun r hr hr' => ?_, fun hnone => absurd htouch (hnone _ mem_cons_self)⟩
    rcases mem_cons.mp hr with rfl | hmem
    · simp only [any_eq_false, decide_eq_true_eq, hchunk]
      exact fun w hw hw' => hwriting ⟨w, hw, hw'⟩
    obtain ⟨hdev, hsector⟩ := ((hreads r hmem).touches_iff _ _).mp hr'
    refine absurd ⟨hdev, ?_⟩ (hsingle r hmem)
    have := (hreads r hmem).dvd
    have := hwhole.dvd
    unfold chunk at hsector hchunk
    omega
  · have hdirty' : s.dirty d (chunk x) = false := by
      simpa [State.submitRead, setBitmap, htouch] using hdirty
    obtain ⟨hclean, hnone⟩ := hold htouch hdirty' hwriting
    refine ⟨fun r hr hr' => ?_, fun hno => hnone fun r hr => hno r (mem_cons_of_mem _ hr)⟩
    rcases mem_cons.mp hr with rfl | hmem
    · exact absurd hr' htouch
    · exact hclean r hmem hr'

lemma submitRead_single (h : Transfer devs s) (hsingle : SingleRead s e.dev e.sector) :
    (s.submitRead e).reads.Pairwise fun r r' => ¬ (r.dev = r'.dev ∧ r.sector = r'.sector) := by
  refine pairwise_cons.mpr ⟨fun r hr heq => ?_, h.single⟩
  exact hsingle r hr ⟨heq.1.symm, heq.2.symm⟩

/-- In the bulk phase each chunk is read for the first time. -/
lemma migSaveDeviceBulk (h : Transfer devs s) (d : ι) (hbulk : s.bulkCompleted = false) :
    Transfer devs (s.migSaveDeviceBulk devs d) := by
  obtain ⟨hle, hcursor⟩ := h.cursor d
  simp only [State.migSaveDeviceBulk]
  split_ifs with htotal
  · have hsame : update s.curSector d (devs.totalSectors d) = s.curSector := by
      rw [update_eq_self_iff]
      omega
    rw [hsame]
    refine { h with bulkDone := fun d' hd' => ?_ }
    by_cases hdd : d' = d
    · subst hdd
      exact Nat.le_antisymm hle htotal
    · exact h.bulkDone d' (by simpa [update_of_ne hdd] using hd')
  have hdvd : 2048 ∣ s.curSector d := by omega
  have hsector : s.curSector d / 2048 * 2048 = s.curSector d := Nat.div_mul_cancel hdvd
  simp only [hsector]
  have hwhole : (devs.chunkAt d (s.curSector d)).Whole devs :=
    Devices.whole_chunkAt hdvd (by omega)
  have hsingle : SingleRead s d (s.curSector d) := by
    rintro r hr ⟨rfl, hr'⟩
    have := (h.reads r hr).2
    omega
  have hnb : (devs.chunkAt d (s.curSector d)).nb =
      min 2048 (devs.totalSectors d - s.curSector d) := rfl
  refine ⟨?_, ?_, h.submitRead_single hsingle, h.blocks, ?_, ?_, ?_, h.aligned⟩
  · intro d' x hx hcur
    simp only at hcur
    refine fresh_submitRead hwhole hsingle (fun r hr => (h.reads r hr).1) fun htouch => ?_
    refine h.fresh d' x hx ?_
    by_cases hdd : d' = d
    · subst hdd
      rw [update_self] at hcur
      rw [hwhole.touches_iff_has hx] at htouch
      by_contra hge
      exact htouch ⟨rfl, by simp only [Devices.chunkAt]; omega, hcur⟩
    · rwa [update_of_ne hdd] at hcur
  · intro r hr
    rcases mem_cons.mp hr with rfl | hmem
    · refine ⟨hwhole, ?_⟩
      simp only [Devices.chunkAt, update_self]
      omega
    refine ⟨(h.reads r hmem).1, ?_⟩
    have := (h.reads r hmem).2
    by_cases hdd : r.dev = d
    · rw [hdd] at this
      simp only [hdd, update_self]
      omega
    · simpa [update_of_ne hdd] using this
  · intro d'
    by_cases hdd : d' = d
    · subst hdd
      simp only [update_self, hnb]
      omega
    · simpa [update_of_ne hdd] using h.cursor d'
  · intro d' hd'
    by_cases hdd : d' = d
    · subst hdd
      simp only [update_self, decide_eq_true_eq, hnb] at hd' ⊢
      omega
    · simp only [update_of_ne hdd] at hd' ⊢
      exact h.bulkDone d' hd'
  · intro hcompleted
    exact absurd hcompleted (by simp [State.submitRead, hbulk])

lemma migSaveDeviceDirty (h : Transfer devs s) (hcur : s.curSector d = devs.totalSectors d)
    (hlt : s.curDirty d < devs.totalSectors d)
    (hsingle : s.dirty d (chunk (s.curDirty d)) = true → SingleRead s d (s.curDirty d)) :
    Transfer devs (s.migSaveDeviceDirty devs d) := by
  simp only [State.migSaveDeviceDirty]
  split_ifs with hdirty
  · have hwhole := Devices.whole_chunkAt (h.aligned d) hlt
    refine { h with fresh := ?_, reads := ?_, single := h.submitRead_single (hsingle hdirty) }
    · intro d' x hx hx'
      exact fresh_submitRead hwhole (hsingle hdirty) (fun r hr => (h.reads r hr).1)
        fun _ => h.fresh d' x hx hx'
    · intro r hr
      rcases mem_cons.mp hr with rfl | hmem
      · exact ⟨hwhole, by simpa [Devices.chunkAt, State.submitRead, hcur] using hlt⟩
      · exact h.reads r hmem
  · exact h.setCurDirty ((forall_update_iff _ fun _ v => 2048 ∣ v).mpr
      ⟨(h.aligned d).add (dvd_refl 2048), fun d' _ => h.aligned d'⟩)

end Transfer

/-! ## Completion -/

/-- The last round, and what follows it. -/
def Phase.Scanned : Phase → Prop
  | .completeScan | .done => True
  | _ => False

/-- What holds once the guest has been stopped. -/
structure Completion (devs : Devices ι) (s : State ι α) : Prop where
  quiet : s.phase = .completeFlush → s.reads = [] ∧ s.writes = [] ∧ s.bulkCompleted = true
  sent : s.phase.Scanned → ∀ d ∈ devs.list, ∀ x < devs.totalSectors d,
    s.dirty d (chunk x) = true ∨ s.dst d x = s.src d x
  clean : s.phase.Scanned → ∀ d, 2048 ∣ s.curDirty d ∧
    ∀ x < s.curDirty d, s.dirty d (chunk x) = false
  ended : s.phase = .done → ∀ d ∈ devs.list, devs.totalSectors d ≤ s.curDirty d

namespace Completion

variable {devs : Devices ι} {s : State ι α}

omit [DecidableEq ι] in
lemma of_live (h : s.phase.Live) : Completion devs s where
  quiet := fun hp => by simp [hp, Phase.Live] at h
  sent := fun hp => by cases hphase : s.phase <;> simp [hphase, Phase.Live, Phase.Scanned] at h hp
  clean := fun hp => by cases hphase : s.phase <;> simp [hphase, Phase.Live, Phase.Scanned] at h hp
  ended := fun hp => by simp [hp, Phase.Live] at h

lemma foldl_store_of_not_has {disk : ι → ℕ → α} {blocks : List (BlkMigBlock ι α)}
    (h : ∀ b ∈ blocks, ¬ b.Has d x) : blocks.foldl store disk d x = disk d x := by
  induction blocks generalizing disk with
  | nil => rfl
  | cons b blocks ih =>
    rw [foldl_cons, ih fun b' hb' => h b' (mem_cons_of_mem b hb'), store,
      if_neg (h b mem_cons_self)]

lemma sent_of_leftDirty (htransfer : Transfer devs s) (hreads : s.reads = [])
    (hwrites : s.writes = []) (hbulk : s.bulkCompleted = true) (hleft : LeftDirty s)
    (hd : d ∈ devs.list) (hx : x < devs.totalSectors d) :
    s.dirty d (chunk x) = true ∨ s.dst d x = s.src d x := by
  by_cases hdirty : s.dirty d (chunk x) = true
  · exact .inl hdirty
  right
  have hfresh := htransfer.fresh d x hx (by rwa [htransfer.bulk hbulk d hd])
    (Bool.eq_false_iff.mpr hdirty) (by simp [State.Writing, hwrites])
  have hreceived := hfresh.2 (by simp [hreads])
  rw [← hreceived, State.received, foldl_store_of_not_has]
  -- a block of the sector that is left would be of a dirty chunk
  intro b hb hhas
  have hwhole := htransfer.blocks b hb
  obtain ⟨hdev, hchunk⟩ := (hwhole.touches_iff d (chunk x)).mp hhas.touches
  have hleft' := hleft b hb
  rw [hdev, hchunk] at hleft'
  exact hdirty hleft'

lemma migSaveDeviceDirtySync (h : Completion devs s) (hphase : s.phase = .completeScan)
    (hlt : s.curDirty d < devs.totalSectors d) :
    Completion devs (s.migSaveDeviceDirtySync devs d) := by
  have hscanned : s.phase.Scanned := by rw [hphase]; trivial
  have hsent := h.sent hscanned
  have hclean := h.clean hscanned
  simp only [State.migSaveDeviceDirtySync]
  split_ifs with hdirty
  · have hwhole := Devices.whole_chunkAt (hclean d).1 hlt
    refine ⟨by simp [hphase], fun _ d' hd' x hx => ?_, fun _ d' => ⟨(hclean d').1, fun x hx => ?_⟩,
      by simp [hphase]⟩
    · by_cases htouch : (devs.chunkAt d (s.curDirty d)).Touches d' (chunk x)
      · right
        have hhas := (hwhole.touches_iff_has hx).mp htouch
        simp only [store, if_pos hhas]
        rw [← hhas.1]
        rfl
      · have hhas : ¬ (devs.chunkAt d (s.curDirty d)).Has d' x :=
          fun hhas => htouch hhas.touches
        simp only [setBitmap, if_neg htouch, store, if_neg hhas]
        exact hsent d' hd' x hx
    · simp only [setBitmap]
      split_ifs
      · rfl
      · exact (hclean d').2 x hx
  · refine ⟨by simp [hphase], fun _ => hsent, fun _ d' => ?_, by simp [hphase]⟩
    by_cases hdd : d' = d
    · subst hdd
      simp only [update_self]
      obtain ⟨hdvd, hbefore⟩ := hclean d'
      refine ⟨hdvd.add (dvd_refl 2048), fun x hx => ?_⟩
      by_cases hx' : x < s.curDirty d'
      · exact hbefore x hx'
      have hchunk : chunk x = chunk (s.curDirty d') := by
        unfold chunk
        omega
      rw [hchunk]
      exact Bool.eq_false_iff.mpr hdirty
    · simp only [update_of_ne hdd]
      exact hclean d'

end Completion

/-! ## Whole runs -/

/-- What holds in all states of a run. -/
structure Invariant (devs : Devices ι) (s : State ι α) : Prop where
  transfer : ¬ s.phase.Scanned → Transfer devs s
  completion : Completion devs s

namespace Invariant

variable {devs : Devices ι} {s s' : State ι α}

lemma of_live (hlive : s.phase.Live) (h : Transfer devs s) : Invariant devs s :=
  ⟨fun _ => h, .of_live hlive⟩

lemma transfer_of_live (h : Invariant devs s) (hlive : s.phase.Live) : Transfer devs s := by
  refine h.transfer fun hscanned => ?_
  cases hphase : s.phase <;> simp [hphase, Phase.Live, Phase.Scanned] at hlive hscanned

lemma sendFirst (h : Invariant devs s) (hphase : s.phase.Flushing) (hlist : s.blkList = b :: rest) :
    Invariant devs (s.sendFirst b rest) := by
  have hnot : ¬ s.phase.Scanned := by
    cases hp : s.phase <;> simp [hp, Phase.Flushing, Phase.Scanned] at hphase ⊢
  refine ⟨fun _ => (h.transfer hnot).sendFirst hlist, ⟨h.completion.quiet, fun hp => absurd hp hnot,
    fun hp => absurd hp hnot, fun hp => absurd ?_ hnot⟩⟩
  have hdone : s.phase = .done := hp
  rw [hdone]
  trivial

lemma stopComplete (h : Invariant devs s) (hphase : s.phase = .completeFlush)
    (hleft : LeftDirty s) :
    Invariant devs { s.blkMigResetDirtyCursor with phase := .completeScan } := by
  have htransfer := h.transfer (by rw [hphase]; exact id)
  obtain ⟨hreads, hwrites, hbulk⟩ := h.completion.quiet hphase
  refine ⟨fun hp => absurd trivial hp, ⟨nofun, fun _ d hd x hx => ?_, fun _ d => ?_, nofun⟩⟩
  · have hsent := Completion.sent_of_leftDirty htransfer hreads hwrites hbulk hleft hd hx
    exact hsent
  · exact ⟨dvd_zero 2048, fun x hx => absurd hx (Nat.not_lt_zero x)⟩

/-- Each step that meets the two conditions keeps the invariant. -/
theorem step (h : Invariant devs s) (hstep : Step devs SingleRead LeftDirty s s') :
    Invariant devs s' := by
  cases hstep with
  | beginWrite w hlive => exact of_live hlive ((h.transfer_of_live hlive).beginWrite w)
  | changeSector v hlive hw hx =>
    exact of_live hlive ((h.transfer_of_live hlive).changeSector v hw hx)
  | endWrite hlive hw => exact of_live hlive ((h.transfer_of_live hlive).endWrite hw)
  | endRead buf hlive hr hbuf => exact of_live hlive ((h.transfer_of_live hlive).endRead hr hbuf)
  | iterate hphase =>
    exact of_live trivial ((h.transfer_of_live (by rw [hphase]; trivial)).setPhase _)
  | send hphase hlist => exact h.sendFirst hphase hlist
  | stopFirst hphase =>
    have htransfer := h.transfer_of_live (by rw [hphase]; trivial)
    exact of_live trivial ((htransfer.setCurDirty fun _ => dvd_zero 2048).setPhase _)
  | bulk hphase hbulk hlist hbefore hdone =>
    have hlive : s.phase.Live := by rw [hphase]; trivial
    refine of_live ?_ ((h.transfer_of_live hlive).migSaveDeviceBulk _ hbulk)
    simp only [State.migSaveDeviceBulk]
    split_ifs <;> exact hlive
  | bulkEnd hphase hbulk hdone =>
    have hlive : s.phase.Live := by rw [hphase]; trivial
    have htransfer := h.transfer_of_live hlive
    exact of_live hlive { htransfer with bulk := fun _ d hd => htransfer.bulkDone d (hdone d hd) }
  | @scan d _ _ hphase hbulk hlist hbefore hlt hdrain hsubmit =>
    have hlive : s.phase.Live := by rw [hphase]; trivial
    have htransfer := h.transfer_of_live hlive
    have hcur := htransfer.bulk hbulk d (by simp [hlist])
    refine of_live ?_ (htransfer.migSaveDeviceDirty hcur hlt hsubmit)
    simp only [State.migSaveDeviceDirty]
    split_ifs <;> exact hlive
  | leave hphase | stopLast hphase =>
    exact of_live trivial ((h.transfer_of_live (by rw [hphase]; trivial)).setPhase _)
  | complete hphase hbulk hreads hwrites =>
    have htransfer := h.transfer_of_live (by rw [hphase]; trivial)
    exact ⟨fun _ => htransfer.setPhase _, ⟨fun _ => ⟨hreads, hwrites, hbulk⟩, False.elim,
      False.elim, nofun⟩⟩
  | stopComplete hphase hdrop => exact h.stopComplete hphase hdrop
  | scanSync hphase hlist hbefore hlt =>
    refine ⟨fun hp => absurd ?_ hp, h.completion.migSaveDeviceDirtySync hphase hlt⟩
    simp only [State.migSaveDeviceDirtySync]
    split_ifs <;> (rw [hphase]; trivial)
  | cleanup hphase hend =>
    have hscanned : s.phase.Scanned := by rw [hphase]; trivial
    exact ⟨fun hp => absurd trivial hp, ⟨nofun, fun _ => h.completion.sent hscanned,
      fun _ => h.completion.clean hscanned, fun _ => hend⟩⟩

end Invariant

lemma Reachable.invariant {devs : Devices ι} {s : State ι α}
    (h : Reachable devs SingleRead LeftDirty s) : Invariant devs s := by
  induction h with
  | init src dst writes => exact .of_live trivial (.init devs src dst writes)
  | step _ hstep ih => exact ih.step hstep

/-- If no dirty chunk is read while a read of it is in flight, and the last `flush_blks` leaves only
blocks of dirty chunks, then the destination is equal to the source when the migration has
completed. -/
theorem migration_complete (devs : Devices ι) (s : State ι α)
    (h : Reachable devs SingleRead LeftDirty s) (hdone : s.phase = .done) :
    ∀ d ∈ devs.list, ∀ x < devs.totalSectors d, s.dst d x = s.src d x := by
  intro d hd x hx
  have hscanned : s.phase.Scanned := by rw [hdone]; trivial
  have hend := h.invariant.completion.ended hdone d hd
  have hclean := (h.invariant.completion.clean hscanned d).2 x (by omega)
  rcases h.invariant.completion.sent hscanned d hd x hx with hdirty | hsent
  · rw [hclean] at hdirty
    cases hdirty
  · exact hsent

end Transfer

/-! ## One chunk -/

def oneSector : Devices Unit := ⟨[()], fun _ => 1⟩

def submitted : State Unit ℕ :=
  { { State.init (fun _ _ => 5) (fun _ _ => 0) [] with phase := .loop }.migSaveDeviceBulk
      oneSector () with bulkCompleted := true }

def queued : State Unit ℕ :=
  { submitted.blkMigReadCb ⟨⟨(), 0, 1⟩, false⟩ [] fun _ => 5 with phase := .idle }

lemma reachable_queued (submit : State Unit ℕ → Unit → ℕ → Prop) (drop : State Unit ℕ → Prop) :
    Reachable oneSector submit drop queued := by
  have hinit : Reachable oneSector submit drop (State.init (fun _ _ => 5) (fun _ _ => 0) []) :=
    .init _ _ _
  have hlist : oneSector.list = [] ++ () :: [] := rfl
  have hbulk := ((hinit.step (.iterate rfl)).step (.stopFirst rfl)).step
    (.bulk rfl rfl hlist (by simp) rfl)
  have hsubmitted : Reachable oneSector submit drop submitted :=
    hbulk.step (.bulkEnd rfl rfl fun _ _ => rfl)
  have hreads : submitted.reads = [] ++ ⟨⟨(), 0, 1⟩, false⟩ :: [] := by
    simp [submitted, State.migSaveDeviceBulk, State.submitRead, State.init, oneSector,
      Devices.chunkAt]
  have hread := hsubmitted.step (.endRead (fun _ => 5) trivial hreads fun _ _ _ => rfl)
  have hleft := hread.step (.leave rfl)
  exact hleft.step (.stopLast rfl)

/-- The queued chunk is sent before the last round. -/
theorem queued_sent : ∃ s : State Unit ℕ, Reachable oneSector SingleRead LeftDirty s ∧
    s.phase = .done ∧
      ∀ d ∈ oneSector.list, ∀ x < oneSector.totalSectors d, s.dst d x = s.src d x := by
  have hlist : oneSector.list = [] ++ () :: [] := rfl
  have hflush := ((reachable_queued SingleRead LeftDirty).step (.complete rfl rfl rfl rfl)).step
    (.send trivial rfl)
  have hscan := (hflush.step (.stopComplete rfl nofun)).step
    (.scanSync rfl hlist (by simp) (by decide))
  have hdone := hscan.step (.cleanup rfl (by decide))
  exact ⟨_, hdone, rfl, migration_complete oneSector _ hdone rfl⟩

/-- The last `flush_blks` stops at the rate limit, and the chunk that is queued is freed. -/
theorem queued_lost : ¬ ∀ s : State Unit ℕ, Reachable oneSector (fun _ _ _ => True)
    (fun _ => True) s →
      s.phase = .done → ∀ d ∈ oneSector.list, ∀ x < oneSector.totalSectors d,
        s.dst d x = s.src d x := by
  intro h
  have hlist : oneSector.list = [] ++ () :: [] := rfl
  have hflush := (reachable_queued (fun _ _ _ => True) fun _ => True).step
    (.complete rfl rfl rfl rfl)
  have hscan := (hflush.step (.stopComplete rfl trivial)).step
    (.scanSync rfl hlist (by simp) (by decide))
  have hdone := hscan.step (.cleanup rfl (by decide))
  exact absurd (h _ hdone rfl () (by decide) 0 (by decide)) (by decide)

end Qemu.Block.Migration
