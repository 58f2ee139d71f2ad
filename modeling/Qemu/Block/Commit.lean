import Qemu.Lib.Crash
import Qemu.Lib.Errno

/-!
# Committing an overlay to its backing image

`bdrv_commit` of `block.c` copies the sectors that are allocated in an overlay to the backing image,
empties the overlay and flushes both images, in this order.  A backing image that is read-only is
opened anew for writing at the beginning, and anew for reading at the end.

The results of reading, writing, opening and emptying are inputs of the model.  The accesses that a
call makes are recorded in a trace, which is what a crash can cut short.

**Main results:**
- `copyLoop_spec`: what the loop has copied when it ends
- `commit_reports_iff`: when the return value tells whether the data is in the backing image
- `commit_crashSafe_iff`: when a crash at any point leaves the contents as they are
-/

namespace Qemu.Block

open List Crash

variable {α : Type}

/-! ## Images and outcomes -/

/-- `COMMIT_BUF_SECTORS`. -/
def commitBufSectors : ℕ := 2048

/-- An overlay and its backing image by sectors.  The driver of the overlay need not know which
sectors are allocated; if it does, its answers are right, and about the first sector at least. -/
structure Images (α : Type) where
  totalSectors : ℕ
  overlay : ℕ → Option α
  backing : ℕ → α
  drvIsAllocated : Option (ℕ → ℕ → Bool × ℕ)
  allocated_of_none : drvIsAllocated = none → ∀ s < totalSectors, (overlay s).isSome = true
  answer : ∀ f ∈ drvIsAllocated, ∀ sector nb, 0 < nb → sector + nb ≤ totalSectors →
    0 < (f sector nb).2 ∧ (f sector nb).2 ≤ nb ∧
      ∀ s, sector ≤ s → s < sector + (f sector nb).2 → (overlay s).isSome = (f sector nb).1

/-- The devices at the beginning of a call, and what the functions it calls will return.
`makeEmpty` is what `bdrv_make_empty` returns, if the driver has it, and whether it has removed the
contents of the overlay. -/
structure CommitInput (α : Type) extends Images α where
  hasDrv : Bool
  hasBacking : Bool
  keepReadOnly : Bool
  inUse : Bool
  readOnly : Bool
  enableWriteCache : Bool
  rwOpen : ℤ
  roOpen : ℤ
  readOk : ℕ → ℕ → Bool
  writeOk : ℕ → ℕ → Bool
  makeEmpty : Option (ℤ × Bool)
  flushOverlayOk : Bool
  flushBackingOk : Bool

/-- An access to one of the images. -/
inductive CommitEvent
  | write (sector n : ℕ) (ok : Bool)
  | flushBacking
  | makeEmpty (removes : Bool)
  | flushOverlay
deriving DecidableEq

namespace Images

variable (im : Images α)

/-- What a reader of the image finds in a sector. -/
def visible (s : ℕ) : α := (im.overlay s).getD (im.backing s)

/-- `bdrv_is_allocated`. -/
def bdrvIsAllocated (sector nb : ℕ) : Bool × ℕ :=
  if im.totalSectors ≤ sector then (false, 0)
  else
    let nb := min nb (im.totalSectors - sector)
    match im.drvIsAllocated with
    | none => (true, nb)
    | some f => f sector nb

/-- The sectors at which `bdrv_commit` asks, each of them behind the range of the answer before. -/
inductive Asked : ℕ → Prop
  | zero : Asked 0
  | next {sector : ℕ} (h : Asked sector) (hlt : sector < im.totalSectors) :
      Asked (sector + (im.bdrvIsAllocated sector commitBufSectors).2)

end Images

namespace CommitInput

variable (inp : CommitInput α)

/-- A write that succeeds is followed by a flush unless the backing image is a write-back cache. -/
def writeEvents (sector n : ℕ) : List CommitEvent :=
  .write sector n true :: if inp.enableWriteCache = true then [] else [.flushBacking]

/-- The copy loop from `sector` on, and whether it has come to its end. -/
def copyLoop : ℕ → ℕ → Bool × List CommitEvent
  | 0, _ => (true, [])
  | fuel + 1, sector =>
    if sector < inp.totalSectors then
      let (allocated, n) := inp.bdrvIsAllocated sector commitBufSectors
      if allocated = true then
        if inp.readOk sector n = false then (false, [])
        else if inp.writeOk sector n = false then (false, [.write sector n false])
        else
          let (ok, events) := copyLoop fuel (sector + n)
          (ok, inp.writeEvents sector n ++ events)
      else copyLoop fuel (sector + n)
    else (true, [])

/-- What follows the loop if it has come to its end.  A flush that fails makes nothing safe. -/
def emptyAndFlush : ℤ × List CommitEvent :=
  let flushed := if inp.flushBackingOk = true then [.flushBacking] else []
  match inp.makeEmpty with
  | none => (0, flushed)
  | some (ret, removes) =>
    (ret, .makeEmpty removes :: ((if inp.flushOverlayOk = true then [.flushOverlay] else []) ++
      flushed))

/-- The part of the call behind the opening of the backing image, up to `ro_cleanup`. -/
def copyAndEmpty : ℤ × List CommitEvent :=
  let (ok, events) := inp.copyLoop inp.totalSectors 0
  if ok = true then
    let (ret, events') := inp.emptyAndFlush
    (ret, events ++ events')
  else (-eio, events)

/-- `bdrv_commit`: the return value and the accesses. -/
def bdrvCommit : ℤ × List CommitEvent :=
  if inp.hasDrv = false then (-enomedium, [])
  else if inp.hasBacking = false then (-enotsup, [])
  else if inp.keepReadOnly = true then (-eacces, [])
  else if inp.inUse = true then (-ebusy, [])
  else if inp.readOnly = true ∧ inp.rwOpen < 0 then
    if inp.roOpen < 0 then (inp.roOpen, []) else (inp.rwOpen, [])
  else
    let (ret, events) := inp.copyAndEmpty
    if inp.readOnly = true then (inp.roOpen, events) else (ret, events)

/-! ## What is wanted -/

/-- Some write that succeeded has put the sector into the backing image. -/
def Written (events : List CommitEvent) (s : ℕ) : Prop :=
  ∃ sector n, CommitEvent.write sector n true ∈ events ∧ sector ≤ s ∧ s < sector + n

/-- If the return value is not negative, all sectors of the overlay have been written, and otherwise
the overlay has not been emptied. -/
def Reports : Prop :=
  (0 ≤ inp.bdrvCommit.1 → ∀ s < inp.totalSectors, (inp.overlay s).isSome = true →
    Written inp.bdrvCommit.2 s) ∧
  (inp.bdrvCommit.1 < 0 → CommitEvent.makeEmpty true ∉ inp.bdrvCommit.2)

/-- The images while the call is under way. -/
structure Disks (α : Type) where
  overlay : Disk ℕ (Option α)
  backing : Disk ℕ α

/-- What an access does.  A write that fails may have written any of its sectors. -/
def apply (d : Disks α) : CommitEvent → Disks α
  | .write sector n _ =>
    { d with
      backing := d.backing.writes ((range n).map fun i => (sector + i, inp.visible (sector + i))) }
  | .flushBacking => { d with backing := d.backing.flush }
  | .makeEmpty removes =>
    if removes = true then
      { d with overlay := d.overlay.writes ((range inp.totalSectors).map fun s => (s, none)) }
    else d
  | .flushOverlay => { d with overlay := d.overlay.flush }

def disks (events : List CommitEvent) : Disks α :=
  events.foldl inp.apply ⟨.synced inp.overlay, .synced inp.backing⟩

/-- A crash after any number of accesses leaves the visible contents as they are. -/
def CrashSafe : Prop :=
  ∀ k, ∀ o ∈ (inp.disks (inp.bdrvCommit.2.take k)).overlay.possible,
    ∀ b ∈ (inp.disks (inp.bdrvCommit.2.take k)).backing.possible,
      ∀ s < inp.totalSectors, (o s).getD (b s) = inp.visible s

/-! ## The conditions -/

/-- The call comes to its loop. -/
def Begins : Prop :=
  inp.hasDrv = true ∧ inp.hasBacking = true ∧ inp.keepReadOnly = false ∧ inp.inUse = false ∧
    (inp.readOnly = true → 0 ≤ inp.rwOpen)

/-- All ranges of allocated sectors can be read, and can be written to the backing image. -/
def CopiesAll : Prop :=
  ∀ sector, inp.Asked sector → sector < inp.totalSectors →
    (inp.bdrvIsAllocated sector commitBufSectors).1 = true →
      inp.readOk sector (inp.bdrvIsAllocated sector commitBufSectors).2 = true ∧
        inp.writeOk sector (inp.bdrvIsAllocated sector commitBufSectors).2 = true

/-- `bdrv_make_empty` removes the contents of the overlay. -/
def Empties : Prop := ∃ ret, inp.makeEmpty = some (ret, true)

/-! ## The loop -/

lemma bdrvIsAllocated_spec {im : Images α} {sector n : ℕ} {allocated : Bool}
    (h : sector < im.totalSectors)
    (ha : im.bdrvIsAllocated sector commitBufSectors = (allocated, n)) :
    0 < n ∧ ∀ s, sector ≤ s → s < sector + n →
      s < im.totalSectors ∧ (im.overlay s).isSome = allocated := by
  have hbuf : 0 < commitBufSectors := by decide
  have hnb : 0 < min commitBufSectors (im.totalSectors - sector) := by omega
  rw [Images.bdrvIsAllocated, if_neg (by omega)] at ha
  cases hdrv : im.drvIsAllocated with
  | none =>
    obtain ⟨rfl, rfl⟩ : true = allocated ∧ _ = n := by simpa [hdrv] using ha
    refine ⟨hnb, fun s hle hlt => ?_⟩
    have hs : s < im.totalSectors := by omega
    exact ⟨hs, im.allocated_of_none hdrv s hs⟩
  | some f =>
    have hanswer := im.answer f hdrv sector _ hnb (by omega)
    simp only [hdrv] at ha
    rw [ha] at hanswer
    exact ⟨hanswer.1, fun s hs hlt => ⟨by omega, hanswer.2.2 s hs hlt⟩⟩

section Loop

variable {inp} {sector fuel n : ℕ} {allocated : Bool}

lemma copyLoop_of_le (h : inp.totalSectors ≤ sector) : inp.copyLoop fuel sector = (true, []) := by
  cases fuel with
  | zero => rfl
  | succ fuel => rw [copyLoop, if_neg (by omega)]

lemma copyLoop_succ (h : sector < inp.totalSectors)
    (ha : inp.bdrvIsAllocated sector commitBufSectors = (allocated, n)) :
    inp.copyLoop (fuel + 1) sector =
      if allocated = true then
        if inp.readOk sector n = false then (false, [])
        else if inp.writeOk sector n = false then (false, [.write sector n false])
        else ((inp.copyLoop fuel (sector + n)).1,
          inp.writeEvents sector n ++ (inp.copyLoop fuel (sector + n)).2)
      else inp.copyLoop fuel (sector + n) := by
  rw [copyLoop, if_pos h, ha]

lemma copyLoop_fst_succ (h : sector < inp.totalSectors)
    (ha : inp.bdrvIsAllocated sector commitBufSectors = (allocated, n)) :
    (inp.copyLoop (fuel + 1) sector).1 = true ↔
      (allocated = true → inp.readOk sector n = true ∧ inp.writeOk sector n = true) ∧
      (inp.copyLoop fuel (sector + n)).1 = true := by
  rw [copyLoop_succ h ha]
  cases allocated with
  | false => simp
  | true => cases inp.readOk sector n <;> cases inp.writeOk sector n <;> simp

variable (inp) in
abbrev loop : Bool × List CommitEvent := inp.copyLoop inp.totalSectors 0

lemma copyLoop_fst_iff : inp.loop.1 = true ↔ inp.CopiesAll := by
  constructor
  · intro hok
    -- The loop is on its way at every sector that it asks at.
    have key : ∀ sector, inp.Asked sector →
        ∃ fuel, inp.totalSectors ≤ sector + fuel ∧ (inp.copyLoop fuel sector).1 = true := by
      intro sector hasked
      induction hasked with
      | zero => exact ⟨inp.totalSectors, by omega, hok⟩
      | next _ hlt ih =>
        obtain ⟨fuel, hfuel, hok⟩ := ih
        obtain ⟨fuel, rfl⟩ : ∃ f, fuel = f + 1 := ⟨fuel - 1, by omega⟩
        have hpos := (bdrvIsAllocated_spec hlt Prod.mk.eta.symm).1
        exact ⟨fuel, by omega, ((copyLoop_fst_succ hlt rfl).mp hok).2⟩
    intro sector hasked hlt
    obtain ⟨fuel, hfuel, hok⟩ := key sector hasked
    obtain ⟨fuel, rfl⟩ : ∃ f, fuel = f + 1 := ⟨fuel - 1, by omega⟩
    exact ((copyLoop_fst_succ hlt rfl).mp hok).1
  · intro hall
    have key : ∀ fuel sector, inp.Asked sector → (inp.copyLoop fuel sector).1 = true := by
      intro fuel
      induction fuel with
      | zero => exact fun _ _ => rfl
      | succ fuel ih =>
        intro sector hasked
        rcases Nat.lt_or_ge sector inp.totalSectors with hlt | hge
        · exact (copyLoop_fst_succ hlt rfl).mpr ⟨hall sector hasked hlt, ih _ (.next hasked hlt)⟩
        · rw [copyLoop_of_le hge]
    exact key _ 0 .zero

/-- What the accesses of the loop from `sector` on are. -/
structure Copied (inp : CommitInput α) (sector : ℕ) (r : Bool × List CommitEvent) : Prop where
  all : r.1 = true → ∀ s, sector ≤ s → s < inp.totalSectors →
    (inp.overlay s).isSome = true → Written r.2 s
  missing : r.1 = false → ∃ s, sector ≤ s ∧ s < inp.totalSectors ∧ (inp.overlay s).isSome = true ∧
    ¬ Written r.2 s
  behind : ∀ s, Written r.2 s → sector ≤ s
  notEmpty : ∀ removes, CommitEvent.makeEmpty removes ∉ r.2
  notFlushed : inp.enableWriteCache = true → CommitEvent.flushBacking ∉ r.2

lemma not_written_nil (s : ℕ) : ¬ Written [] s := fun ⟨_, _, h, _⟩ => not_mem_nil h

lemma mem_writeEvents {e : CommitEvent} : e ∈ inp.writeEvents sector n ↔
    e = .write sector n true ∨ inp.enableWriteCache = false ∧ e = .flushBacking := by
  rw [writeEvents, mem_cons]
  cases inp.enableWriteCache <;> simp

lemma written_append {events events' : List CommitEvent} {s : ℕ} :
    Written (events ++ events') s ↔ Written events s ∨ Written events' s := by
  constructor
  · rintro ⟨a, n, hmem, hs⟩
    rcases mem_append.mp hmem with hmem | hmem
    · exact .inl ⟨a, n, hmem, hs⟩
    · exact .inr ⟨a, n, hmem, hs⟩
  · rintro (⟨a, n, hmem, hs⟩ | ⟨a, n, hmem, hs⟩)
    · exact ⟨a, n, mem_append_left _ hmem, hs⟩
    · exact ⟨a, n, mem_append_right _ hmem, hs⟩

lemma written_writeEvents {s : ℕ} :
    Written (inp.writeEvents sector n) s ↔ sector ≤ s ∧ s < sector + n := by
  constructor
  · rintro ⟨a, m, hmem, hs⟩
    rcases mem_writeEvents.mp hmem with heq | ⟨-, heq⟩
    · obtain ⟨rfl, rfl, -⟩ := heq
      exact hs
    · cases heq
  · exact fun hs => ⟨sector, n, mem_writeEvents.mpr (.inl rfl), hs⟩

lemma Copied.of_failure (h : sector < inp.totalSectors)
    (halloc : (inp.overlay sector).isSome = true) {events : List CommitEvent}
    (hevents : ∀ e ∈ events, ∃ m, e = .write sector m false) :
    Copied inp sector (false, events) := by
  have hnone : ∀ s, ¬ Written events s := by
    rintro s ⟨a, m, hmem, -⟩
    obtain ⟨m', heq⟩ := hevents _ hmem
    rw [CommitEvent.write.injEq] at heq
    exact absurd heq.2.2 (by decide)
  refine ⟨fun hok => absurd hok Bool.false_ne_true,
    fun _ => ⟨sector, le_rfl, h, halloc, hnone sector⟩, fun s hs => absurd hs (hnone s),
    fun removes hmem => ?_, fun _ hmem => ?_⟩
  · obtain ⟨_, heq⟩ := hevents _ hmem
    cases heq
  · obtain ⟨_, heq⟩ := hevents _ hmem
    cases heq

lemma Copied.of_le (h : inp.totalSectors ≤ sector) : Copied inp sector (true, []) where
  all _ s hle hlt := by omega
  missing h := Bool.noConfusion h
  behind s hs := absurd hs (not_written_nil s)
  notEmpty _ := not_mem_nil
  notFlushed _ := not_mem_nil

lemma copyLoop_spec (fuel sector : ℕ) (hfuel : inp.totalSectors ≤ sector + fuel) :
    Copied inp sector (inp.copyLoop fuel sector) := by
  induction fuel generalizing sector with
  | zero => exact Copied.of_le hfuel
  | succ fuel ih =>
    rcases Nat.lt_or_ge sector inp.totalSectors with hlt | hge
    · rcases hanswer : inp.bdrvIsAllocated sector commitBufSectors with ⟨allocated, n⟩
      obtain ⟨hpos, hsame⟩ := bdrvIsAllocated_spec hlt hanswer
      rw [copyLoop_succ hlt hanswer]
      have hrest := ih (sector + n) (by omega)
      generalize inp.copyLoop fuel (sector + n) = rest at hrest
      split_ifs with halloc hread hwrite
      · refine Copied.of_failure hlt ?_ (fun e he => absurd he not_mem_nil)
        rw [(hsame sector le_rfl (by omega)).2, halloc]
      · refine Copied.of_failure hlt ?_ (fun e he => ⟨n, mem_singleton.mp he⟩)
        rw [(hsame sector le_rfl (by omega)).2, halloc]
      · refine ⟨fun hok s hle hs hsome => ?_, fun hbad => ?_, fun s hs => ?_,
          fun removes hmem => ?_, fun hcache hmem => ?_⟩
        · rw [written_append, written_writeEvents]
          rcases Nat.lt_or_ge s (sector + n) with hin | hout
          · exact .inl ⟨hle, hin⟩
          · exact .inr (hrest.all hok s hout hs hsome)
        · obtain ⟨s, hle, hs, hsome, hnot⟩ := hrest.missing hbad
          refine ⟨s, by omega, hs, hsome, ?_⟩
          rw [written_append, written_writeEvents]
          exact fun h => h.elim (by omega) hnot
        · rw [written_append, written_writeEvents] at hs
          rcases hs with hs | hs
          · exact hs.1
          · exact le_trans (Nat.le_add_right _ _) (hrest.behind s hs)
        · rcases mem_append.mp hmem with hmem | hmem
          · rcases mem_writeEvents.mp hmem with heq | ⟨-, heq⟩ <;> cases heq
          · exact hrest.notEmpty removes hmem
        · rcases mem_append.mp hmem with hmem | hmem
          · rcases mem_writeEvents.mp hmem with heq | ⟨hfalse, -⟩
            · cases heq
            · rw [hcache] at hfalse
              cases hfalse
          · exact hrest.notFlushed hcache hmem
      · have hnone : ∀ s, sector ≤ s → s < sector + n → ¬ (inp.overlay s).isSome = true := by
          intro s hle hs hsome
          rw [(hsame s hle hs).2] at hsome
          exact halloc hsome
        refine ⟨fun hok s hle hs hsome => ?_, fun hbad => ?_, fun s hs => ?_, hrest.notEmpty,
          hrest.notFlushed⟩
        · rcases Nat.lt_or_ge s (sector + n) with hin | hout
          · exact absurd hsome (hnone s hle hin)
          · exact hrest.all hok s hout hs hsome
        · obtain ⟨s, hle, hs⟩ := hrest.missing hbad
          exact ⟨s, by omega, hs⟩
        · exact le_trans (Nat.le_add_right _ _) (hrest.behind s hs)
    · rw [copyLoop_of_le hge]
      exact Copied.of_le hge

lemma copied (inp : CommitInput α) : Copied inp 0 inp.loop :=
  copyLoop_spec inp.totalSectors 0 (by omega)

end Loop

/-! ## The call -/

section Call

variable {inp}

lemma bdrvCommit_of_not_begins (h : ¬ inp.Begins) :
    inp.bdrvCommit.1 < 0 ∧ inp.bdrvCommit.2 = [] := by
  rw [bdrvCommit]
  split_ifs with h₁ h₂ h₃ h₄ h₅ h₆ h₇
  · exact ⟨by decide, rfl⟩
  · exact ⟨by decide, rfl⟩
  · exact ⟨by decide, rfl⟩
  · exact ⟨by decide, rfl⟩
  · exact ⟨h₆, rfl⟩
  · exact ⟨h₅.2, rfl⟩
  all_goals
    refine absurd ⟨?_, ?_, ?_, ?_, fun hro => ?_⟩ h
    · simpa using h₁
    · simpa using h₂
    · simpa using h₃
    · simpa using h₄
    · exact not_lt.mp fun hlt => h₅ ⟨hro, hlt⟩

lemma bdrvCommit_of_begins (h : inp.Begins) :
    inp.bdrvCommit = (if inp.readOnly = true then inp.roOpen else inp.copyAndEmpty.1,
      inp.copyAndEmpty.2) := by
  obtain ⟨h₁, h₂, h₃, h₄, h₅⟩ := h
  have h₆ : ¬ (inp.readOnly = true ∧ inp.rwOpen < 0) := fun h => absurd h.2 (not_lt.mpr (h₅ h.1))
  rw [bdrvCommit, if_neg (by rw [h₁]; decide), if_neg (by rw [h₂]; decide),
    if_neg (by rw [h₃]; decide), if_neg (by rw [h₄]; decide), if_neg h₆]
  split_ifs <;> rfl

lemma copyAndEmpty_of_copiesAll (h : inp.CopiesAll) :
    inp.copyAndEmpty = (inp.emptyAndFlush.1, inp.loop.2 ++ inp.emptyAndFlush.2) := by
  rw [copyAndEmpty]
  dsimp only
  rw [if_pos (copyLoop_fst_iff.mpr h)]

lemma copyAndEmpty_of_not_copiesAll (h : ¬ inp.CopiesAll) :
    inp.copyAndEmpty = (-eio, inp.loop.2) := by
  rw [copyAndEmpty]
  dsimp only
  rw [if_neg fun hok => h (copyLoop_fst_iff.mp hok)]

lemma makeEmpty_mem_iff : CommitEvent.makeEmpty true ∈ inp.emptyAndFlush.2 ↔ inp.Empties := by
  rw [emptyAndFlush, Empties]
  rcases inp.makeEmpty with _ | ⟨ret, removes⟩
  · cases inp.flushBackingOk <;> simp
  · cases inp.flushBackingOk <;> cases inp.flushOverlayOk <;> cases removes <;> simp

/-- The return value tells whether the data is in the backing image if and only if, for a backing
image that was read-only, opening it anew fails after a failed copy and succeeds after the overlay
was emptied, and otherwise emptying the overlay returns no error if it has taken place. -/
theorem commit_reports_iff (inp : CommitInput α) : inp.Reports ↔ (inp.Begins →
      (inp.CopiesAll → ∀ ret, inp.makeEmpty = some (ret, true) →
        0 ≤ if inp.readOnly = true then inp.roOpen else ret) ∧
      (¬ inp.CopiesAll → inp.readOnly = true → inp.roOpen < 0)) := by
  have hloop := inp.copied
  by_cases hbegins : inp.Begins
  · rw [Reports, bdrvCommit_of_begins hbegins]
    by_cases hall : inp.CopiesAll
    · rw [copyAndEmpty_of_copiesAll hall]
      have hwritten : ∀ s < inp.totalSectors, (inp.overlay s).isSome = true →
          Written (inp.loop.2 ++ inp.emptyAndFlush.2) s := fun s hs hsome =>
        written_append.mpr (.inl (hloop.all (copyLoop_fst_iff.mpr hall) s (Nat.zero_le s) hs hsome))
      have hmem : CommitEvent.makeEmpty true ∈ inp.loop.2 ++ inp.emptyAndFlush.2 ↔ inp.Empties := by
        rw [mem_append, makeEmpty_mem_iff]
        exact or_iff_right (hloop.notEmpty true)
      simp only [hmem, hbegins, hall, forall_const, not_true_eq_false, false_implies, and_true]
      constructor
      · rintro ⟨-, herr⟩ ret hret
        refine not_lt.mp fun hneg => herr ?_ ⟨ret, hret⟩
        rwa [emptyAndFlush, hret]
      intro hret
      refine ⟨fun _ => hwritten, ?_⟩
      rintro hneg ⟨ret, hempty⟩
      have := hret ret hempty
      rw [emptyAndFlush, hempty] at hneg
      exact absurd hneg (not_lt.mpr this)
    · rw [copyAndEmpty_of_not_copiesAll hall]
      obtain ⟨s, -, hs, hsome, hnot⟩ := hloop.missing (by
        rw [← Bool.not_eq_true, copyLoop_fst_iff]
        exact hall)
      simp only [hbegins, hall, forall_const, false_implies, not_false_eq_true, true_and]
      constructor
      · rintro ⟨hret, -⟩ hro
        refine not_le.mp fun hnonneg => hnot (hret ?_ s hs hsome)
        rwa [if_pos hro]
      · intro hro
        refine ⟨fun hnonneg => ?_, fun _ => hloop.notEmpty true⟩
        split_ifs at hnonneg with hreadOnly
        · exact absurd hnonneg (not_le.mpr (hro hreadOnly))
        · cases hnonneg
  · obtain ⟨hneg, hnil⟩ := bdrvCommit_of_not_begins hbegins
    refine ⟨fun _ h => absurd h hbegins,
      fun _ => ⟨fun h => absurd hneg (not_lt.mpr h), fun _ => ?_⟩⟩
    rw [hnil]
    exact not_mem_nil

end Call

/-! ## Crashes -/

section Crashes

variable {inp} {d : Disks α} {s : ℕ} {events : List CommitEvent}

/-- All accesses keep what a sector of the backing image may hold, if it may hold what is written to
it. -/
lemma holds_backing_apply {P : α → Prop} (hP : P (inp.visible s)) (h : d.backing.Holds s P)
    (e : CommitEvent) : (inp.apply d e).backing.Holds s P := by
  cases e with
  | write sector n ok =>
    refine Disk.Holds.writes h fun x hx hxs => ?_
    obtain ⟨i, -, rfl⟩ := mem_map.mp hx
    rw [show sector + i = s from hxs]
    exact hP
  | flushBacking => exact h.flush
  | makeEmpty removes =>
    rw [apply]
    split_ifs <;> exact h
  | flushOverlay => exact h

lemma holds_backing {P : α → Prop} (hP : P (inp.visible s)) (h : d.backing.Holds s P)
    (events : List CommitEvent) : (events.foldl inp.apply d).backing.Holds s P :=
  foldlRecOn (motive := fun d : Disks α => d.backing.Holds s P) events _ h fun _ hd e _ =>
    holds_backing_apply hP hd e

lemma holds_overlay_apply {P : Option α → Prop} (h : d.overlay.Holds s P) {e : CommitEvent}
    (he : e = .makeEmpty true → P none) : (inp.apply d e).overlay.Holds s P := by
  cases e with
  | write sector n ok => exact h
  | flushBacking => exact h
  | makeEmpty removes =>
    rw [apply]
    split_ifs with hr
    · refine Disk.Holds.writes h fun x hx _ => ?_
      obtain ⟨i, -, rfl⟩ := mem_map.mp hx
      exact he (by rw [hr])
    · exact h
  | flushOverlay => exact h.flush

lemma holds_overlay {P : Option α → Prop} (h : d.overlay.Holds s P)
    (hP : CommitEvent.makeEmpty true ∈ events → P none) :
    (events.foldl inp.apply d).overlay.Holds s P :=
  foldlRecOn (motive := fun d : Disks α => d.overlay.Holds s P) events _ h fun _ hd _ he =>
    holds_overlay_apply hd fun heq => hP (heq ▸ he)

lemma holds_backing_writeEvents (hcache : inp.enableWriteCache = false) {sector n : ℕ}
    (hle : sector ≤ s) (hlt : s < sector + n) :
    ((inp.writeEvents sector n).foldl inp.apply d).backing.Holds s (· = inp.visible s) := by
  rw [writeEvents, hcache]
  refine Disk.holds_flush (Disk.current_writes (fun x hx hxs => ?_) (.inr ?_))
  · obtain ⟨i, -, rfl⟩ := mem_map.mp hx
    rw [← hxs]
  · refine ⟨(s, inp.visible s), mem_map.mpr ⟨s - sector, mem_range.mpr (by omega), ?_⟩, rfl⟩
    rw [show sector + (s - sector) = s by omega]

lemma holds_copyLoop (hcache : inp.enableWriteCache = false) (fuel sector : ℕ)
    (hfuel : inp.totalSectors ≤ sector + fuel) (hok : (inp.copyLoop fuel sector).1 = true)
    (hle : sector ≤ s) (hlt : s < inp.totalSectors)
    (hsome : (inp.overlay s).isSome = true) (d : Disks α) :
    ((inp.copyLoop fuel sector).2.foldl inp.apply d).backing.Holds s (· = inp.visible s) := by
  induction fuel generalizing sector d with
  | zero => omega
  | succ fuel ih =>
    have hsector : sector < inp.totalSectors := by omega
    rcases hanswer : inp.bdrvIsAllocated sector commitBufSectors with ⟨allocated, n⟩
    obtain ⟨hpos, hsame⟩ := bdrvIsAllocated_spec hsector hanswer
    obtain ⟨hcopy, hok⟩ := (copyLoop_fst_succ hsector hanswer).mp hok
    rw [copyLoop_succ hsector hanswer]
    have hrest : sector + n ≤ s → ∀ d : Disks α,
        ((inp.copyLoop fuel (sector + n)).2.foldl inp.apply d).backing.Holds s
          (· = inp.visible s) :=
      fun hle' => ih (sector + n) (by omega) hok hle'
    by_cases halloc : allocated = true
    · rw [if_pos halloc, if_neg (by rw [(hcopy halloc).1]; decide),
        if_neg (by rw [(hcopy halloc).2]; decide), foldl_append]
      rcases Nat.lt_or_ge s (sector + n) with hin | hout
      · exact holds_backing (P := (· = inp.visible s)) rfl
          (holds_backing_writeEvents hcache hle hin) _
      · exact hrest hout _
    · rw [if_neg halloc]
      rcases Nat.lt_or_ge s (sector + n) with hin | hout
      · exact absurd ((hsame s hle hin).2 ▸ hsome) halloc
      · exact hrest hout _

lemma backing_mem_possible (hflush : CommitEvent.flushBacking ∉ events)
    (h : inp.backing ∈ d.backing.possible) :
    inp.backing ∈ (events.foldl inp.apply d).backing.possible := by
  refine foldlRecOn (motive := fun d : Disks α => inp.backing ∈ d.backing.possible) events _ h
    fun d h e he => ?_
  cases e with
  | write sector n ok => exact Disk.mem_writes_of_mem h _
  | flushBacking => exact absurd he hflush
  | makeEmpty removes =>
    rw [apply]
    split_ifs <;> exact h
  | flushOverlay => exact h

lemma overlay_foldl (hempty : CommitEvent.makeEmpty true ∉ events)
    (h : ∃ img, d.overlay = .synced img) :
    ∃ img, (events.foldl inp.apply d).overlay = .synced img := by
  refine foldlRecOn (motive := fun d : Disks α => ∃ img, d.overlay = .synced img) events _ h
    fun d h e he => ?_
  cases e with
  | write sector n ok => exact h
  | flushBacking => exact h
  | makeEmpty removes =>
    cases removes with
    | false => exact h
    | true => exact absurd he hempty
  | flushOverlay =>
    obtain ⟨img, himg⟩ := h
    exact ⟨img, by rw [apply, himg]; rfl⟩

variable {o : ℕ → Option α} {b : ℕ → α}

lemma overlay_eq_or (ho : o ∈ (inp.disks events).overlay.possible) (s : ℕ) :
    o s = inp.overlay s ∨ CommitEvent.makeEmpty true ∈ events ∧ o s = none := by
  have hinit : (Disk.synced inp.overlay).Holds s
      fun v => v = inp.overlay s ∨ CommitEvent.makeEmpty true ∈ events ∧ v = none :=
    Disk.holds_synced (.inl rfl)
  exact (holds_overlay (d := ⟨.synced inp.overlay, .synced inp.backing⟩) hinit
    fun hmem => .inr ⟨hmem, rfl⟩).2 o ho

lemma backing_eq_or (hb : b ∈ (inp.disks events).backing.possible) (s : ℕ) :
    b s = inp.backing s ∨ b s = inp.visible s := by
  have hinit : (Disk.synced inp.backing).Holds s fun v => v = inp.backing s ∨ v = inp.visible s :=
    Disk.holds_synced (.inl rfl)
  exact (holds_backing (d := ⟨.synced inp.overlay, .synced inp.backing⟩)
    (.inr rfl) hinit events).2 b hb

lemma visible_of_overlay (hoverlay : o s = inp.overlay s)
    (hb : b ∈ (inp.disks events).backing.possible) : (o s).getD (b s) = inp.visible s := by
  have hbacking := backing_eq_or hb s
  rw [hoverlay, Images.visible]
  cases hs : inp.overlay s with
  | some v => rfl
  | none =>
    rw [Images.visible, hs] at hbacking
    exact hbacking.elim id id

/-- The overlay is emptied right after the loop, when the copies may still be lost. -/
lemma not_crashSafe (hbegins : inp.Begins) (hall : inp.CopiesAll) (hempties : inp.Empties)
    (hcache : inp.enableWriteCache = true) {s : ℕ} (hs : s < inp.totalSectors) {v : α}
    (hv : inp.overlay s = some v) (hne : inp.backing s ≠ v) : ¬ inp.CrashSafe := by
  intro hsafe
  have hloop := inp.copied
  obtain ⟨ret, hret⟩ := hempties
  obtain ⟨rest, htrace⟩ : ∃ rest, inp.bdrvCommit.2 = (inp.loop.2 ++ [.makeEmpty true]) ++ rest := by
    rw [bdrvCommit_of_begins hbegins, copyAndEmpty_of_copiesAll hall, emptyAndFlush, hret]
    exact ⟨_, by rw [append_assoc]; rfl⟩
  have hk := hsafe (inp.loop.2 ++ [CommitEvent.makeEmpty true]).length
  rw [htrace, take_left] at hk
  obtain ⟨img, himg⟩ : ∃ img, (inp.disks inp.loop.2).overlay = .synced img :=
    overlay_foldl (hloop.notEmpty true) ⟨_, rfl⟩
  have hflush : CommitEvent.flushBacking ∉ inp.loop.2 ++ [CommitEvent.makeEmpty true] := by
    rw [mem_append, not_or]
    exact ⟨hloop.notFlushed hcache, by simp⟩
  have hb :
      inp.backing ∈ (inp.disks (inp.loop.2 ++ [CommitEvent.makeEmpty true])).backing.possible :=
    backing_mem_possible hflush rfl
  have ho : (inp.disks (inp.loop.2 ++ [CommitEvent.makeEmpty true])).overlay =
      (Disk.synced img).writes ((range inp.totalSectors).map fun s => (s, none)) := by
    rw [disks, foldl_append, ← himg]
    rfl
  rw [ho] at hk
  have hnone : ((Disk.synced img).writes
      ((range inp.totalSectors).map fun s => (s, none))).current s = none := by
    refine Disk.current_writes (fun x hx _ => ?_) (.inr ⟨(s, none), ?_, rfl⟩)
    · obtain ⟨i, -, rfl⟩ := mem_map.mp hx
      rfl
    · exact mem_map.mpr ⟨s, mem_range.mpr hs, rfl⟩
  have hvisible := hk _ (Disk.Sound.writes (Disk.sound_synced img) _) _ hb s hs
  rw [hnone, Images.visible, hv] at hvisible
  exact hne hvisible

lemma take_of_emptied {k : ℕ} (hempty : CommitEvent.makeEmpty true ∈ inp.bdrvCommit.2.take k) :
    inp.Begins ∧ inp.CopiesAll ∧ inp.Empties ∧
      ∃ rest, inp.bdrvCommit.2.take k = inp.loop.2 ++ rest := by
  have hloop := inp.copied
  have hmem := mem_of_mem_take hempty
  have hbegins : inp.Begins := by
    by_contra hnot
    rw [(bdrvCommit_of_not_begins hnot).2] at hmem
    exact not_mem_nil hmem
  rw [bdrvCommit_of_begins hbegins] at hmem hempty ⊢
  have hall : inp.CopiesAll := by
    by_contra hnot
    rw [copyAndEmpty_of_not_copiesAll hnot] at hmem
    exact hloop.notEmpty true hmem
  rw [copyAndEmpty_of_copiesAll hall] at hmem hempty ⊢
  rw [take_append] at hempty ⊢
  have htake : inp.loop.2.take k = inp.loop.2 := by
    refine take_of_length_le (Nat.le_of_not_lt fun hlt => ?_)
    rw [show k - inp.loop.2.length = 0 by omega, take_zero, append_nil] at hempty
    exact hloop.notEmpty true (mem_of_mem_take hempty)
  refine ⟨hbegins, hall, ?_, _, by rw [htake]⟩
  exact makeEmpty_mem_iff.mp ((mem_append.mp hmem).resolve_left (hloop.notEmpty true))

lemma visible_of_emptied {rest : List CommitEvent} (hall : inp.CopiesAll)
    (hsafe : inp.enableWriteCache = false ∨ ∀ s < inp.totalSectors, ∀ v, inp.overlay s = some v →
      inp.backing s = v)
    (hevents : events = inp.loop.2 ++ rest)
    (ho : o ∈ (inp.disks events).overlay.possible) (hb : b ∈ (inp.disks events).backing.possible)
    (hs : s < inp.totalSectors) : (o s).getD (b s) = inp.visible s := by
  rcases overlay_eq_or ho s with hoverlay | ⟨-, hnone⟩
  · exact visible_of_overlay hoverlay hb
  cases hv : inp.overlay s with
  | none => exact visible_of_overlay (hnone.trans hv.symm) hb
  | some v =>
    rw [hnone, Option.getD_none]
    rcases hsafe with hcache | hsame
    · have hholds := holds_copyLoop hcache inp.totalSectors 0 (by omega)
        (copyLoop_fst_iff.mpr hall) (Nat.zero_le s) hs (by rw [hv]; rfl)
        ⟨.synced inp.overlay, .synced inp.backing⟩
      rw [hevents, disks, foldl_append] at hb
      exact (holds_backing (P := (· = inp.visible s)) rfl hholds _).2 b hb
    · have hbacking := backing_eq_or hb s
      rw [Images.visible, hv, hsame s hs v hv] at hbacking ⊢
      exact hbacking.elim id id

/-- A crash at any point leaves the visible contents as they are if and only if the overlay is not
emptied, or the backing image is not a write-back cache, or has what it is given already. -/
theorem commit_crashSafe_iff (inp : CommitInput α) : inp.CrashSafe ↔
    (inp.Begins → inp.CopiesAll → inp.Empties → inp.enableWriteCache = false ∨
      ∀ s < inp.totalSectors, ∀ v, inp.overlay s = some v → inp.backing s = v) := by
  constructor
  · intro hsafe hbegins hall hempties
    by_contra hnot
    obtain ⟨hcache, hdiff⟩ := not_or.mp hnot
    rw [Bool.not_eq_false] at hcache
    push Not at hdiff
    obtain ⟨s, hs, v, hv, hne⟩ := hdiff
    exact not_crashSafe hbegins hall hempties hcache hs hv hne hsafe
  · intro hcond k o ho b hb s hs
    by_cases hempty : CommitEvent.makeEmpty true ∈ inp.bdrvCommit.2.take k
    · obtain ⟨hbegins, hall, hempties, rest, hevents⟩ := take_of_emptied hempty
      exact visible_of_emptied hall (hcond hbegins hall hempties) hevents ho hb hs
    · exact visible_of_overlay ((overlay_eq_or ho s).resolve_right fun h => hempty h.1) hb

end Crashes

/-! ## Examples -/

/-- One sector that is allocated in the overlay, and differs in the backing image.  Everything
succeeds, and the overlay is emptied. -/
def oneSector : CommitInput Bool where
  totalSectors := 1
  overlay _ := some true
  backing _ := false
  drvIsAllocated := none
  allocated_of_none _ _ _ := rfl
  answer _ hf := absurd hf (Option.not_mem_none _)
  hasDrv := true
  hasBacking := true
  keepReadOnly := false
  inUse := false
  readOnly := false
  enableWriteCache := true
  rwOpen := 0
  roOpen := 0
  readOk _ _ := true
  writeOk _ _ := true
  makeEmpty := some (0, true)
  flushOverlayOk := true
  flushBackingOk := true

/-- The same with a backing image that is read-only, and a read that fails: the call returns
success. -/
def failedRead : CommitInput Bool := { oneSector with readOnly := true, readOk := fun _ _ => false }

theorem failedRead_not_reported : ¬ ∀ (α : Type) (inp : CommitInput α), inp.Reports := by
  intro hall
  have hret : failedRead.bdrvCommit = (0, []) := by decide
  have hwritten := (hall Bool failedRead).1 (by rw [hret]) 0 Nat.one_pos rfl
  exact not_written_nil 0 hwritten

/-- A crash after the overlay was emptied, before the backing image is flushed, loses the sector. -/
theorem oneSector_lost : ¬ ∀ (α : Type) (inp : CommitInput α), inp.makeEmpty.isSome = true →
    inp.CrashSafe := by
  intro hall
  have hbegins : oneSector.Begins := ⟨rfl, rfl, rfl, rfl, fun h => Bool.noConfusion h⟩
  have hcopies : oneSector.CopiesAll := fun _ _ _ _ => ⟨rfl, rfl⟩
  exact not_crashSafe hbegins hcopies ⟨0, rfl⟩ rfl Nat.one_pos rfl Bool.false_ne_true
    (hall Bool oneSector rfl)

end CommitInput

end Qemu.Block
