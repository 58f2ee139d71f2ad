import Qemu.Block.CopyOnRead

/-!
# Streaming a backing chain into the top image

The job `stream_run` of `block/stream.c` copies the sectors of the images between the top and the
base into the top, by copy-on-read; then the base becomes the backing file of the top.  The guest
writes meanwhile, and what it reads must never change through the job.  Its writes stay out of the
sectors that are being copied, as `Qemu.Block.CopyOnRead` has it for requests whose counts fit an
`int`.

What a driver answers about allocation is an input of each step.  An answer is truthful about the
sectors it counts, but it may count none: `qcow2` counts none when it cannot read its tables.

**Main results:**
* `Job.Step.of_writing` — a write that the locking of copy-on-read lets through is a step of the
  guest.
* `bdrvCoIsAllocatedAbove_zero` — the sectors that are reported unallocated above the base read the
  same through the base alone.
* `Invariant.step` — each step keeps the contents, if a skip to the end is harmless.
* `stream_keeps_contents` — so does each run in which all skips to the end are harmless.
* `skip_loses` — a skip to the end that is not harmless loses contents when the job then completes.
* `bdrvCoIsAllocatedAbove_right_iff` — when the answer about the images above the base is right.
-/

namespace Qemu.Block.Stream

variable {α : Type}

/-! ## Chains of images -/

/-- An image: its length in sectors, and the data of its allocated sectors. -/
structure Image (α : Type) where
  totalSectors : ℕ
  data : ℕ → Option α

/-- What a reader of the first image of a chain gets: zeroes behind the end of a backing file. -/
def read (zero : α) : List (Image α) → ℕ → α
  | [], _ => zero
  | im :: backing, x =>
    if x < im.totalSectors then (im.data x).getD (read zero backing x) else zero

/-- The answers of a driver, by the number of sectors asked for; `none` is a driver without
`bdrv_co_is_allocated`. -/
abbrev Driver := Option (ℕ → ℤ × ℕ)

/-- The answers are right about all sectors they count. -/
structure Image.Truthful (im : Image α) (drv : Driver) (sector : ℕ) : Prop where
  all : drv = none → ∀ x < im.totalSectors, im.data x ≠ none
  le : ∀ f ∈ drv, ∀ nb, 0 ≤ (f nb).1 → (f nb).2 ≤ nb ∧ (f nb).1 ≤ 1
  allocated : ∀ f ∈ drv, ∀ nb, (f nb).1 = 1 →
    ∀ x, sector ≤ x → x < sector + (f nb).2 → im.data x ≠ none
  unallocated : ∀ f ∈ drv, ∀ nb, (f nb).1 = 0 →
    ∀ x, sector ≤ x → x < sector + (f nb).2 → im.data x = none

/-- `bdrv_co_is_allocated`: the return value and `*pnum`. -/
def bdrvCoIsAllocated (im : Image α) (drv : Driver) (sector nb : ℕ) : ℤ × ℕ :=
  if im.totalSectors ≤ sector then (0, 0)
  else
    let nb := min nb (im.totalSectors - sector)
    match drv with
    | none => (1, nb)
    | some f => f nb

/-- The loop of `bdrv_co_is_allocated_above`, with the smallest count so far. -/
def allocatedLoop (sector nb : ℕ) : List (Image α × Driver) → ℕ → ℤ × ℕ
  | [], n => (0, n)
  | (im, drv) :: rest, n =>
    let (ret, pnumInter) := bdrvCoIsAllocated im drv sector nb
    if ret < 0 then (ret, nb)
    else if ret ≠ 0 then (1, pnumInter)
    else allocatedLoop sector nb rest (if pnumInter < n then pnumInter else n)

/-- `bdrv_co_is_allocated_above`. -/
def bdrvCoIsAllocatedAbove (above : List (Image α × Driver)) (sector nb : ℕ) : ℤ × ℕ :=
  allocatedLoop sector nb above nb

/-! ## The job -/

/-- `STREAM_BUFFER_SIZE / BDRV_SECTOR_SIZE`. -/
def streamBufferSectors : ℕ := 1024

/-- The chain at the beginning: the images between the top and the base, the base with what is below
it, and the length of the top. -/
structure Job (α : Type) where
  zero : α
  totalSectors : ℕ
  inter : List (Image α)
  base : List (Image α)

/-- Where `stream_run` is.  `copying` holds what the copy-on-read of `lo` to `hi` has read. -/
inductive Phase (α : Type)
  | head (sector : ℕ)
  | asked (sector n : ℕ)
  | populate (sector n : ℕ)
  | copying (sector n lo hi : ℕ) (buf : ℕ → α)
  | left (ret : ℤ)
  | done (ret : ℤ)

/-- The top image, its backing chain, the phase of the job, and the contents the guest expects. -/
structure State (α : Type) where
  top : ℕ → Option α
  backing : List (Image α)
  phase : Phase α
  expected : ℕ → α

namespace Job

variable (job : Job α)

def chain : List (Image α) := job.inter ++ job.base

/-- What the guest reads. -/
def visible (s : State α) (x : ℕ) : α := (s.top x).getD (read job.zero s.backing x)

def topImage (s : State α) : Image α := ⟨job.totalSectors, s.top⟩

/-- The sector reads the same without the images between the top and the base. -/
def Settled (s : State α) (x : ℕ) : Prop :=
  s.top x ≠ none ∨ read job.zero job.chain x = read job.zero job.base x

/-- From `sector` on, no sector depends on the images between the top and the base. -/
def SkipHarmless (s : State α) (sector : ℕ) : Prop :=
  ∀ x, sector ≤ x → x < job.totalSectors → job.Settled s x

/-- The phase in which the job continues behind the answers about the images above the base. -/
def afterAbove (sector : ℕ) : ℤ × ℕ → Phase α
  | (ret, n) =>
    let n := if ret = 0 ∧ n = 0 then job.totalSectors - sector else n
    if ret < 0 then .left ret
    else if ret = 1 then .populate sector n
    else .head (sector + n)

/-- The sectors that a copy-on-read in progress keeps other requests away from. -/
def Locked (s : State α) (x : ℕ) : Prop :=
  ∃ sector n lo hi buf, s.phase = .copying sector n lo hi buf ∧ lo ≤ x ∧ x < hi

/-- The steps of the job and of the guest.  A skip to the end is allowed where `skip` holds. -/
inductive Step (skip : State α → ℕ → Prop) : State α → State α → Prop
  /-- The job is cancelled while it sleeps. -/
  | cancel {s : State α} {sector : ℕ} (h : s.phase = .head sector) :
      Step skip s { s with phase := .left 0 }
  | askTop {s : State α} {sector : ℕ} (drv : Driver) (h : s.phase = .head sector)
      (hlt : sector < job.totalSectors) (htrue : (job.topImage s).Truthful drv sector) :
      Step skip s { s with phase :=
        let (ret, n) := bdrvCoIsAllocated (job.topImage s) drv sector streamBufferSectors
        if ret = 1 then .head (sector + n) else .asked sector n }
  | askAbove {s : State α} {sector n : ℕ} (above : List (Image α × Driver))
      (h : s.phase = .asked sector n) (hinter : above.map Prod.fst = job.inter)
      (htrue : ∀ a ∈ above, a.1.Truthful a.2 sector)
      (hskip : bdrvCoIsAllocatedAbove above sector n = (0, 0) → skip s sector) :
      Step skip s
        { s with phase := job.afterAbove sector (bdrvCoIsAllocatedAbove above sector n) }
  /-- The rate limit sends the job back to sleep. -/
  | throttle {s : State α} {sector n : ℕ} (h : s.phase = .populate sector n) :
      Step skip s { s with phase := .head sector }
  /-- The copy-on-read reads whole clusters. -/
  | beginCopy {s : State α} {sector n lo hi : ℕ} (h : s.phase = .populate sector n)
      (hlo : lo ≤ sector) (hhi : sector + n ≤ hi) :
      Step skip s { s with phase := .copying sector n lo hi (job.visible s) }
  /-- The copy-on-read finds that the guest has allocated all the sectors. -/
  | noCopy {s : State α} {sector n : ℕ} (h : s.phase = .populate sector n)
      (hall : ∀ x, sector ≤ x → x < sector + n → s.top x ≠ none) :
      Step skip s { s with phase := .head (sector + n) }
  | endCopy {s : State α} {sector n lo hi : ℕ} {buf : ℕ → α}
      (h : s.phase = .copying sector n lo hi buf) :
      Step skip s { s with
        top := fun x => if lo ≤ x ∧ x < hi then some (buf x) else s.top x
        phase := .head (sector + n) }
  | failRead {s : State α} {sector n : ℕ} (ret : ℤ) (h : s.phase = .populate sector n)
      (hret : ret < 0) :
      Step skip s { s with phase := .left ret }
  /-- A write that fails may have written some of the sectors. -/
  | failWrite {s : State α} {sector n lo hi : ℕ} {buf : ℕ → α} (top : ℕ → Option α) (ret : ℤ)
      (h : s.phase = .copying sector n lo hi buf) (hret : ret < 0)
      (htop : ∀ x, top x = s.top x ∨ (lo ≤ x ∧ x < hi ∧ top x = some (buf x))) :
      Step skip s { s with top := top, phase := .left ret }
  /-- `bdrv_change_backing_file` returns `ret`, and the base becomes the backing file. -/
  | changeBacking {s : State α} (ret : ℤ) (h : s.phase = .head job.totalSectors) :
      Step skip s { s with backing := job.base, phase := .done ret }
  /-- The job has been cancelled behind the last sector, or is beyond it. -/
  | keepBacking {s : State α} {sector : ℕ} (h : s.phase = .head sector)
      (hle : job.totalSectors ≤ sector) :
      Step skip s { s with phase := .done 0 }
  | giveUp {s : State α} {ret : ℤ} (h : s.phase = .left ret) :
      Step skip s { s with phase := .done ret }
  /-- The guest writes the sectors from `a` to `b`, or a copy-on-read none.  The driver may allocate
  further sectors with their contents.  The write has waited for the copy-on-read of the sectors. -/
  | guest {s : State α} (a b : ℕ) (d : ℕ → α) (top : ℕ → Option α)
      (hwritten : ∀ x, a ≤ x → x < b → top x = some (d x))
      (hother : ∀ x, ¬ (a ≤ x ∧ x < b) → top x = s.top x ∨ top x = some (job.visible s x))
      (hlocked : ∀ x, Locked s x → ¬ (a ≤ x ∧ x < b)) :
      Step skip s { s with
        top := top
        expected := fun x => if a ≤ x ∧ x < b then d x else s.expected x }

/-- The states of the runs that begin with the old chain. -/
inductive Reachable (skip : State α → ℕ → Prop) : State α → Prop
  | init (top : ℕ → Option α) :
      Reachable skip
        ⟨top, job.chain, .head 0, fun x => (top x).getD (read job.zero job.chain x)⟩
  | step {s s' : State α} (h : Reachable skip s) (hstep : job.Step skip s s') : Reachable skip s'

section Locking

variable {ι : Type} [DecidableEq ι] {c : BitVec 64} {reqs : ι → CopyOnRead.Request α}
  {dev : CopyOnRead.State ι α} {i j : ι} {s : State α}

/-- The sectors that the job is copying are those of its request `i` to the device. -/
structure CopiedBy (c : BitVec 64) (reqs : ι → CopyOnRead.Request α) (dev : CopyOnRead.State ι α)
    (i : ι) (s : State α) : Prop where
  active : (dev.phase i).Active
  copies : (reqs i).copies = true
  locked : ∀ x, Locked s x → (reqs i).HasRounded c x

/-- A write of the guest that is under way during a copy-on-read is a step of the guest: it has
waited for the requests in the list, and so stays out of their clusters if all counts fit. -/
theorem Step.of_writing {skip : State α → ℕ → Prop} (hfit : CopyOnRead.Fitting c reqs)
    (hdev : CopyOnRead.Reachable c reqs dev) (hcopied : CopiedBy c reqs dev i s)
    (hwriting : dev.phase j = .writing) (d : ℕ → α) (top : ℕ → Option α)
    (hwritten : ∀ x, (reqs j).Has x → top x = some (d x))
    (hother : ∀ x, ¬ (reqs j).Has x → top x = s.top x ∨ top x = some (job.visible s x)) :
    job.Step skip s { s with
      top := top
      expected := fun x =>
        if (reqs j).sector.toNat ≤ x ∧ x < (reqs j).sector.toNat + (reqs j).nb.toNat then d x
        else s.expected x } := by
  refine .guest _ _ d top (fun x hle hlt => hwritten x ⟨hle, hlt⟩) hother fun x hlocked => ?_
  have hseparate := (hdev.invariant hfit).separate i j hcopied.active hcopied.copies hwriting
  exact hseparate x (hcopied.locked x hlocked)

end Locking

end Job

/-! ## Allocation above the base -/

variable {nb n sector : ℕ} {above : List (Image α × Driver)}

lemma bdrvCoIsAllocated_zero {im : Image α} {drv : Driver} (htrue : im.Truthful drv sector)
    (h : (bdrvCoIsAllocated im drv sector nb).1 = 0) (x : ℕ) (hx : sector ≤ x)
    (hlt : x < sector + (bdrvCoIsAllocated im drv sector nb).2) :
    x < im.totalSectors ∧ im.data x = none := by
  unfold bdrvCoIsAllocated at h hlt
  split_ifs at h hlt with hle
  · simp only at hlt
    omega
  cases drv with
  | none => simp at h
  | some f =>
    simp only at h hlt
    have hcount := (htrue.le f rfl _ h.ge).1
    exact ⟨by omega, htrue.unallocated f rfl _ h x hx hlt⟩

lemma bdrvCoIsAllocated_one {im : Image α} {drv : Driver} (htrue : im.Truthful drv sector)
    (h : (bdrvCoIsAllocated im drv sector nb).1 = 1) (x : ℕ) (hx : sector ≤ x)
    (hlt : x < sector + (bdrvCoIsAllocated im drv sector nb).2) : im.data x ≠ none := by
  unfold bdrvCoIsAllocated at h hlt
  split_ifs at h hlt with hle
  · simp at h
  · cases drv with
    | none => exact htrue.all rfl x (by simp only at hlt; omega)
    | some f => exact htrue.allocated f rfl _ h x hx hlt

lemma allocatedLoop_zero {m : ℕ} (htrue : ∀ a ∈ above, a.1.Truthful a.2 sector)
    (h : allocatedLoop sector nb above n = (0, m)) :
    m ≤ n ∧ ∀ a ∈ above, ∀ x, sector ≤ x → x < sector + m →
      x < a.1.totalSectors ∧ a.1.data x = none := by
  induction above generalizing n with
  | nil =>
    simp only [allocatedLoop, Prod.mk.injEq, true_and] at h
    exact ⟨h.ge, by simp⟩
  | cons a above ih =>
    obtain ⟨im, drv⟩ := a
    simp only [allocatedLoop] at h
    split_ifs at h with hneg hne hcount
    · simp only [Prod.mk.injEq] at h
      omega
    · simp at h
    all_goals
      rw [not_not] at hne
      obtain ⟨hle, hrest⟩ := ih (fun a ha => htrue a (by simp [ha])) h
      refine ⟨by omega, ?_⟩
      rintro a (_ | ⟨_, ha⟩) x hx hlt
      · exact bdrvCoIsAllocated_zero (htrue (im, drv) (by simp)) hne x hx (by simp only; omega)
      · exact hrest a ha x hx hlt

lemma allocatedLoop_ret (sector nb n : ℕ) (above : List (Image α × Driver)) :
    (allocatedLoop sector nb above n).1 < 0 ∨ (allocatedLoop sector nb above n).1 = 1 ∨
      (allocatedLoop sector nb above n).1 = 0 := by
  induction above generalizing n with
  | nil => simp [allocatedLoop]
  | cons a above ih =>
    simp only [allocatedLoop]
    split_ifs with hneg hne
    · exact .inl hneg
    · simp
    all_goals exact ih _

lemma read_append {zero : α} {inter base : List (Image α)} {x : ℕ}
    (h : ∀ im ∈ inter, x < im.totalSectors ∧ im.data x = none) :
    read zero (inter ++ base) x = read zero base x := by
  induction inter with
  | nil => rfl
  | cons im inter ih =>
    obtain ⟨hlt, hnone⟩ := h im (by simp)
    rw [List.cons_append, read, if_pos hlt, hnone, Option.getD_none]
    exact ih fun im' him' => h im' (by simp [him'])

/-- The sectors reported as unallocated above the base read the same through the base alone. -/
theorem bdrvCoIsAllocatedAbove_zero (job : Job α) (hinter : above.map Prod.fst = job.inter)
    (htrue : ∀ a ∈ above, a.1.Truthful a.2 sector)
    (h : bdrvCoIsAllocatedAbove above sector nb = (0, n)) {x : ℕ} (hx : sector ≤ x)
    (hlt : x < sector + n) :
    read job.zero job.chain x = read job.zero job.base x := by
  apply read_append
  rw [← hinter]
  intro im him
  obtain ⟨a, ha, rfl⟩ := List.mem_map.mp him
  exact (allocatedLoop_zero htrue h).2 a ha x hx hlt

/-! ## The invariant -/

/-- The sectors before this one are behind the job. -/
def Phase.position : Phase α → ℕ
  | .head sector => sector
  | .asked sector _ => sector
  | .populate sector _ => sector
  | .copying sector _ _ _ _ => sector
  | .left _ => 0
  | .done _ => 0

def Phase.Running : Phase α → Prop
  | .done _ => False
  | _ => True

/-- The guest sees what it expects, also in what a copy-on-read has read, and the sectors behind the
job do not depend on the images in between. -/
structure Invariant (job : Job α) (s : State α) : Prop where
  visible : ∀ x < job.totalSectors, job.visible s x = s.expected x
  backing : s.phase.Running → s.backing = job.chain
  settled : ∀ x < s.phase.position, x < job.totalSectors → job.Settled s x
  buffer : ∀ sector n lo hi buf, s.phase = .copying sector n lo hi buf →
    (lo ≤ sector ∧ sector + n ≤ hi) ∧
      ∀ x, lo ≤ x → x < hi → x < job.totalSectors → buf x = s.expected x

namespace Invariant

variable {job : Job α} {s : State α}

/-- A step of the job that writes nothing, if the sectors it passes are settled. -/
lemma setPhase (h : Invariant job s) {p : Phase α} (hrun : p.Running → s.phase.Running)
    (hcopy : ∀ sector n lo hi buf, p ≠ .copying sector n lo hi buf)
    (hsettled : ∀ x < p.position, s.phase.position ≤ x → x < job.totalSectors → job.Settled s x) :
    Invariant job { s with phase := p } where
  visible := h.visible
  backing := fun hp => h.backing (hrun hp)
  settled := by
    intro x hx hlt
    by_cases hpos : x < s.phase.position
    · exact h.settled x hpos hlt
    · exact hsettled x hx (by omega) hlt
  buffer := fun sector n lo hi buf hp => absurd hp (hcopy sector n lo hi buf)

lemma askTop (h : Invariant job s) (drv : Driver) (hphase : s.phase = .head sector)
    (htrue : (job.topImage s).Truthful drv sector) :
    Invariant job { s with phase :=
      let (ret, n) := bdrvCoIsAllocated (job.topImage s) drv sector streamBufferSectors
      if ret = 1 then .head (sector + n) else .asked sector n } := by
  simp only
  split_ifs with hret
  · refine h.setPhase (fun _ => by rw [hphase]; trivial) nofun fun x hx hle _ => .inl ?_
    rw [hphase] at hle
    exact bdrvCoIsAllocated_one htrue hret x hle hx
  · refine h.setPhase (fun _ => by rw [hphase]; trivial) nofun fun x hx hle _ => ?_
    rw [hphase] at hle
    exact absurd hx (by simpa [Phase.position] using hle)

lemma askAbove (h : Invariant job s) (hphase : s.phase = .asked sector n)
    (hinter : above.map Prod.fst = job.inter) (htrue : ∀ a ∈ above, a.1.Truthful a.2 sector)
    (hskip : bdrvCoIsAllocatedAbove above sector n = (0, 0) → job.SkipHarmless s sector) :
    Invariant job
      { s with phase := job.afterAbove sector (bdrvCoIsAllocatedAbove above sector n) } := by
  have hrun : s.phase.Running := by rw [hphase]; trivial
  have hpos : s.phase.position = sector := by rw [hphase]; rfl
  have hret := allocatedLoop_ret sector n n above
  rw [← bdrvCoIsAllocatedAbove] at hret
  rcases hanswer : bdrvCoIsAllocatedAbove above sector n with ⟨ret, m⟩
  rw [hanswer] at hret hskip
  rcases hret with hneg | rfl | rfl
  · rw [Job.afterAbove, if_pos hneg]
    exact h.setPhase (fun _ => hrun) nofun fun x hx => absurd hx (by simp [Phase.position])
  · refine h.setPhase (fun _ => hrun) nofun fun x hx hle => absurd hx ?_
    rw [hpos] at hle
    simpa [Phase.position, Job.afterAbove] using hle
  · by_cases hzero : m = 0
    · -- the images end here, as far as the answers tell: the rest is skipped
      subst hzero
      refine h.setPhase (fun _ => hrun) nofun fun x _ hle hlt => hskip rfl x ?_ hlt
      rwa [hpos] at hle
    · refine h.setPhase (fun _ => hrun) nofun fun x hx hle _ => .inr ?_
      rw [hpos] at hle
      simp only [Job.afterAbove, hzero, and_false, if_false] at hx
      exact bdrvCoIsAllocatedAbove_zero job hinter htrue hanswer hle hx

variable {hi lo : ℕ} {buf : ℕ → α}

lemma beginCopy (h : Invariant job s) (hphase : s.phase = .populate sector n) (hlo : lo ≤ sector)
    (hhi : sector + n ≤ hi) :
    Invariant job { s with phase := .copying sector n lo hi (job.visible s) } where
  visible := h.visible
  backing := fun _ => h.backing (by rw [hphase]; trivial)
  settled := fun x hx hlt => h.settled x (by rw [hphase]; exact hx) hlt
  buffer := by
    rintro sector' n' lo' hi' buf ⟨⟩
    exact ⟨⟨hlo, hhi⟩, fun x _ _ hlt => h.visible x hlt⟩

lemma visible_copy (h : Invariant job s) {top : ℕ → Option α}
    (hphase : s.phase = .copying sector n lo hi buf)
    (htop : ∀ x, top x = s.top x ∨ (lo ≤ x ∧ x < hi ∧ top x = some (buf x))) (p : Phase α) (x : ℕ)
    (hx : x < job.totalSectors) : job.visible
      { s with top := top, phase := p } x = s.expected x := by
  simp only [Job.visible]
  rcases htop x with hsame | ⟨hlo, hhi, hbuf⟩
  · rw [hsame]
    exact h.visible x hx
  · rw [hbuf, Option.getD_some]
    exact (h.buffer _ _ _ _ _ hphase).2 x hlo hhi hx

lemma endCopy (h : Invariant job s) (hphase : s.phase = .copying sector n lo hi buf) :
    Invariant job { s with
      top := fun x => if lo ≤ x ∧ x < hi then some (buf x) else s.top x
      phase := .head (sector + n) } where
  visible := by
    refine h.visible_copy hphase (fun x => ?_) _
    by_cases hx : lo ≤ x ∧ x < hi
    · exact .inr ⟨hx.1, hx.2, if_pos hx⟩
    · exact .inl (if_neg hx)
  backing := fun _ => h.backing (by rw [hphase]; trivial)
  settled := by
    intro x hx hlt
    obtain ⟨⟨hlo, hhi⟩, _⟩ := h.buffer _ _ _ _ _ hphase
    have hend : x < sector + n := hx
    by_cases hpos : x < sector
    · have hbefore := h.settled x (by rw [hphase]; exact hpos) hlt
      refine hbefore.imp_left fun hne => ?_
      simp only
      split_ifs
      · simp
      · exact hne
    · left
      simp only
      rw [if_pos (by omega)]
      simp
  buffer := nofun

lemma failWrite (h : Invariant job s) {top : ℕ → Option α} (ret : ℤ)
    (hphase : s.phase = .copying sector n lo hi buf)
    (htop : ∀ x, top x = s.top x ∨ (lo ≤ x ∧ x < hi ∧ top x = some (buf x))) :
    Invariant job { s with top := top, phase := .left ret } where
  visible := h.visible_copy hphase htop _
  backing := fun _ => h.backing (by rw [hphase]; trivial)
  settled := fun x hx => absurd hx (by simp [Phase.position])
  buffer := nofun

lemma changeBacking (h : Invariant job s) (ret : ℤ) (hphase : s.phase = .head job.totalSectors) :
    Invariant job { s with backing := job.base, phase := .done ret } where
  visible := by
    intro x hx
    have hchain : s.backing = job.chain := h.backing (by rw [hphase]; trivial)
    have hsettled := h.settled x (by rw [hphase]; exact hx) hx
    have hvisible := h.visible x hx
    rw [Job.visible, hchain] at hvisible
    rw [← hvisible, Job.visible]
    rcases hsettled with hsome | hsame
    · obtain ⟨v, hv⟩ := Option.ne_none_iff_exists'.mp hsome
      simp [hv]
    · rw [hsame]
  backing := fun hrun => hrun.elim
  settled := fun x hx => absurd hx (by simp [Phase.position])
  buffer := nofun

lemma guest (h : Invariant job s) (a b : ℕ) (d : ℕ → α) (top : ℕ → Option α)
    (hwritten : ∀ x, a ≤ x → x < b → top x = some (d x))
    (hother : ∀ x, ¬ (a ≤ x ∧ x < b) → top x = s.top x ∨ top x = some (job.visible s x))
    (hlocked : ∀ x, Job.Locked s x → ¬ (a ≤ x ∧ x < b)) :
    Invariant job { s with
      top := top
      expected := fun x => if a ≤ x ∧ x < b then d x else s.expected x } where
  visible := by
    intro x hx
    simp only [Job.visible]
    split_ifs with hin
    · rw [hwritten x hin.1 hin.2, Option.getD_some]
    rcases hother x hin with hsame | hfilled
    · rw [hsame]
      exact h.visible x hx
    · rw [hfilled, Option.getD_some]
      exact h.visible x hx
  backing := h.backing
  settled := by
    intro x hx hlt
    refine (h.settled x hx hlt).imp_left fun hne => ?_
    by_cases hin : a ≤ x ∧ x < b
    · simp [hwritten x hin.1 hin.2]
    · rcases hother x hin with hsame | hfilled
      · simpa [hsame] using hne
      · simp [hfilled]
  buffer := by
    intro sector n lo hi buf hphase
    obtain ⟨hrange, hbuf⟩ := h.buffer sector n lo hi buf hphase
    refine ⟨hrange, fun x hlo hhi hlt => ?_⟩
    -- the range is locked against the guest
    have hout := hlocked x ⟨sector, n, lo, hi, buf, hphase, hlo, hhi⟩
    simp only [if_neg hout]
    exact hbuf x hlo hhi hlt

/-- Each step keeps the invariant if skips to the end are harmless. -/
theorem step {s' : State α} (h : Invariant job s) (hstep : job.Step job.SkipHarmless s s') :
    Invariant job s' := by
  cases hstep with
  | cancel hphase =>
    exact h.setPhase (fun _ => by rw [hphase]; trivial) nofun
      fun x hx => absurd hx (by simp [Phase.position])
  | askTop drv hphase hlt htrue => exact h.askTop drv hphase htrue
  | askAbove above hphase hinter htrue hskip => exact h.askAbove hphase hinter htrue hskip
  | throttle hphase =>
    refine h.setPhase (fun _ => by rw [hphase]; trivial) nofun fun x hx hle => ?_
    rw [hphase] at hle
    exact absurd hx (by simpa [Phase.position] using hle)
  | beginCopy hphase hlo hhi => exact h.beginCopy hphase hlo hhi
  | noCopy hphase hall =>
    refine h.setPhase (fun _ => by rw [hphase]; trivial) nofun fun x hx hle _ => .inl ?_
    rw [hphase] at hle
    exact hall x hle hx
  | endCopy hphase => exact h.endCopy hphase
  | failRead ret hphase hret =>
    exact h.setPhase (fun _ => by rw [hphase]; trivial) nofun
      fun x hx => absurd hx (by simp [Phase.position])
  | failWrite top ret hphase hret htop => exact h.failWrite ret hphase htop
  | changeBacking ret hphase => exact h.changeBacking ret hphase
  | keepBacking hphase hle | giveUp hphase =>
    exact h.setPhase (fun hrun => hrun.elim) nofun
      fun x hx => absurd hx (by simp [Phase.position])
  | guest a b d top hwritten hother hlocked => exact h.guest a b d top hwritten hother hlocked

end Invariant

/-! ## A driver that answers sector by sector -/

/-- A driver that answers for one sector at a time. -/
def Image.oneByOne (im : Image α) (sector : ℕ) : Driver :=
  some fun nb => (if (im.data sector).isSome then 1 else 0, min nb 1)

lemma Image.truthful_oneByOne (im : Image α) (sector : ℕ) :
    im.Truthful (im.oneByOne sector) sector where
  all := nofun
  le := by
    rintro f ⟨⟩ nb _
    refine ⟨Nat.min_le_left nb 1, ?_⟩
    simp only
    split_ifs <;> omega
  allocated := by
    rintro f ⟨⟩ nb h x hx hlt
    obtain rfl : x = sector := by simp only at hlt; omega
    intro hnone
    simp [hnone] at h
  unallocated := by
    rintro f ⟨⟩ nb h x hx hlt
    obtain rfl : x = sector := by simp only at hlt; omega
    simpa using h

namespace Job

variable (job : Job α)

def untouched (p : Phase α) : State α :=
  ⟨fun _ => none, job.chain, p, fun x => read job.zero job.chain x⟩

/-- The answers of the images above the base, one sector at a time. -/
def aboveAt (sector : ℕ) : List (Image α × Driver) :=
  job.inter.map fun im => (im, im.oneByOne sector)

variable {job} {skip : State α → ℕ → Prop}

lemma Reachable.asked (h : job.Reachable skip (job.untouched (.head sector)))
    (hlt : sector < job.totalSectors) :
    job.Reachable skip (job.untouched (.asked sector 1)) := by
  have hstep := Reachable.step h
    (.askTop ((job.topImage (job.untouched (.head sector))).oneByOne sector) rfl hlt
      (Image.truthful_oneByOne _ sector))
  have hanswer : bdrvCoIsAllocated (job.topImage (job.untouched (.head sector)))
      ((job.topImage (job.untouched (.head sector))).oneByOne sector) sector
      streamBufferSectors = (0, 1) := by
    have hone : min (min streamBufferSectors (job.totalSectors - sector)) 1 = 1 := by
      simp only [streamBufferSectors]
      omega
    rw [bdrvCoIsAllocated, if_neg (by exact not_le.mpr hlt)]
    exact Prod.ext rfl hone
  rw [hanswer] at hstep
  exact hstep

lemma Reachable.answered (h : job.Reachable skip (job.untouched (.asked sector 1)))
    (hskip : bdrvCoIsAllocatedAbove (job.aboveAt sector) sector 1 = (0, 0) →
      skip (job.untouched (.asked sector 1)) sector) :
    job.Reachable skip (job.untouched
      (job.afterAbove sector (bdrvCoIsAllocatedAbove (job.aboveAt sector) sector 1))) := by
  refine .step h (.askAbove _ rfl ?_ (fun a ha => ?_) hskip)
  · simp [aboveAt, Function.comp_def]
  · obtain ⟨im, _, rfl⟩ := List.mem_map.mp ha
    exact im.truthful_oneByOne sector

end Job

/-! ## Runs -/

lemma Job.Reachable.invariant {job : Job α} {s : State α}
    (h : job.Reachable job.SkipHarmless s) : Invariant job s := by
  induction h with
  | init top => exact ⟨fun _ _ => rfl, fun _ => rfl,
      fun x hx => absurd hx (by simp [Phase.position]), nofun⟩
  | step _ hstep ih => exact ih.step hstep

/-- In each run in which the job skips to the end only where nothing depends on the images in
between, the guest sees what it expects at all times: over the old chain before the job has
completed, over the base afterwards. -/
theorem stream_keeps_contents (job : Job α) (s : State α) (h : job.Reachable job.SkipHarmless s) :
    (s.phase.Running → s.backing = job.chain) ∧
      ∀ x < job.totalSectors, job.visible s x = s.expected x :=
  ⟨h.invariant.backing, h.invariant.visible⟩

def copiedChain : Job ℕ where
  zero := 0
  totalSectors := 1
  inter := [⟨1, fun _ => some 5⟩]
  base := []

/-- The sector is copied into the top, and is still there when the job has completed. -/
theorem copiedChain_keeps : ∃ s, copiedChain.Reachable copiedChain.SkipHarmless s ∧
    s.phase = .done 0 ∧
      s.backing = [] ∧ copiedChain.visible s 0 = s.expected 0 := by
  have hasked : copiedChain.Reachable copiedChain.SkipHarmless
      (copiedChain.untouched (.asked 0 1)) :=
    Job.Reachable.asked (.init fun _ => none) (by decide)
  have hpopulate : copiedChain.Reachable copiedChain.SkipHarmless
      (copiedChain.untouched (.populate 0 1)) :=
    hasked.answered fun h => absurd h (by decide)
  have hcopied := Job.Reachable.step
    (.step hpopulate (.beginCopy rfl (Nat.le_refl 0) (Nat.le_refl 1))) (.endCopy rfl)
  have hdone := Job.Reachable.step hcopied (.changeBacking 0 rfl)
  exact ⟨_, hdone, rfl, rfl, (stream_keeps_contents copiedChain _ hdone).2 0 (by decide)⟩

/-- A skip to the end that is not harmless loses contents if the job completes at once. -/
theorem skip_loses {job : Job α} {s : State α} (h : Invariant job s)
    (hphase : s.phase = .asked sector n) (hle : sector ≤ job.totalSectors)
    (hskip : ¬ job.SkipHarmless s sector) (above : List (Image α × Driver))
    (hinter : above.map Prod.fst = job.inter) (htrue : ∀ a ∈ above, a.1.Truthful a.2 sector)
    (hanswer : bdrvCoIsAllocatedAbove above sector n = (0, 0)) :
    ∃ s₁ s₂, job.Step (fun _ _ => True) s s₁ ∧ job.Step (fun _ _ => True) s₁ s₂ ∧
      s₂.phase = .done 0 ∧ s₂.backing = job.base ∧
      ∃ x < job.totalSectors, job.visible s₂ x ≠ s₂.expected x := by
  have hnext : job.Step (fun _ _ => True) s
      { s with phase := job.afterAbove sector (bdrvCoIsAllocatedAbove above sector n) } :=
    .askAbove above hphase hinter htrue fun _ => trivial
  rw [hanswer] at hnext
  have hhead : (job.afterAbove sector (0, 0) : Phase α) = .head job.totalSectors := by
    simp [Job.afterAbove, Nat.add_sub_cancel' hle]
  rw [hhead] at hnext
  refine ⟨_, _, hnext, .changeBacking 0 rfl, rfl, rfl, ?_⟩
  simp only [Job.SkipHarmless, Job.Settled, not_forall, not_or, not_not] at hskip
  obtain ⟨x, _, hlt, hnone, hne⟩ := hskip
  refine ⟨x, hlt, ?_⟩
  have hchain : s.backing = job.chain := h.backing (by rw [hphase]; trivial)
  have hvisible := h.visible x hlt
  simp only [Job.visible, hnone, Option.getD_none, hchain] at hvisible ⊢
  rw [← hvisible]
  exact fun heq => hne heq.symm

/-! ## An image that ends early -/

/-- The top has three sectors and no data.  Below it, one image holds the last sector, and the next
one has only one sector. -/
def shortChain : Job ℕ where
  zero := 0
  totalSectors := 3
  inter := [⟨3, fun x => if x = 2 then some 5 else none⟩, ⟨1, fun _ => none⟩]
  base := []

/-- The second image ends at sector 1, so the job skips the rest there, and the data of sector 2 is
lost. -/
theorem shortChain_loses : ¬ ∀ s, shortChain.Reachable (fun _ _ => True) s → s.phase = .done 0 →
      ∀ x < shortChain.totalSectors, shortChain.visible s x = s.expected x := by
  intro h
  have hone : shortChain.Reachable (fun _ _ => True) (shortChain.untouched (.head 1)) :=
    Job.Reachable.answered (Job.Reachable.asked (.init fun _ => none) (by decide))
      fun _ => trivial
  have hskip : shortChain.Reachable (fun _ _ => True) (shortChain.untouched (.head 3)) :=
    Job.Reachable.answered (hone.asked (by decide)) fun _ => trivial
  have hdone := Job.Reachable.step hskip (.changeBacking 0 rfl)
  exact absurd (h _ hdone rfl 2 (by decide)) (by decide)

/-! ## The answer about the images above the base -/

/-- An image whose driver answers about the sector without an error and counts it. -/
structure Level (α : Type) (sector : ℕ) where
  im : Image α
  drv : Driver
  truthful : im.Truthful drv sector
  counts : ∀ f ∈ drv, ∀ nb, 0 < nb → 0 ≤ (f nb).1 ∧ 0 < (f nb).2

namespace Level

variable {sector nb n : ℕ} {levels : List (Level α sector)}

/-- The image has the sector `x` allocated. -/
def Has (l : Level α sector) (x : ℕ) : Prop := x < l.im.totalSectors ∧ l.im.data x ≠ none

/-- The answer counts at least one sector and at most those asked for, and is right about them. -/
def Right (levels : List (Level α sector)) (nb : ℕ) : ℤ × ℕ → Prop
  | (ret, pnum) => (1 ≤ pnum ∧ pnum ≤ nb) ∧
      (ret = 1 ∧ (∀ x, sector ≤ x → x < sector + pnum → ∃ l ∈ levels, l.Has x) ∨
        ret = 0 ∧ ∀ x, sector ≤ x → x < sector + pnum → ∀ l ∈ levels, ¬ l.Has x)

/-- The images and drivers that `bdrv_co_is_allocated_above` goes through. -/
def chain (levels : List (Level α sector)) :
    List (Image α × Driver) := levels.map fun l => (l.im, l.drv)

/-- An image answers yes or no, and counts no sector only if it ends before the first one. -/
lemma bdrvCoIsAllocated_counts (l : Level α sector) (hnb : 0 < nb) :
    ∃ ret n, bdrvCoIsAllocated l.im l.drv sector nb = (ret, n) ∧ (ret = 0 ∨ ret = 1 ∧ 0 < n) ∧
      n ≤ min nb (l.im.totalSectors - sector) ∧ (0 < n ↔ sector < l.im.totalSectors) := by
  unfold bdrvCoIsAllocated
  by_cases hle : l.im.totalSectors ≤ sector
  · exact ⟨0, 0, if_pos hle, by omega⟩
  rw [if_neg hle]
  cases hdrv : l.drv with
  | none => exact ⟨1, _, rfl, by omega⟩
  | some f =>
    have hpos := l.counts f hdrv (min nb (l.im.totalSectors - sector)) (by omega)
    have hcount := l.truthful.le f hdrv _ hpos.1
    exact ⟨_, _, rfl, by omega⟩

/-- The loop stops at the first image that has the sector.  Without one, it counts no sector only if
an image ends before the first one. -/
lemma allocatedLoop_counts (hnb : 0 < nb) (levels : List (Level α sector)) (n : ℕ) :
    ∃ ret m, allocatedLoop sector nb (chain levels) n = (ret, m) ∧
      (ret = 1 ∧ 0 < m ∧ m ≤ nb ∧ (∃ l ∈ levels, ∀ x, sector ≤ x → x < sector + m → l.Has x) ∨
        ret = 0 ∧ (0 < m ↔ 0 < n ∧ ∀ l ∈ levels, sector < l.im.totalSectors) ∧
          ∀ l ∈ levels, ¬ l.Has sector) := by
  induction levels generalizing n with
  | nil => exact ⟨0, n, rfl, by simp⟩
  | cons l levels ih =>
    obtain ⟨ret, c, heq, hret, hle, hpos⟩ := l.bdrvCoIsAllocated_counts hnb
    rw [chain, List.map_cons, ← chain]
    simp only [allocatedLoop, heq]
    rcases hret with rfl | ⟨rfl, hc⟩
    · obtain ⟨ret, m, hloop, h⟩ := ih (if c < n then c else n)
      refine ⟨ret, m, by simpa using hloop, ?_⟩
      rcases h with ⟨hret, hm, hmnb, hhas⟩ | ⟨hret, hmpos, hsectors⟩
      · exact .inl ⟨hret, hm, hmnb, List.exists_mem_cons_of_exists hhas⟩
      simp only [List.forall_mem_cons]
      refine .inr ⟨hret, ?_, fun hhas => hhas.2 ?_, hsectors⟩
      · rw [hmpos, ← hpos]
        split_ifs <;> grind
      · exact (bdrvCoIsAllocated_zero l.truthful (congrArg Prod.fst heq) sector le_rfl
          (by rw [heq]; have := hpos.mpr hhas.1; omega)).2
    · refine ⟨1, c, by simp, .inl ⟨rfl, hc, by omega, l, by simp, fun x hx hlt => ⟨by omega, ?_⟩⟩⟩
      exact bdrvCoIsAllocated_one l.truthful (congrArg Prod.fst heq) x hx (by rwa [heq])

end Level

/-- The answer about the images above the base is right iff one of them has the sector, or none of
them ends before it. -/
theorem bdrvCoIsAllocatedAbove_right_iff {sector : ℕ} (levels : List (Level α sector)) (nb : ℕ)
    (hnb : 1 ≤ nb) :
    Level.Right levels nb (bdrvCoIsAllocatedAbove (Level.chain levels) sector nb) ↔
      (∃ l ∈ levels, l.Has sector) ∨ ∀ l ∈ levels, sector < l.im.totalSectors := by
  obtain ⟨ret, m, heq, h⟩ := Level.allocatedLoop_counts hnb levels nb
  rw [bdrvCoIsAllocatedAbove, heq]
  rcases h with ⟨rfl, hm, hle, l, hl, hhas⟩ | ⟨rfl, hm, hsector⟩
  · have hright : Level.Right levels nb (1, m) :=
      ⟨⟨hm, hle⟩, .inl ⟨rfl, fun x hx hlt => ⟨l, hl, hhas x hx hlt⟩⟩⟩
    exact iff_of_true hright (.inl ⟨l, hl, hhas sector le_rfl (by omega)⟩)
  have hno : ¬ ∃ l ∈ levels, l.Has sector := fun ⟨l, hl, hhas⟩ => hsector l hl hhas
  have htrue : ∀ a ∈ Level.chain levels, a.1.Truthful a.2 sector :=
    List.forall_mem_map.mpr fun l _ => l.truthful
  obtain ⟨hle, hnone⟩ := allocatedLoop_zero htrue heq
  rw [or_iff_right hno]
  constructor
  · exact fun hright => (hm.mp hright.1.1).2
  · intro hlong
    refine ⟨⟨hm.mpr ⟨hnb, hlong⟩, hle⟩, .inr ⟨rfl, fun x hx hlt l hl hhas => hhas.2 ?_⟩⟩
    exact (hnone _ (List.mem_map_of_mem hl) x hx hlt).2

def emptyLevel (totalSectors sector : ℕ) : Level ℕ sector where
  im := ⟨totalSectors, fun _ => none⟩
  drv := some fun nb => (0, nb)
  truthful := ⟨by simp, by simp, by simp, by simp⟩
  counts := by simp

theorem bdrvCoIsAllocatedAbove_right_emptyLevels : Level.Right [emptyLevel 2 1, emptyLevel 3 1] 1
      (bdrvCoIsAllocatedAbove (Level.chain [emptyLevel 2 1, emptyLevel 3 1]) 1 1) :=
  (bdrvCoIsAllocatedAbove_right_iff _ 1 le_rfl).mpr (.inr (by decide))

/-- An image that ends before the sector makes the answer count no sector. -/
theorem bdrvCoIsAllocatedAbove_counts_none :
    ¬ ∀ (sector nb : ℕ) (top : Level ℕ sector) (levels : List (Level ℕ sector)),
      sector < top.im.totalSectors → 1 ≤ nb →
        Level.Right (top :: levels) nb
          (bdrvCoIsAllocatedAbove (Level.chain (top :: levels)) sector nb) := by
  intro h
  have hright := h 1 1 (emptyLevel 2 1) [emptyLevel 1 1] (by decide) le_rfl
  exact absurd hright.1.1 (by decide)

end Qemu.Block.Stream
