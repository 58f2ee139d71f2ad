import Mathlib

/-!
# Coroutine locks

`qemu-coroutine-lock.c` and its bottom half.  A coroutine that cannot take a lock puts itself into
the queue of the lock and yields.  Whoever releases the lock moves coroutines from there to
`unlock_bh_queue`, which all locks share, and schedules the bottom half that enters them.  Until
then others may take the lock, so a coroutine that is entered may have to wait again.

A step is what a coroutine does between two yields, or one round of the bottom half.  Any coroutine
that is not waiting may take the next step.

**Main results:**
- `Placed`: a waiting coroutine is in one queue
- `Invariant.step`, `Reachable.invariant`: the locks are held as their fields say, and a free lock
  with waiters has woken one of them
- `coLocks_safe`: what the locks guarantee in every reachable state
- `unlock_asserts`: the assertions of the source do not fail
-/

namespace Qemu.Coroutine

open List Function

variable {Co : Type} [DecidableEq Co]

/-! ## Locks, queues and coroutines -/

/-- `CoMutex`. -/
structure CoMutex (Co : Type) where
  locked : Bool
  queue : List Co

/-- `CoRwlock`. -/
structure CoRwlock (Co : Type) where
  writer : Bool
  reader : ℕ
  queue : List Co

/-- `unlock_bh_queue` and `unlock_bh`; `running` counts the calls of `qemu_co_queue_next_bh` that
have not returned. -/
structure UnlockBh (Co : Type) where
  queue : List Co
  scheduled : Bool
  running : ℕ

/-- A queue: that of a mutex, that of a read-write lock, or a `CoQueue` of its own. -/
inductive Place
  | mutex (m : ℕ)
  | rwlock (l : ℕ)
  | plain (q : ℕ)
deriving DecidableEq

/-- The functions that a coroutine can wait in. -/
inductive Op
  | lock (m : ℕ)
  | rdlock (l : ℕ)
  | wrlock (l : ℕ)
  | wait (q : ℕ)
deriving DecidableEq

/-- The queue in which the function waits. -/
def Op.place : Op → Place
  | .lock m => .mutex m
  | .rdlock l => .rwlock l
  | .wrlock l => .rwlock l
  | .wait q => .plain q

/-- Where a coroutine is: outside, in the yield of `qemu_co_queue_wait`, or right behind it. -/
inductive CoState
  | running
  | waiting (op : Op)
  | resumed (op : Op)
deriving DecidableEq

/-- All locks and coroutines.  The last three fields are not in the source: the steps below record
in them who holds which lock. -/
structure World (Co : Type) where
  mutex : ℕ → CoMutex Co
  rwlock : ℕ → CoRwlock Co
  plain : ℕ → List Co
  bh : UnlockBh Co
  state : Co → CoState
  holders : ℕ → List Co
  readers : ℕ → List Co
  writers : ℕ → List Co

namespace World

variable (w : World Co)

/-- The coroutines in a queue, the one to be woken next first. -/
def queueOf : Place → List Co
  | .mutex m => (w.mutex m).queue
  | .rwlock l => (w.rwlock l).queue
  | .plain q => w.plain q

def setQueue (entries : List Co) : Place → World Co
  | .mutex m => { w with mutex := update w.mutex m { w.mutex m with queue := entries } }
  | .rwlock l => { w with rwlock := update w.rwlock l { w.rwlock l with queue := entries } }
  | .plain q => { w with plain := update w.plain q entries }

def setState (c : Co) (state : CoState) : World Co :=
  { w with state := update w.state c state }

/-- `qemu_co_queue_wait`, up to the yield. -/
def qemuCoQueueWait (c : Co) (op : Op) : World Co :=
  (w.setQueue (w.queueOf op.place ++ [c]) op.place).setState c (.waiting op)

/-- `qemu_co_queue_wait_insert_head`, up to the yield. -/
def qemuCoQueueWaitInsertHead (c : Co) (op : Op) : World Co :=
  (w.setQueue (c :: w.queueOf op.place) op.place).setState c (.waiting op)

/-- `qemu_bh_schedule(unlock_bh)`. -/
def qemuBhSchedule : World Co := { w with bh := { w.bh with scheduled := true } }

/-- `qemu_co_queue_next`. -/
def qemuCoQueueNext (p : Place) : World Co :=
  match w.queueOf p with
  | [] => w
  | next :: rest =>
    let w' := w.setQueue rest p
    { w' with bh := { w'.bh with queue := w'.bh.queue ++ [next] } }.qemuBhSchedule

/-- The loop of `qemu_co_queue_restart_all`, of at most `n` rounds. -/
def restartLoop (p : Place) : ℕ → World Co → World Co
  | 0, w => w
  | n + 1, w => if w.queueOf p = [] then w else restartLoop p n (w.qemuCoQueueNext p)

/-- `qemu_co_queue_restart_all`. -/
def qemuCoQueueRestartAll (p : Place) : World Co := restartLoop p (w.queueOf p).length w

/-! ## Taking and releasing locks -/

/-- A round of the loop of `qemu_co_mutex_lock`, and what follows the loop. -/
def qemuCoMutexLock (c : Co) (m : ℕ) : World Co :=
  if (w.mutex m).locked = true then w.qemuCoQueueWait c (.lock m)
  else
    { w with mutex := update w.mutex m { w.mutex m with locked := true } }.setState c .running

/-- A round of the loop of `qemu_co_rwlock_rdlock`, and what follows the loop. -/
def qemuCoRwlockRdlock (c : Co) (l : ℕ) : World Co :=
  if (w.rwlock l).writer = true then w.qemuCoQueueWait c (.rdlock l)
  else
    { w with
      rwlock := update w.rwlock l
        { w.rwlock l with reader := (w.rwlock l).reader + 1 } }.setState c .running

/-- A round of the loop of `qemu_co_rwlock_wrlock`, and what follows the loop. -/
def qemuCoRwlockWrlock (c : Co) (l : ℕ) : World Co :=
  if (w.rwlock l).writer = true ∨ (w.rwlock l).reader ≠ 0 then w.qemuCoQueueWait c (.wrlock l)
  else
    { w with rwlock := update w.rwlock l { w.rwlock l with writer := true } }.setState c .running

/-- What a coroutine does up to the next yield or the return. -/
def goOn (c : Co) : Op → World Co
  | .lock m => w.qemuCoMutexLock c m
  | .rdlock l => w.qemuCoRwlockRdlock c l
  | .wrlock l => w.qemuCoRwlockWrlock c l
  | .wait _ => w.setState c .running

/-- `qemu_co_mutex_unlock`: none if the assertion fails. -/
def qemuCoMutexUnlock (m : ℕ) : Option (World Co) :=
  if (w.mutex m).locked = true then
    let w' : World Co :=
      { w with mutex := update w.mutex m { w.mutex m with locked := false } }
    some (w'.qemuCoQueueNext (.mutex m))
  else none

/-- `qemu_co_rwlock_unlock`: none if the assertion fails. -/
def qemuCoRwlockUnlock (l : ℕ) : Option (World Co) :=
  if (w.rwlock l).writer = true then
    let w' : World Co :=
      { w with rwlock := update w.rwlock l { w.rwlock l with writer := false } }
    some (w'.qemuCoQueueRestartAll (.rwlock l))
  else if (w.rwlock l).reader = 0 then none
  else
    let w' : World Co :=
      { w with
        rwlock := update w.rwlock l { w.rwlock l with reader := (w.rwlock l).reader - 1 } }
    if (w.rwlock l).reader - 1 = 0 then some (w'.qemuCoQueueNext (.rwlock l)) else some w'

/-- The coroutine has returned from the function, and holds the lock that it has asked for. -/
def record (c : Co) : Op → World Co
  | .lock m => { w with holders := update w.holders m (c :: w.holders m) }
  | .rdlock l => { w with readers := update w.readers l (c :: w.readers l) }
  | .wrlock l => { w with writers := update w.writers l (c :: w.writers l) }
  | .wait _ => w

/-- `goOn`, with a record of the lock if the coroutine has returned from the function. -/
def proceed (c : Co) (op : Op) : World Co :=
  if (w.goOn c op).state c = .running then (w.goOn c op).record c op else w.goOn c op

/-- The coroutine is about to release the mutex. -/
def dropHolder (c : Co) (m : ℕ) : World Co :=
  { w with holders := update w.holders m ((w.holders m).erase c) }

/-- The coroutine is about to release the lock that it holds as a reader. -/
def dropReader (c : Co) (l : ℕ) : World Co :=
  { w with readers := update w.readers l ((w.readers l).erase c) }

/-- The coroutine is about to release the lock that it holds as a writer. -/
def dropWriter (c : Co) (l : ℕ) : World Co :=
  { w with writers := update w.writers l ((w.writers l).erase c) }

/-- The coroutine at the head of `unlock_bh_queue` is taken out and entered. -/
def enterNext (next : Co) (rest : List Co) (op : Op) : World Co :=
  { w with bh := { w.bh with queue := rest } }.setState next (.resumed op)

end World

/-! ## Steps -/

/-- What can happen next.  Locks are released by those who hold them, and are then theirs no longer.
Other queues may be woken from outside of coroutines. -/
inductive Step : World Co → World Co → Prop
  | call {w : World Co} (c : Co) (op : Op) (hop : ∀ q, op ≠ .wait q) (hc : w.state c = .running) :
      Step w (w.proceed c op)
  | wait {w : World Co} (c : Co) (q : ℕ) (hc : w.state c = .running) :
      Step w (w.qemuCoQueueWait c (.wait q))
  | waitHead {w : World Co} (c : Co) (q : ℕ) (hc : w.state c = .running) :
      Step w (w.qemuCoQueueWaitInsertHead c (.wait q))
  | resume {w : World Co} (c : Co) (op : Op) (hc : w.state c = .resumed op) :
      Step w (w.proceed c op)
  | yield {w : World Co} (c : Co) (hc : w.state c = .running) : Step w w
  | mutexUnlock {w w' : World Co} (c : Co) (m : ℕ) (hc : w.state c = .running)
      (hold : c ∈ w.holders m) (hw : (w.dropHolder c m).qemuCoMutexUnlock m = some w') : Step w w'
  | rdUnlock {w w' : World Co} (c : Co) (l : ℕ) (hc : w.state c = .running)
      (hold : c ∈ w.readers l) (hw : (w.dropReader c l).qemuCoRwlockUnlock l = some w') : Step w w'
  | wrUnlock {w w' : World Co} (c : Co) (l : ℕ) (hc : w.state c = .running)
      (hold : c ∈ w.writers l) (hw : (w.dropWriter c l).qemuCoRwlockUnlock l = some w') : Step w w'
  | next {w : World Co} (q : ℕ) : Step w (w.qemuCoQueueNext (.plain q))
  | restartAll {w : World Co} (q : ℕ) : Step w (w.qemuCoQueueRestartAll (.plain q))
  | bhPoll {w : World Co} (hs : w.bh.scheduled = true) :
      Step w { w with bh := { w.bh with scheduled := false, running := w.bh.running + 1 } }
  | bhEnter {w : World Co} (next : Co) (rest : List Co) (op : Op) (hr : 0 < w.bh.running)
      (hq : w.bh.queue = next :: rest) (hc : w.state next = .waiting op) :
      Step w (w.enterNext next rest op)
  | bhReturn {w : World Co} (hr : 0 < w.bh.running) (hq : w.bh.queue = []) :
      Step w { w with bh := { w.bh with running := w.bh.running - 1 } }

/-- All locks are free, and all coroutines are outside of the functions. -/
def World.init : World Co where
  mutex _ := ⟨false, []⟩
  rwlock _ := ⟨false, 0, []⟩
  plain _ := []
  bh := ⟨[], false, 0⟩
  state _ := .running
  holders _ := []
  readers _ := []
  writers _ := []

/-- The states that steps lead to. -/
inductive Reachable : World Co → Prop
  | init : Reachable World.init
  | step {w w' : World Co} : Reachable w → Step w w' → Reachable w'

/-! ## What the functions do -/

/-- The fields of the locks, without the queues, and who holds them. -/
structure Core (Co : Type) where
  locked : ℕ → Bool
  writer : ℕ → Bool
  reader : ℕ → ℕ
  holders : ℕ → List Co
  readers : ℕ → List Co
  writers : ℕ → List Co

/-- The lock is free; a queue of its own is none. -/
def Core.Free (k : Core Co) : Place → Prop
  | .mutex m => k.locked m = false
  | .rwlock l => k.writer l = false ∧ k.reader l = 0
  | .plain _ => False

/-- An update that leaves a field as it is. -/
lemma update_field {α β : Type} (field : α → β) (f : ℕ → α) {i : ℕ} {x : α}
    (h : field x = field (f i)) :
    (fun j => field (update f i x j)) = fun j => field (f j) := by
  refine (comp_update field f i x).trans ?_
  rw [h]
  exact update_eq_self i (field ∘ f)

/-- What holds at every index holds after an update of two functions at one index. -/
lemma update₂ {α β : Type} {f : ℕ → α} {g : ℕ → β} {i : ℕ} {x : α} {y : β} (P : α → β → Prop)
    (h : ∀ j, P (f j) (g j)) (hi : P x y) (j : ℕ) : P (update f i x j) (update g i y j) := by
  rcases eq_or_ne j i with rfl | hne
  · rwa [update_self, update_self]
  · rw [update_of_ne hne, update_of_ne hne]
    exact h j

variable {p : Place} {q hs : List Co} {b : Bool} {l m : ℕ}

namespace World

variable (w : World Co)

/-- The fields of all locks. -/
def core : Core Co where
  locked m := (w.mutex m).locked
  writer l := (w.rwlock l).writer
  reader l := (w.rwlock l).reader
  holders := w.holders
  readers := w.readers
  writers := w.writers

@[simp] lemma core_setState (c : Co) (st : CoState) : (w.setState c st).core = w.core := rfl

@[simp] lemma queueOf_setState (c : Co) (st : CoState) :
    (w.setState c st).queueOf = w.queueOf := rfl

@[simp] lemma bh_setState (c : Co) (st : CoState) : (w.setState c st).bh = w.bh := rfl

omit [DecidableEq Co] in
@[simp] lemma bh_setQueue (q : List Co) (p : Place) : (w.setQueue q p).bh = w.bh := by
  cases p <;> rfl

omit [DecidableEq Co] in
@[simp] lemma state_setQueue (q : List Co) (p : Place) : (w.setQueue q p).state = w.state := by
  cases p <;> rfl

omit [DecidableEq Co] in
@[simp] lemma core_setQueue (q : List Co) (p : Place) : (w.setQueue q p).core = w.core := by
  cases p with
  | mutex m =>
    simp only [core, setQueue, Core.mk.injEq, and_true]
    exact update_field CoMutex.locked w.mutex rfl
  | rwlock l =>
    simp only [core, setQueue, Core.mk.injEq, and_true, true_and]
    exact ⟨update_field CoRwlock.writer w.rwlock rfl, update_field CoRwlock.reader w.rwlock rfl⟩
  | plain q => rfl

omit [DecidableEq Co] in
/-- Queues are told apart by their places. -/
@[simp] lemma queueOf_setQueue (q : List Co) (p : Place) :
    (w.setQueue q p).queueOf = update w.queueOf p q := by
  refine eq_update_iff.mpr ⟨?_, fun p' hne => ?_⟩
  · cases p <;> simp only [setQueue, queueOf, update_self]
  · -- two different places of one kind have different indices
    cases p <;> cases p' <;> simp_all [setQueue, queueOf]

/-- A coroutine that has to wait holds nothing new. -/
lemma proceed_of_wait (c : Co) (op : Op) (h : w.goOn c op = w.qemuCoQueueWait c op) :
    w.proceed c op = w.qemuCoQueueWait c op := by
  have hstate : (w.qemuCoQueueWait c op).state c = .waiting op := update_self ..
  rw [proceed, h, hstate, if_neg CoState.noConfusion]

/-- A coroutine that returns holds the lock. -/
lemma proceed_of_return {w₁ : World Co} (c : Co) (op : Op)
    (h : w.goOn c op = w₁.setState c .running) :
    w.proceed c op = (w₁.setState c .running).record c op := by
  have hstate : (w₁.setState c .running).state c = .running := update_self ..
  rw [proceed, h, if_pos hstate]

/-- Coroutines at the head of the queue go to `unlock_bh_queue`, and the bottom half is scheduled if
there are any. -/
structure Wakes (p : Place) (woken : List Co) (w w' : World Co) : Prop where
  core : w'.core = w.core
  state : w'.state = w.state
  queue : w.queueOf p = woken ++ w'.queueOf p
  other : ∀ p' ≠ p, w'.queueOf p' = w.queueOf p'
  bhQueue : w'.bh.queue = w.bh.queue ++ woken
  scheduled : w'.bh.scheduled = (w.bh.scheduled || decide (woken ≠ []))
  running : w'.bh.running = w.bh.running

omit [DecidableEq Co] in
/-- No queue gets longer. -/
lemma Wakes.sublist {w w' : World Co} {woken : List Co} (h : Wakes p woken w w') (p' : Place) :
    (w'.queueOf p').Sublist (w.queueOf p') := by
  rcases eq_or_ne p' p with rfl | hp
  · rw [h.queue]
    exact sublist_append_right _ _
  · rw [h.other p' hp]

omit [DecidableEq Co] in
lemma wakes_refl (p : Place) : Wakes p [] w w where
  core := rfl
  state := rfl
  queue := rfl
  other _ _ := rfl
  bhQueue := (append_nil _).symm
  scheduled := by simp
  running := rfl

omit [DecidableEq Co] in
lemma Wakes.trans {w w₁ w₂ : World Co} {a b : List Co} (h₁ : Wakes p a w w₁)
    (h₂ : Wakes p b w₁ w₂) :
    Wakes p (a ++ b) w w₂ where
  core := h₂.core.trans h₁.core
  state := h₂.state.trans h₁.state
  queue := by rw [h₁.queue, h₂.queue, append_assoc]
  other p' hp' := (h₂.other p' hp').trans (h₁.other p' hp')
  bhQueue := by rw [h₂.bhQueue, h₁.bhQueue, append_assoc]
  scheduled := by
    rw [h₂.scheduled, h₁.scheduled, Bool.or_assoc, ← Bool.decide_or]
    congr 2
    simp only [ne_eq, append_eq_nil_iff, not_and_or]
  running := h₂.running.trans h₁.running

omit [DecidableEq Co] in
/-- The head of the queue is woken, if there is one. -/
lemma qemuCoQueueNext_wakes (p : Place) :
    Wakes p ((w.queueOf p).take 1) w (w.qemuCoQueueNext p) := by
  rw [qemuCoQueueNext]
  cases hq : w.queueOf p with
  | nil => exact w.wakes_refl p
  | cons next rest =>
    have hcore := w.core_setQueue rest p
    have hqueue := w.queueOf_setQueue rest p
    constructor
    · exact hcore
    · exact w.state_setQueue rest p
    · show w.queueOf p = [next] ++ (w.setQueue rest p).queueOf p
      rw [hqueue, update_self, hq]
      rfl
    · intro p' hp'
      show (w.setQueue rest p).queueOf p' = w.queueOf p'
      rw [hqueue, update_of_ne hp']
    · show (w.setQueue rest p).bh.queue ++ [next] = _
      rw [bh_setQueue]
      rfl
    · show true = _
      simp
    · show (w.setQueue rest p).bh.running = _
      rw [bh_setQueue]

omit [DecidableEq Co] in
/-- All are woken, by as many rounds as there are coroutines in the queue. -/
lemma restartLoop_wakes (p : Place) (n : ℕ) (h : (w.queueOf p).length ≤ n) :
    Wakes p (w.queueOf p) w (restartLoop p n w) := by
  induction n generalizing w with
  | zero =>
    rw [length_eq_zero_iff.mp (Nat.le_zero.mp h)]
    exact w.wakes_refl p
  | succ n ih =>
    rw [restartLoop]
    split_ifs with hq
    · rw [hq]
      exact w.wakes_refl p
    have h₁ := w.qemuCoQueueNext_wakes p
    have hqueue : (w.qemuCoQueueNext p).queueOf p = (w.queueOf p).drop 1 :=
      append_cancel_left (h₁.queue.symm.trans (take_append_drop 1 _).symm)
    have h₂ := ih (w.qemuCoQueueNext p) (by rw [hqueue, length_drop]; omega)
    have h₃ := h₁.trans h₂
    rwa [hqueue, take_append_drop] at h₃

omit [DecidableEq Co] in
lemma qemuCoQueueRestartAll_wakes (p : Place) :
    Wakes p (w.queueOf p) w (w.qemuCoQueueRestartAll p) :=
  w.restartLoop_wakes p _ le_rfl

end World

open World

/-! ## Where coroutines are -/

/-- A coroutine in a queue is waiting there, or was moved to `unlock_bh_queue` from there, and none
is in a queue twice. -/
structure Placed (w : World Co) : Prop where
  queued : ∀ p, ∀ c ∈ w.queueOf p, ∃ op, w.state c = .waiting op ∧ op.place = p
  woken : ∀ c ∈ w.bh.queue, ∃ op, w.state c = .waiting op ∧ c ∉ w.queueOf op.place
  nodup : ∀ p, (w.queueOf p).Nodup
  nodup_bh : w.bh.queue.Nodup

namespace Placed

variable {w w' : World Co} {c : Co} {op : Op}

omit [DecidableEq Co] in
/-- Who is not waiting is in no queue. -/
lemma not_queued (h : Placed w) (hc : ∀ op, w.state c ≠ .waiting op) (p : Place) :
    c ∉ w.queueOf p := by
  intro hmem
  obtain ⟨op, hop, -⟩ := h.queued p c hmem
  exact hc op hop

omit [DecidableEq Co] in
/-- Who is in `unlock_bh_queue` is in no other queue. -/
lemma not_queued_of_woken (h : Placed w) (hc : c ∈ w.bh.queue) (p : Place) : c ∉ w.queueOf p := by
  intro hmem
  obtain ⟨op, hop, hout⟩ := h.woken c hc
  obtain ⟨op', hop', rfl⟩ := h.queued p c hmem
  rw [hop, CoState.waiting.injEq] at hop'
  exact hout (hop' ▸ hmem)

omit [DecidableEq Co] in
lemma congr (h : Placed w) (hqueue : w'.queueOf = w.queueOf) (hbh : w'.bh.queue = w.bh.queue)
    (hstate : ∀ c op, w.state c = .waiting op → w'.state c = .waiting op) : Placed w' where
  queued p c hc := by
    rw [hqueue] at hc
    obtain ⟨op, hop, hp⟩ := h.queued p c hc
    exact ⟨op, hstate c op hop, hp⟩
  woken c hc := by
    rw [hbh] at hc
    obtain ⟨op, hop, hout⟩ := h.woken c hc
    exact ⟨op, hstate c op hop, by rw [hqueue]; exact hout⟩
  nodup p := by
    rw [hqueue]
    exact h.nodup p
  nodup_bh := by
    rw [hbh]
    exact h.nodup_bh

lemma update_of_waiting (hc : ∀ op, w.state c ≠ .waiting op) {c' : Co} {st : CoState}
    (hop : w.state c' = .waiting op) : update w.state c st c' = .waiting op := by
  rw [update_of_ne, hop]
  rintro rfl
  exact hc op hop

/-- A coroutine that is in no queue enters one, at any place of it. -/
lemma wait (h : Placed w) (hc : ∀ op, w.state c ≠ .waiting op)
    (hq : q.Perm (c :: w.queueOf op.place)) :
    Placed ((w.setQueue q op.place).setState c (.waiting op)) where
  queued p c' hc' := by
    rw [queueOf_setState, queueOf_setQueue, update_apply] at hc'
    simp only [setState, state_setQueue]
    have hold : c' ∈ w.queueOf p →
        ∃ op', update w.state c (.waiting op) c' = .waiting op' ∧ op'.place = p :=
      fun hmem => (h.queued p c' hmem).imp fun op' hop' => ⟨update_of_waiting hc hop'.1, hop'.2⟩
    split_ifs at hc' with hp
    · rw [hq.mem_iff, mem_cons, ← hp] at hc'
      rcases hc' with rfl | hmem
      · exact ⟨op, update_self .., hp.symm⟩
      · exact hold hmem
    · exact hold hc'
  woken c' hc' := by
    rw [bh_setState, bh_setQueue] at hc'
    obtain ⟨op', hop', hout⟩ := h.woken c' hc'
    refine ⟨op', ?_, ?_⟩
    · simp only [setState, state_setQueue]
      exact update_of_waiting hc hop'
    rw [queueOf_setState, queueOf_setQueue, update_apply]
    split_ifs with hp
    · rw [hq.mem_iff, mem_cons, not_or, ← hp]
      exact ⟨fun heq => hc op' (heq ▸ hop'), hout⟩
    · exact hout
  nodup p := by
    rw [queueOf_setState, queueOf_setQueue]
    rcases eq_or_ne p op.place with rfl | hp
    · rw [update_self, hq.nodup_iff, nodup_cons]
      exact ⟨h.not_queued hc _, h.nodup _⟩
    · rw [update_of_ne hp]
      exact h.nodup p
  nodup_bh := by
    rw [bh_setState, bh_setQueue]
    exact h.nodup_bh

omit [DecidableEq Co] in
/-- Waking moves coroutines from one queue to another. -/
lemma wakes (h : Placed w) {woken : List Co} (hw : Wakes p woken w w') : Placed w' where
  queued p' c hc := by
    rw [hw.state]
    exact h.queued p' c ((hw.sublist p').subset hc)
  woken c hc := by
    rw [hw.bhQueue, mem_append] at hc
    rw [hw.state]
    rcases hc with hc | hc
    · obtain ⟨op, hop, hout⟩ := h.woken c hc
      exact ⟨op, hop, fun hmem => hout ((hw.sublist _).subset hmem)⟩
    · obtain ⟨op, hop, rfl⟩ := h.queued p c (by rw [hw.queue]; exact mem_append_left _ hc)
      exact ⟨op, hop, disjoint_of_nodup_append (hw.queue ▸ h.nodup _) hc⟩
  nodup p' := (h.nodup p').sublist (hw.sublist p')
  nodup_bh := by
    have hnodup := h.nodup p
    rw [hw.queue] at hnodup
    rw [hw.bhQueue]
    refine nodup_append'.mpr ⟨h.nodup_bh, hnodup.of_append_left, fun c hc hc' => ?_⟩
    exact h.not_queued_of_woken hc p (by rw [hw.queue]; exact mem_append_left _ hc')

lemma enterNext (h : Placed w) {rest : List Co} (hq : w.bh.queue = c :: rest)
    (hc : w.state c = .waiting op) : Placed (w.enterNext c rest op) where
  queued p c' hc' := by
    obtain ⟨op', hop', hp⟩ := h.queued p c' hc'
    refine ⟨op', ?_, hp⟩
    have hne : c' ≠ c := by
      rintro rfl
      exact h.not_queued_of_woken (by rw [hq]; exact mem_cons_self) p hc'
    simp only [World.enterNext, setState]
    rw [update_of_ne hne, hop']
  woken c' hc' := by
    have hnodup := h.nodup_bh
    rw [hq, nodup_cons] at hnodup
    have hne : c' ≠ c := by
      rintro rfl
      exact hnodup.1 hc'
    obtain ⟨op', hop', hout⟩ := h.woken c' (by rw [hq]; exact mem_cons_of_mem _ hc')
    refine ⟨op', ?_, hout⟩
    simp only [World.enterNext, setState]
    rw [update_of_ne hne, hop']
  nodup := h.nodup
  nodup_bh := by
    have hnodup := h.nodup_bh
    rw [hq, nodup_cons] at hnodup
    exact hnodup.2

end Placed

/-! ## Who holds the locks -/

/-- The fields of the locks say who holds them. -/
structure Core.Ok (k : Core Co) : Prop where
  mutexFree : ∀ m, k.locked m = false → k.holders m = []
  mutexHeld : ∀ m, k.locked m = true → ∃ c, k.holders m = [c]
  reader : ∀ l, k.reader l = (k.readers l).length
  noWriter : ∀ l, k.writer l = false → k.writers l = []
  oneWriter : ∀ l, k.writer l = true → (∃ c, k.writers l = [c]) ∧ k.reader l = 0

/-- A coroutine taken from the queue of a lock, before it looks at the lock again. -/
def Coming (w : World Co) (p : Place) (c : Co) : Prop :=
  ∃ op : Op, op.place = p ∧ (w.state c = .waiting op ∧ c ∈ w.bh.queue ∨ w.state c = .resumed op)

/-- A free lock with waiters has woken one of them. -/
def NoneLost (w : World Co) : Prop :=
  ∀ p, w.core.Free p → w.queueOf p ≠ [] → ∃ c, Coming w p c

/-- The bottom half is scheduled or running while there is something for it to do. -/
def BhDue (w : World Co) : Prop := w.bh.queue ≠ [] → w.bh.scheduled = true ∨ 0 < w.bh.running

/-- What holds in all reachable states. -/
structure Invariant (w : World Co) : Prop where
  placed : Placed w
  locks : w.core.Ok
  noneLost : NoneLost w
  bhDue : BhDue w

section Steps

variable {w w' : World Co} {c : Co} {op : Op}

omit [DecidableEq Co] in
/-- A coroutine that is not waiting is on its way to at most one lock. -/
lemma Coming.ne {c' : Co} (hcoming : Coming w p c') (hp : p ≠ op.place)
    (hc : w.state c = .running ∨ w.state c = .resumed op) : c' ≠ c := by
  rintro rfl
  obtain ⟨op', rfl, hst⟩ := hcoming
  rcases hc with hc | hc
  · rcases hst with ⟨hst, -⟩ | hst <;> rw [hc] at hst <;> cases hst
  rcases hst with ⟨hst, -⟩ | hst
  · rw [hc] at hst
    cases hst
  · rw [hc, CoState.resumed.injEq] at hst
    exact hp (by rw [hst])

omit [DecidableEq Co] in
lemma not_waiting (hc : w.state c = .running ∨ w.state c = .resumed op) (op' : Op) :
    w.state c ≠ .waiting op' := by
  rcases hc with hc | hc <;> rw [hc] <;> exact fun h => CoState.noConfusion h

omit [DecidableEq Co] in
/-- Coroutines on their way are not affected by what others do. -/
lemma Coming.congr {c' : Co} (hcoming : Coming w p c') (hstate : w'.state c' = w.state c')
    (hbh : c' ∈ w.bh.queue → c' ∈ w'.bh.queue) : Coming w' p c' := by
  obtain ⟨op, hop, hst⟩ := hcoming
  refine ⟨op, hop, ?_⟩
  rw [hstate]
  exact hst.imp_left fun h => ⟨h.1, hbh h.2⟩

/-- A step of a coroutine that leaves its lock taken, and other locks and queues as they are. -/
lemma Invariant.goTo {st : CoState} (h : Invariant w)
    (hc : w.state c = .running ∨ w.state c = .resumed op) (hstate : w'.state = update w.state c st)
    (hbh : w'.bh = w.bh) (hplaced : Placed w') (hlocks : w'.core.Ok)
    (hfree : ¬ w'.core.Free op.place)
    (hother : ∀ p ≠ op.place, (w'.core.Free p → w.core.Free p) ∧ w'.queueOf p = w.queueOf p) :
    Invariant w' where
  placed := hplaced
  locks := hlocks
  noneLost p hp hne := by
    have hplace : p ≠ op.place := by
      rintro rfl
      exact hfree hp
    rw [(hother p hplace).2] at hne
    obtain ⟨c', hcoming⟩ := h.noneLost p ((hother p hplace).1 hp) hne
    refine ⟨c', hcoming.congr ?_ (by rw [hbh]; exact id)⟩
    rw [hstate, update_of_ne (hcoming.ne hplace hc)]
  bhDue := by
    rw [BhDue, hbh]
    exact h.bhDue

/-- A coroutine waits for a lock that is taken. -/
lemma Invariant.wait (h : Invariant w) (hc : w.state c = .running ∨ w.state c = .resumed op)
    (hfree : ¬ w.core.Free op.place) (hq : q.Perm (c :: w.queueOf op.place)) :
    Invariant ((w.setQueue q op.place).setState c (.waiting op)) := by
  have hcore : ((w.setQueue q op.place).setState c (.waiting op)).core = w.core := by
    rw [core_setState, core_setQueue]
  refine h.goTo hc (by rw [setState, state_setQueue]) (by rw [bh_setState, bh_setQueue])
    (h.placed.wait (not_waiting hc) hq) (hcore ▸ h.locks) (hcore ▸ hfree) fun p hp =>
      ⟨by rw [hcore]; exact id, ?_⟩
  rw [queueOf_setState, queueOf_setQueue, update_of_ne hp]

/-- A coroutine takes a free lock. -/
lemma Invariant.take {k : Core Co} (h : Invariant w)
    (hc : w.state c = .running ∨ w.state c = .resumed op)
    (hstate : w'.state = update w.state c .running) (hqueue : w'.queueOf = w.queueOf)
    (hbh : w'.bh = w.bh) (hcore : w'.core = k) (hk : k.Ok) (hfree : ¬ k.Free op.place)
    (hother : ∀ p ≠ op.place, k.Free p → w.core.Free p) : Invariant w' := by
  subst hcore
  refine h.goTo hc hstate hbh (h.placed.congr hqueue (by rw [hbh]) fun c' op' hop' => ?_) hk hfree
    fun p hp => ⟨hother p hp, by rw [hqueue]⟩
  rw [hstate]
  exact Placed.update_of_waiting (not_waiting hc) hop'

omit [DecidableEq Co] in
/-- Waking keeps the invariant, if it wakes somebody when a lock with a queue has become free. -/
lemma Invariant.wakes {w₁ : World Co} {k : Core Co} (h : Invariant w)
    (hcore : w₁.core = k) (hk : k.Ok) (hstate : w₁.state = w.state)
    (hqueue : w₁.queueOf = w.queueOf) (hbh : w₁.bh = w.bh)
    (hother : ∀ p' ≠ p, k.Free p' → w.core.Free p') {woken : List Co} (hw : Wakes p woken w₁ w')
    (hsome : k.Free p → w₁.queueOf p ≠ [] → woken ≠ []) : Invariant w' where
  placed := (h.placed.congr hqueue (by rw [hbh]) (by rw [hstate]; exact fun _ _ => id)).wakes hw
  locks := by
    rw [hw.core, hcore]
    exact hk
  noneLost p' hp' hne := by
    rw [hw.core, hcore] at hp'
    rcases eq_or_ne p' p with rfl | hplace
    · -- Somebody of this queue has just been woken.
      obtain ⟨c, hmem⟩ := exists_mem_of_ne_nil _ (hsome hp' (by
        rw [hw.queue]
        exact fun h0 => hne (append_eq_nil_iff.mp h0).2))
      obtain ⟨op, hop, hp⟩ := h.placed.queued p' c (by
        rw [← hqueue, hw.queue]
        exact mem_append_left _ hmem)
      refine ⟨c, op, hp, .inl ⟨?_, ?_⟩⟩
      · rw [hw.state, hstate, hop]
      · rw [hw.bhQueue]
        exact mem_append_right _ hmem
    · rw [hw.other p' hplace, hqueue] at hne
      obtain ⟨c, hcoming⟩ := h.noneLost p' (hother p' hplace hp') hne
      refine ⟨c, hcoming.congr (by rw [hw.state, hstate]) fun hmem => ?_⟩
      rw [hw.bhQueue, hbh]
      exact mem_append_left _ hmem
  bhDue hne := by
    rw [hw.scheduled, hw.running, hbh]
    by_cases hwoken : woken = []
    · rw [hw.bhQueue, hwoken, append_nil, hbh] at hne
      rcases h.bhDue hne with hs | hr
      · exact .inl (by rw [hs, Bool.true_or])
      · exact .inr hr
    · exact .inl (by rw [decide_eq_true hwoken, Bool.or_true])

end Steps

/-! ### The fields of the locks -/

namespace Core

variable {k : Core Co}

def setMutex (k : Core Co) (m : ℕ) (b : Bool) (hs : List Co) : Core Co :=
  { k with locked := update k.locked m b, holders := update k.holders m hs }

def setRwlock (k : Core Co) (l : ℕ) (b : Bool) (r : ℕ) (rs ws : List Co) : Core Co :=
  { k with
    writer := update k.writer l b
    reader := update k.reader l r
    readers := update k.readers l rs
    writers := update k.writers l ws }

omit [DecidableEq Co] in
lemma Ok.setMutex (h : k.Ok) (m : ℕ) (hfree : b = false → hs = [])
    (hheld : b = true → ∃ c, hs = [c]) :
    (k.setMutex m b hs).Ok where
  __ := h
  mutexFree := update₂ (fun b hs => b = false → hs = []) h.mutexFree hfree
  mutexHeld := update₂ (fun b hs => b = true → ∃ c, hs = [c]) h.mutexHeld hheld

omit [DecidableEq Co] in
lemma Ok.setRwlock (h : k.Ok) (l : ℕ) {r : ℕ} {rs ws : List Co} (hr : r = rs.length)
    (hno : b = false → ws = []) (hone : b = true → (∃ c, ws = [c]) ∧ r = 0) :
    (k.setRwlock l b r rs ws).Ok where
  __ := h
  reader := update₂ (fun r rs => r = length rs) h.reader hr
  noWriter := update₂ (fun b ws => b = false → ws = []) h.noWriter hno
  oneWriter l' := by
    rcases eq_or_ne l' l with rfl | hne
    · simpa only [Core.setRwlock, update_self] using hone
    · simpa only [Core.setRwlock, update_of_ne hne] using h.oneWriter l'

omit [DecidableEq Co] in
lemma free_setMutex_self (m : ℕ) (b : Bool) (hs : List Co) :
    (k.setMutex m b hs).Free (.mutex m) ↔ b = false := by
  simp only [Core.setMutex, Core.Free, update_self]

omit [DecidableEq Co] in
lemma free_setMutex_of_ne (hp : p ≠ .mutex m) : (k.setMutex m b hs).Free p ↔ k.Free p := by
  cases p with
  | mutex m' =>
    have hne : m' ≠ m := fun h => hp (by rw [h])
    simp only [Core.setMutex, Core.Free, update_of_ne hne]
  | rwlock l => rfl
  | plain q => rfl

omit [DecidableEq Co] in
lemma free_setRwlock_self (l : ℕ) (b : Bool) (r : ℕ) (rs ws : List Co) :
    (k.setRwlock l b r rs ws).Free (.rwlock l) ↔ b = false ∧ r = 0 := by
  simp only [Core.setRwlock, Core.Free, update_self]

omit [DecidableEq Co] in
lemma free_setRwlock_of_ne {r : ℕ} {rs ws : List Co} (hp : p ≠ .rwlock l) :
    (k.setRwlock l b r rs ws).Free p ↔ k.Free p := by
  cases p with
  | mutex m => rfl
  | rwlock l' =>
    have hne : l' ≠ l := fun h => hp (by rw [h])
    simp only [Core.setRwlock, Core.Free, update_of_ne hne]
  | plain q => rfl

end Core

section Fields

variable (w : World Co)

omit [DecidableEq Co] in
lemma core_updateMutex (m : ℕ) (b : Bool) (hs : List Co) : ({ w with
      mutex := update w.mutex m { w.mutex m with locked := b }
      holders := update w.holders m hs } : World Co).core = w.core.setMutex m b hs := by
  simp only [World.core, Core.setMutex, Core.mk.injEq, and_true]
  exact comp_update CoMutex.locked w.mutex m _

omit [DecidableEq Co] in
lemma queueOf_updateMutex (m : ℕ) (b : Bool) :
    ({ w with mutex := update w.mutex m { w.mutex m with locked := b } } : World Co).queueOf =
      w.queueOf := by
  funext p
  cases p with
  | mutex m' => exact congrFun (update_field CoMutex.queue w.mutex (x := ⟨b, _⟩) rfl) m'
  | rwlock l => rfl
  | plain q => rfl

omit [DecidableEq Co] in
lemma core_updateRwlock (l : ℕ) (b : Bool) (r : ℕ) (rs ws : List Co) : ({ w with
      rwlock := update w.rwlock l ⟨b, r, (w.rwlock l).queue⟩
      readers := update w.readers l rs
      writers := update w.writers l ws } : World Co).core = w.core.setRwlock l b r rs ws := by
  simp only [World.core, Core.setRwlock, Core.mk.injEq, and_true, true_and]
  exact ⟨comp_update CoRwlock.writer w.rwlock l _, comp_update CoRwlock.reader w.rwlock l _⟩

omit [DecidableEq Co] in
lemma queueOf_updateRwlock (l : ℕ) (b : Bool) (r : ℕ) :
    ({ w with rwlock := update w.rwlock l ⟨b, r, (w.rwlock l).queue⟩ } : World Co).queueOf =
      w.queueOf := by
  funext p
  cases p with
  | mutex m => rfl
  | rwlock l' => exact congrFun (update_field CoRwlock.queue w.rwlock (x := ⟨b, r, _⟩) rfl) l'
  | plain q => rfl

end Fields

/-! ### Taking and releasing -/

section Locks

variable {w w' : World Co} {c : Co} {op : Op}

lemma Invariant.mutexLock (h : Invariant w)
    (hc : w.state c = .running ∨ w.state c = .resumed (.lock m)) :
    Invariant (w.proceed c (.lock m)) := by
  by_cases hl : (w.mutex m).locked = true
  · rw [w.proceed_of_wait c (.lock m) (if_pos hl)]
    exact h.wait hc (fun hfree => absurd (hl.symm.trans hfree) nofun) (perm_append_singleton c _)
  rw [w.proceed_of_return c (.lock m) (if_neg hl)]
  have hl : (w.mutex m).locked = false := by simpa using hl
  exact h.take hc rfl (queueOf_updateMutex w m true) rfl (core_updateMutex w m true _)
    (h.locks.setMutex m nofun fun _ => ⟨c, congrArg (c :: ·) (h.locks.mutexFree m hl)⟩)
    (by simp [Op.place, Core.free_setMutex_self]) fun p hp => (Core.free_setMutex_of_ne hp).mp

lemma Invariant.rdlock (h : Invariant w)
    (hc : w.state c = .running ∨ w.state c = .resumed (.rdlock l)) :
    Invariant (w.proceed c (.rdlock l)) := by
  by_cases hl : (w.rwlock l).writer = true
  · rw [w.proceed_of_wait c (.rdlock l) (if_pos hl)]
    exact h.wait hc (fun hfree => absurd (hl.symm.trans hfree.1) nofun) (perm_append_singleton c _)
  rw [w.proceed_of_return c (.rdlock l) (if_neg hl)]
  have hl : (w.rwlock l).writer = false := by simpa using hl
  have hcore := core_updateRwlock w l (w.rwlock l).writer ((w.rwlock l).reader + 1)
    (c :: w.readers l) (w.writers l)
  rw [update_eq_self] at hcore
  refine h.take hc rfl (queueOf_updateRwlock w l _ _) rfl hcore
    (h.locks.setRwlock l ?_ (h.locks.noWriter l) fun hb => absurd (hl.symm.trans hb) nofun)
    (by simp [Op.place, Core.free_setRwlock_self]) fun p hp => (Core.free_setRwlock_of_ne hp).mp
  exact congrArg (· + 1) (h.locks.reader l)

lemma Invariant.wrlock (h : Invariant w)
    (hc : w.state c = .running ∨ w.state c = .resumed (.wrlock l)) :
    Invariant (w.proceed c (.wrlock l)) := by
  by_cases hl : (w.rwlock l).writer = true ∨ (w.rwlock l).reader ≠ 0
  · rw [w.proceed_of_wait c (.wrlock l) (if_pos hl)]
    refine h.wait hc (fun hfree => ?_) (perm_append_singleton c _)
    obtain ⟨hwriter, hreader⟩ : (w.rwlock l).writer = false ∧ (w.rwlock l).reader = 0 := hfree
    rw [hwriter, hreader] at hl
    simp at hl
  rw [w.proceed_of_return c (.wrlock l) (if_neg hl)]
  obtain ⟨hwriter, hreader⟩ := not_or.mp hl
  have hwriter : (w.rwlock l).writer = false := by simpa using hwriter
  have hreader : (w.rwlock l).reader = 0 := not_not.mp hreader
  have hcore := core_updateRwlock w l true (w.rwlock l).reader (w.readers l) (c :: w.writers l)
  rw [update_eq_self] at hcore
  exact h.take hc rfl (queueOf_updateRwlock w l _ _) rfl hcore
    (h.locks.setRwlock l (h.locks.reader l) nofun
      fun _ => ⟨⟨c, congrArg (c :: ·) (h.locks.noWriter l hwriter)⟩, hreader⟩)
    (by simp [Op.place, Core.free_setRwlock_self]) fun p hp => (Core.free_setRwlock_of_ne hp).mp

/-- A coroutine goes on from a call or from a yield. -/
lemma Invariant.proceed (h : Invariant w) (hc : w.state c = .running ∨ w.state c = .resumed op) :
    Invariant (w.proceed c op) := by
  cases op with
  | lock m => exact h.mutexLock hc
  | rdlock l => exact h.rdlock hc
  | wrlock l => exact h.wrlock hc
  | wait q =>
    rw [w.proceed_of_return c (.wait q) rfl]
    exact h.take hc rfl rfl rfl rfl h.locks id fun _ _ => id

lemma erase_of_mem_singleton (hone : ∃ c', hs = [c']) (hc : c ∈ hs) : hs.erase c = [] := by
  obtain ⟨c', rfl⟩ := hone
  rw [mem_singleton] at hc
  rw [hc, erase_cons_head]

omit [DecidableEq Co] in
lemma take_one_ne_nil (h : q ≠ []) : q.take 1 ≠ [] := by
  cases q with
  | nil => exact h
  | cons a q => exact cons_ne_nil _ _

omit [DecidableEq Co] in
lemma eq_true_of_mem (h : b = false → hs = []) (hc : c ∈ hs) : b = true := by
  cases b with
  | true => rfl
  | false =>
    rw [h rfl] at hc
    cases hc

omit [DecidableEq Co] in
/-- A lock with a reader has no writer. -/
lemma Core.Ok.of_reader {k : Core Co} (h : k.Ok) (hc : c ∈ k.readers l) :
    k.writer l = false ∧ k.reader l ≠ 0 := by
  have hne : k.reader l ≠ 0 := by
    rw [h.reader l]
    exact fun h0 => not_mem_nil (length_eq_zero_iff.mp h0 ▸ hc)
  refine ⟨?_, hne⟩
  cases hl : k.writer l with
  | false => rfl
  | true => exact absurd (h.oneWriter l hl).2 hne

/-- The mutex is free, and the head of its queue is woken. -/
lemma Invariant.mutexUnlock (h : Invariant w) (hold : c ∈ w.holders m)
    (hw : (w.dropHolder c m).qemuCoMutexUnlock m = some w') : Invariant w' := by
  have hl : (w.mutex m).locked = true := eq_true_of_mem (h.locks.mutexFree _) hold
  have hk : (w.core.setMutex m false ((w.holders m).erase c)).Ok :=
    h.locks.setMutex m (fun _ => erase_of_mem_singleton (h.locks.mutexHeld m hl) hold)
      fun hb => absurd hb (by decide)
  rw [qemuCoMutexUnlock, if_pos (show ((w.dropHolder c m).mutex m).locked = true from hl),
    Option.some.injEq] at hw
  exact h.wakes (core_updateMutex w m false _) hk rfl (queueOf_updateMutex w m false) rfl
    (fun p hp => (Core.free_setMutex_of_ne hp).mp) (hw ▸ qemuCoQueueNext_wakes _ _)
    fun _ hne => take_one_ne_nil hne

/-- The lock is free, and all that wait for it are woken. -/
lemma Invariant.wrUnlock (h : Invariant w) (hold : c ∈ w.writers l)
    (hw : (w.dropWriter c l).qemuCoRwlockUnlock l = some w') : Invariant w' := by
  have hl : (w.rwlock l).writer = true := eq_true_of_mem (h.locks.noWriter _) hold
  have hk : (w.core.setRwlock l false (w.rwlock l).reader (w.readers l)
      ((w.writers l).erase c)).Ok :=
    h.locks.setRwlock l (h.locks.reader l)
      (fun _ => erase_of_mem_singleton (h.locks.oneWriter l hl).1 hold) fun hb =>
        absurd hb (by decide)
  have hcore := core_updateRwlock w l false (w.rwlock l).reader (w.readers l)
    ((w.writers l).erase c)
  rw [update_eq_self] at hcore
  rw [qemuCoRwlockUnlock, if_pos (show ((w.dropWriter c l).rwlock l).writer = true from hl),
    Option.some.injEq] at hw
  exact h.wakes hcore hk rfl (queueOf_updateRwlock w l false (w.rwlock l).reader) rfl
    (fun p hp => (Core.free_setRwlock_of_ne hp).mp) (hw ▸ qemuCoQueueRestartAll_wakes _ _)
      fun _ hne => hne

/-- The lock is free if this was the last reader, and then the head of the queue is woken. -/
lemma Invariant.rdUnlock (h : Invariant w) (hold : c ∈ w.readers l)
    (hw : (w.dropReader c l).qemuCoRwlockUnlock l = some w') : Invariant w' := by
  obtain ⟨hwriter, hreader⟩ : (w.rwlock l).writer = false ∧ (w.rwlock l).reader ≠ 0 :=
    h.locks.of_reader hold
  have hlength : (w.rwlock l).reader - 1 = ((w.readers l).erase c).length := by
    rw [length_erase_of_mem hold]
    exact congrArg (· - 1) (h.locks.reader l)
  have hk := h.locks.setRwlock l hlength (h.locks.noWriter l)
    fun hb => absurd (hwriter.symm.trans hb) (by decide)
  have hcore := core_updateRwlock w l (w.rwlock l).writer ((w.rwlock l).reader - 1)
    ((w.readers l).erase c) (w.writers l)
  rw [update_eq_self] at hcore
  have hqueue := queueOf_updateRwlock w l (w.rwlock l).writer ((w.rwlock l).reader - 1)
  rw [qemuCoRwlockUnlock,
    if_neg (show ¬ ((w.dropReader c l).rwlock l).writer = true by rw [dropReader, hwriter]; decide),
    if_neg (show ¬ ((w.dropReader c l).rwlock l).reader = 0 from hreader)] at hw
  -- The last reader wakes a writer; the others leave the queue as it is.
  by_cases hlast : (w.rwlock l).reader - 1 = 0
  · rw [if_pos (show ((w.dropReader c l).rwlock l).reader - 1 = 0 from hlast),
      Option.some.injEq] at hw
    exact h.wakes hcore hk rfl hqueue rfl (fun p hp => (Core.free_setRwlock_of_ne hp).mp)
      (hw ▸ qemuCoQueueNext_wakes _ _) fun _ hne => take_one_ne_nil hne
  · rw [if_neg (show ¬ ((w.dropReader c l).rwlock l).reader - 1 = 0 from hlast),
      Option.some.injEq] at hw
    rw [← hw]
    exact h.wakes hcore hk rfl hqueue rfl (fun p hp => (Core.free_setRwlock_of_ne hp).mp)
      (wakes_refl _ _) fun hfree => absurd ((Core.free_setRwlock_self _ _ _ _ _).mp hfree).2 hlast

/-! ## All runs -/

/-- Every step keeps the invariant. -/
lemma Invariant.step (h : Invariant w) (hstep : Step w w') : Invariant w' := by
  cases hstep with
  | call c op _ hc => exact h.proceed (.inl hc)
  | wait c q hc =>
    have hc' : w.state c = .running ∨ w.state c = .resumed (.wait q) := .inl hc
    exact h.wait hc' id (perm_append_singleton c _)
  | waitHead c q hc =>
    have hc' : w.state c = .running ∨ w.state c = .resumed (.wait q) := .inl hc
    exact h.wait hc' id (List.Perm.refl _)
  | resume c op hc => exact h.proceed (.inr hc)
  | yield c hc => exact h
  | mutexUnlock c m _ hold hw => exact h.mutexUnlock hold hw
  | rdUnlock c l _ hold hw => exact h.rdUnlock hold hw
  | wrUnlock c l _ hold hw => exact h.wrUnlock hold hw
  | next q =>
    exact h.wakes rfl h.locks rfl rfl rfl (fun _ _ => id) (qemuCoQueueNext_wakes w _)
      fun hfree => hfree.elim
  | restartAll q =>
    exact h.wakes rfl h.locks rfl rfl rfl (fun _ _ => id) (qemuCoQueueRestartAll_wakes w _)
      fun hfree => hfree.elim
  | bhPoll hs =>
    exact ⟨h.placed.congr rfl rfl fun _ _ => id, h.locks, fun p hp hne =>
      (h.noneLost p hp hne).imp fun c hc => hc.congr rfl id, fun _ => .inr (Nat.succ_pos _)⟩
  | bhEnter next rest op hr hq hc =>
    refine ⟨h.placed.enterNext hq hc, h.locks, fun p hp hne => ?_, fun _ => .inr hr⟩
    obtain ⟨c', op', hop', hst⟩ := h.noneLost p hp hne
    refine ⟨c', op', hop', ?_⟩
    simp only [World.enterNext, setState]
    rcases eq_or_ne c' next with rfl | hne'
    · rw [update_self]
      right
      rcases hst with ⟨hst, -⟩ | hst
      · rw [hc, CoState.waiting.injEq] at hst
        rw [hst]
      · rw [hc] at hst
        cases hst
    · rw [update_of_ne hne']
      refine hst.imp_left fun hst => ⟨hst.1, ?_⟩
      have hmem := hst.2
      rw [hq, mem_cons] at hmem
      exact hmem.resolve_left hne'
  | bhReturn hr hq =>
    exact ⟨h.placed.congr rfl rfl fun _ _ => id, h.locks, fun p hp hne =>
      (h.noneLost p hp hne).imp fun c hc => hc.congr rfl id, fun hne => absurd hq hne⟩

omit [DecidableEq Co] in
lemma invariant_init : Invariant (World.init : World Co) where
  placed :=
    { queued := fun p c hc => by cases p <;> cases hc
      woken := fun c hc => by cases hc
      nodup := fun p => by cases p <;> exact nodup_nil
      nodup_bh := nodup_nil }
  locks :=
    { mutexFree := fun _ _ => rfl
      mutexHeld := fun _ h => by cases h
      reader := fun _ => rfl
      noWriter := fun _ _ => rfl
      oneWriter := fun _ h => by cases h }
  noneLost p _ hne := by cases p <;> exact absurd rfl hne
  bhDue hne := absurd rfl hne

/-- So it holds in all reachable states. -/
lemma Reachable.invariant (h : Reachable w) : Invariant w := by
  induction h with
  | init => exact invariant_init
  | step _ hstep ih => exact ih.step hstep

/-- The assertions of `qemu_co_mutex_unlock` and `qemu_co_rwlock_unlock` hold whenever a holder
releases the lock. -/
theorem unlock_asserts (h : Reachable w) (c : Co) (i : ℕ) :
    (c ∈ w.holders i → ((w.dropHolder c i).qemuCoMutexUnlock i).isSome = true) ∧
      (c ∈ w.readers i → ((w.dropReader c i).qemuCoRwlockUnlock i).isSome = true) ∧
      (c ∈ w.writers i → ((w.dropWriter c i).qemuCoRwlockUnlock i).isSome = true) := by
  have hlocks := h.invariant.locks
  refine ⟨fun hold => ?_, fun hold => ?_, fun hold => ?_⟩
  · have hl : (w.mutex i).locked = true := eq_true_of_mem (hlocks.mutexFree _) hold
    rw [qemuCoMutexUnlock, if_pos (show ((w.dropHolder c i).mutex i).locked = true from hl),
      Option.isSome_some]
  · obtain ⟨hwriter, hreader⟩ : (w.rwlock i).writer = false ∧ (w.rwlock i).reader ≠ 0 :=
      hlocks.of_reader hold
    rw [qemuCoRwlockUnlock,
      if_neg (show ¬ ((w.dropReader c i).rwlock i).writer = true by
        rw [dropReader, hwriter]; decide),
      if_neg (show ¬ ((w.dropReader c i).rwlock i).reader = 0 from hreader)]
    split_ifs <;> rfl
  · have hl : (w.rwlock i).writer = true := eq_true_of_mem (hlocks.noWriter _) hold
    rw [qemuCoRwlockUnlock, if_pos (show ((w.dropWriter c i).rwlock i).writer = true from hl),
      Option.isSome_some]

theorem lockedWorld_unlocks :
    (((World.init.proceed 0 (.lock 0) : World ℕ).dropHolder 0 0).qemuCoMutexUnlock
      0).isSome = true :=
  (unlock_asserts (Reachable.init.step (.call 0 (.lock 0) (fun _ h => Op.noConfusion h) rfl)) 0 0).1
    mem_cons_self

/-- A mutex has at most one holder, a read-write lock one writer or only readers.  If a lock is free
and its queue is not empty, a coroutine from this queue is in `unlock_bh_queue`, with the bottom
half scheduled or running, or is about to look at the lock again. -/
theorem coLocks_safe (w : World Co) (h : Reachable w) : (∀ m, (w.holders m).length ≤ 1) ∧
      (∀ l, (w.writers l).length ≤ 1 ∧ (w.writers l ≠ [] → w.readers l = [])) ∧
      (∀ m, (w.mutex m).locked = false → (w.mutex m).queue ≠ [] →
        ∃ c, w.state c = .waiting (.lock m) ∧ c ∈ w.bh.queue ∨ w.state c = .resumed (.lock m)) ∧
      (∀ l, (w.rwlock l).writer = false → (w.rwlock l).reader = 0 → (w.rwlock l).queue ≠ [] →
        ∃ c, ∃ op ∈ [Op.rdlock l, Op.wrlock l],
          w.state c = .waiting op ∧ c ∈ w.bh.queue ∨ w.state c = .resumed op) ∧
      (w.bh.queue ≠ [] → w.bh.scheduled = true ∨ 0 < w.bh.running) := by
  have hinv := h.invariant
  have hlocks := hinv.locks
  refine ⟨fun m => ?_, fun l => ⟨?_, fun hne => ?_⟩, fun m hfree hne => ?_,
    fun l hwriter hreader hne => ?_, hinv.bhDue⟩
  · cases hl : (w.mutex m).locked with
    | false => rw [show w.holders m = [] from hlocks.mutexFree m hl]; exact Nat.zero_le 1
    | true =>
      obtain ⟨c, hc⟩ := hlocks.mutexHeld m hl
      rw [show w.holders m = [c] from hc, length_singleton]
  · cases hl : (w.rwlock l).writer with
    | false => rw [show w.writers l = [] from hlocks.noWriter l hl]; exact Nat.zero_le 1
    | true =>
      obtain ⟨⟨c, hc⟩, -⟩ := hlocks.oneWriter l hl
      rw [show w.writers l = [c] from hc, length_singleton]
  · obtain ⟨c, hc⟩ := exists_mem_of_ne_nil _ hne
    have hreader := (hlocks.oneWriter l (eq_true_of_mem (hlocks.noWriter l) hc)).2
    rw [hlocks.reader l] at hreader
    exact length_eq_zero_iff.mp hreader
  · obtain ⟨c, op, hop, hst⟩ := hinv.noneLost (.mutex m) hfree hne
    cases op with
    | lock m' =>
      obtain rfl : m' = m := by simpa only [Op.place, Place.mutex.injEq] using hop
      exact ⟨c, hst⟩
    | rdlock l | wrlock l | wait q => cases hop
  · obtain ⟨c, op, hop, hst⟩ := hinv.noneLost (.rwlock l) ⟨hwriter, hreader⟩ hne
    refine ⟨c, op, ?_, hst⟩
    cases op with
    | lock m | wait q => cases hop
    | rdlock l' =>
      obtain rfl : l' = l := by simpa only [Op.place, Place.rwlock.injEq] using hop
      exact mem_cons_self
    | wrlock l' =>
      obtain rfl : l' = l := by simpa only [Op.place, Place.rwlock.injEq] using hop
      exact mem_cons_of_mem _ mem_cons_self

end Locks

/-- 0 takes a mutex, 1 and 2 wait for it, and 0 releases it. -/
def releasedWorld : Option (World ℕ) :=
  ((((World.init.proceed 0 (.lock 0)).proceed 1 (.lock 0)).proceed 2 (.lock 0)).dropHolder
    0 0).qemuCoMutexUnlock 0

/-- Then the mutex is free, 2 is still in its queue, and a waiter is on its way. -/
theorem releasedWorld_wakes : ∃ w, releasedWorld = some w ∧ (w.mutex 0).locked = false ∧
    (w.mutex 0).queue = [2] ∧
    ∃ c, w.state c = .waiting (.lock 0) ∧ c ∈ w.bh.queue ∨ w.state c = .resumed (.lock 0) := by
  refine ⟨_, rfl, rfl, rfl, ?_⟩
  have hreach :
      Reachable (((World.init.proceed 0 (.lock 0)).proceed 1 (.lock 0)).proceed 2 (.lock 0)) :=
    ((Reachable.init.step (.call 0 (.lock 0) (fun _ h => Op.noConfusion h) rfl)).step
      (.call 1 (.lock 0) (fun _ h => Op.noConfusion h) rfl)).step
      (.call 2 (.lock 0) (fun _ h => Op.noConfusion h) rfl)
  have hunlocked := hreach.step (.mutexUnlock 0 0 rfl mem_cons_self rfl)
  exact (coLocks_safe _ hunlocked).2.2.1 0 rfl (cons_ne_nil 2 [])

end Qemu.Coroutine
