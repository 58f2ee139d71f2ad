import Mathlib

/-!
# The buffered file of migration

`buffered_file.c`.  Bytes that the backend does not take wait in a buffer, in front of those of
later calls.  The calls that `put_ready` makes are later steps of a run.

Migration limits its bandwidth by refusing bytes for a while.  None may get lost or change places
by that, because the destination reads the stream as one piece.

**Main results:**
- `bufferedFlush_spec`, `bufferedPutBuffer_keeps`: without an error no byte is lost or overtakes
  another, and no error is recorded that the backend has not reported
- `bufferedClose_returns`: `buffered_close` returns if the backend takes bytes again and again
- `run_in_order`: so it is in whole runs, and all bytes are accepted when `buffered_close` returns
-/

namespace Qemu.BufferedFile

open List

/-- What `put_buffer` returns: a number of bytes, `-EAGAIN`, or another error. -/
inductive PutResult (size : ℕ) where
  | accepted (n : ℕ) (pos : 0 < n) (le : n ≤ size)
  | again
  | error (ret : ℤ) (neg : ret < 0)

/-- The result of each call, for the number of bytes that are offered. -/
abbrev Backend := ℕ → ∀ size, PutResult size

/-- The backend reports no error. -/
def Backend.Faultless (b : Backend) : Prop := ∀ call size ret neg, b call size ≠ .error ret neg

/-- The backend takes bytes again and again. -/
def Backend.Live (b : Backend) : Prop :=
  ∀ call, ∃ later ≥ call, ∀ size, 0 < size → ∃ n pos le, b later size = .accepted n pos le

/-- `QEMUFileBuffered`, with the error of its file and what the backend accepted. -/
structure QEMUFileBuffered where
  freezeOutput : Bool
  bytesXfer : ℕ
  xferLimit : ℕ
  buffer : List UInt8
  lastError : ℤ
  accepted : List UInt8
  calls : ℕ

variable (b : Backend) (s : QEMUFileBuffered)

/-- The backend accepts the first `n` bytes of `buf`. -/
def accept (buf : List UInt8) (n : ℕ) : QEMUFileBuffered :=
  { s with calls := s.calls + 1, accepted := s.accepted ++ buf.take n }

/-- The loop of `buffered_flush`. -/
def flushLoop : ℕ → QEMUFileBuffered → QEMUFileBuffered
  | 0, s => s
  | fuel + 1, s =>
    if s.buffer = [] then s
    else
      match b s.calls s.buffer.length with
      | .again => { s with calls := s.calls + 1, freezeOutput := true }
      | .error ret _ => { s with calls := s.calls + 1, lastError := ret }
      | .accepted n .. => flushLoop fuel { accept s s.buffer n with buffer := s.buffer.drop n }

/-- `buffered_flush`. -/
def bufferedFlush : QEMUFileBuffered := if s.lastError ≠ 0 then s else flushLoop b s.buffer.length s

/-- The loop of `buffered_put_buffer` and `buffered_append`, with the return value. -/
def putLoop (size : ℕ) : ℕ → QEMUFileBuffered → List UInt8 → QEMUFileBuffered × ℤ
  | 0, s, buf => ({ s with buffer := s.buffer ++ buf }, size)
  | fuel + 1, s, buf =>
    if s.freezeOutput = true ∨ buf = [] ∨ s.bytesXfer > s.xferLimit then
      ({ s with buffer := s.buffer ++ buf }, size)
    else
      match b s.calls buf.length with
      | .again =>
        ({ s with calls := s.calls + 1, freezeOutput := true, buffer := s.buffer ++ buf }, size)
      | .error ret _ => ({ s with calls := s.calls + 1, lastError := ret }, -22)
      | .accepted n .. =>
        putLoop size fuel { accept s buf n with bytesXfer := (s.bytesXfer + n) % 2 ^ 64 }
          (buf.drop n)

/-- `buffered_put_buffer`. -/
def bufferedPutBuffer (buf : List UInt8) : QEMUFileBuffered × ℤ :=
  if s.lastError ≠ 0 then (s, s.lastError)
  else putLoop b buf.length buf.length (bufferedFlush b { s with freezeOutput := false }) buf

/-- `buffered_close`, for a number of rounds of its loop, and whether it returned. -/
def bufferedClose : ℕ → QEMUFileBuffered → QEMUFileBuffered × Bool
  | 0, s => (s, false)
  | rounds + 1, s =>
    if s.lastError = 0 ∧ s.buffer ≠ [] then bufferedClose rounds (bufferedFlush b s) else (s, true)

/-- `buffered_set_rate_limit`, where `size_t` has 64 bits and so no rate is above `SIZE_MAX`. -/
def bufferedSetRateLimit (newRate : ℤ) : QEMUFileBuffered :=
  if s.lastError ≠ 0 then s else { s with xferLimit := (newRate.tdiv 10 % 2 ^ 64).toNat }

/-- `buffered_rate_tick`. -/
def bufferedRateTick : QEMUFileBuffered :=
  if s.lastError ≠ 0 then (bufferedClose b 1 s).1
  else if s.freezeOutput = true then s
  else bufferedFlush b { s with bytesXfer := 0 }

inductive Call where
  | put (buf : List UInt8)
  | tick
  | setRateLimit (newRate : ℤ)

def Call.bytes : Call → List UInt8
  | put buf => buf
  | _ => []

def step : Call → QEMUFileBuffered
  | .put buf => (bufferedPutBuffer b s buf).1
  | .tick => bufferedRateTick b s
  | .setRateLimit newRate => bufferedSetRateLimit s newRate

/-- `qemu_fopen_ops_buffered`. -/
def qemuFopenOpsBuffered (bytesPerSec : ℕ) :
    QEMUFileBuffered := ⟨false, 0, bytesPerSec / 10, [], 0, [], 0⟩

/-! ## No byte is lost -/

/-- If there is no error now, there was none before, and `buf` was added at the end.  An error comes
from the backend. -/
structure Keeps (b : Backend) (s s' : QEMUFileBuffered) (buf : List UInt8) : Prop where
  bytes : s'.lastError = 0 → s.lastError = 0 ∧
    s'.accepted ++ s'.buffer = s.accepted ++ s.buffer ++ buf
  faultless : b.Faultless → s.lastError = 0 → s'.lastError = 0

/-- Bytes stay in the buffer only if the output is frozen or there is an error. -/
def Flushed : Prop := s.freezeOutput = true ∨ s.lastError ≠ 0 ∨ s.buffer = []

variable {b s} {s' s'' : QEMUFileBuffered} {buf buf' : List UInt8} {fuel : ℕ}

/-- The bytes and the error are as before. -/
lemma Keeps.same (haccepted : s'.accepted = s.accepted) (hbuffer : s'.buffer = s.buffer)
    (herr : s'.lastError = s.lastError) : Keeps b s s' [] :=
  ⟨fun h => ⟨herr ▸ h, by rw [haccepted, hbuffer, append_nil]⟩, fun _ h => herr.trans h⟩

lemma Keeps.trans (h : Keeps b s s' buf) (h' : Keeps b s' s'' buf') :
    Keeps b s s'' (buf ++ buf') := by
  refine ⟨fun herr => ?_, fun hb herr => h'.faultless hb (h.faultless hb herr)⟩
  obtain ⟨herr, heq'⟩ := h'.bytes herr
  obtain ⟨herr, heq⟩ := h.bytes herr
  exact ⟨herr, by rw [heq', heq, append_assoc]⟩

lemma Keeps.of_error (herr : s'.lastError ≠ 0) (hb : ¬b.Faultless) : Keeps b s s' buf :=
  ⟨fun h => absurd h herr, fun h => absurd h hb⟩

lemma not_faultless {call size : ℕ} {ret : ℤ} {neg : ret < 0} (h : b call size = .error ret neg) :
    ¬b.Faultless := fun hb => hb call size ret neg h

lemma flushLoop_spec (h : s.buffer.length ≤ fuel) :
    Keeps b s (flushLoop b fuel s) [] ∧ Flushed (flushLoop b fuel s) := by
  induction fuel generalizing s with
  | zero => exact ⟨.same rfl rfl rfl, .inr (.inr (length_eq_zero_iff.mp (Nat.le_zero.mp h)))⟩
  | succ fuel ih =>
    rw [flushLoop]
    split_ifs with hnil
    · exact ⟨.same rfl rfl rfl, .inr (.inr hnil)⟩
    rcases hres : b s.calls s.buffer.length with ⟨n, pos, le⟩ | _ | ⟨ret, neg⟩
    · obtain ⟨hkeeps, hflushed⟩ := ih (s := { accept s s.buffer n with buffer := s.buffer.drop n })
        (by rw [length_drop]; omega)
      refine ⟨⟨fun herr => ?_, hkeeps.faultless⟩, hflushed⟩
      have hbytes := hkeeps.bytes herr
      rwa [accept, append_assoc s.accepted, take_append_drop] at hbytes
    · exact ⟨.same rfl rfl rfl, .inl rfl⟩
    · exact ⟨.of_error neg.ne (not_faultless hres), .inr (.inl neg.ne)⟩

lemma bufferedFlush_spec : Keeps b s (bufferedFlush b s) [] ∧ Flushed (bufferedFlush b s) := by
  rw [bufferedFlush]
  split_ifs with herr
  · exact ⟨.same rfl rfl rfl, .inr (.inl herr)⟩
  · exact flushLoop_spec le_rfl

lemma putLoop_keeps (h : Flushed s) (size : ℕ) : Keeps b s (putLoop b size fuel s buf).1 buf := by
  have happend : Keeps b s { s with buffer := s.buffer ++ buf } buf :=
    ⟨fun herr => ⟨herr, (append_assoc ..).symm⟩, fun _ herr => herr⟩
  induction fuel generalizing s buf with
  | zero => exact happend
  | succ fuel ih =>
    rw [putLoop]
    split_ifs with hstop
    · exact happend
    rcases hres : b s.calls buf.length with ⟨n, pos, le⟩ | _ | ⟨ret, neg⟩
    · have hempty := h.resolve_left fun hfrozen => hstop (.inl hfrozen)
      obtain ⟨hbytes, hfaultless⟩ :=
        ih (s := { accept s buf n with bytesXfer := (s.bytesXfer + n) % 2 ^ 64 }) (.inr hempty)
          ⟨fun herr => ⟨herr, (append_assoc ..).symm⟩, fun _ herr => herr⟩
      refine ⟨fun herr => ⟨(hbytes herr).1, (hbytes herr).2.trans ?_⟩, hfaultless⟩
      simp [accept, hempty.resolve_left (absurd (hbytes herr).1)]
    · exact ⟨happend.bytes, fun _ herr => herr⟩
    · exact .of_error neg.ne (not_faultless hres)

lemma bufferedPutBuffer_keeps : Keeps b s (bufferedPutBuffer b s buf).1 buf := by
  rw [bufferedPutBuffer]
  split_ifs with hs
  · exact ⟨fun h => absurd h hs, fun _ h => absurd h hs⟩
  · obtain ⟨hkeeps, hflushed⟩ := bufferedFlush_spec (b := b) (s := { s with freezeOutput := false })
    have hunfreeze : Keeps b s { s with freezeOutput := false } [] := .same rfl rfl rfl
    exact (hunfreeze.trans hkeeps).trans (putLoop_keeps hflushed _)

/-- When the loop ends without an error, the buffer is empty. -/
lemma bufferedClose_spec (rounds : ℕ) : Keeps b s (bufferedClose b rounds s).1 [] ∧
    ((bufferedClose b rounds s).2 = true → (bufferedClose b rounds s).1.lastError = 0 →
      (bufferedClose b rounds s).1.buffer = []) := by
  induction rounds generalizing s with
  | zero => exact ⟨.same rfl rfl rfl, nofun⟩
  | succ rounds ih =>
    rw [bufferedClose]
    split_ifs with hmore
    · exact ⟨bufferedFlush_spec.1.trans ih.1, ih.2⟩
    · exact ⟨.same rfl rfl rfl, fun _ herr => not_not.mp fun hne => hmore ⟨herr, hne⟩⟩

/-! ## The close returns -/

lemma flushLoop_length_le : (flushLoop b fuel s).buffer.length ≤ s.buffer.length := by
  induction fuel generalizing s with
  | zero => exact le_rfl
  | succ fuel ih =>
    rw [flushLoop]
    split_ifs
    · exact le_rfl
    rcases b s.calls s.buffer.length with ⟨n, pos, le⟩ | _ | ⟨ret, neg⟩
    · exact ih.trans (by simp)
    · exact le_rfl
    · exact le_rfl

/-- A round takes bytes out of the buffer, or the backend was not ready and has been asked once. -/
lemma bufferedFlush_progress (hb : b.Faultless) (herr : s.lastError = 0) (hne : s.buffer ≠ []) :
    (bufferedFlush b s).buffer.length < s.buffer.length ∨
      b s.calls s.buffer.length = .again ∧ (bufferedFlush b s).calls = s.calls + 1 ∧
        (bufferedFlush b s).buffer = s.buffer := by
  obtain ⟨k, hk⟩ := Nat.exists_eq_succ_of_ne_zero (length_pos_iff.mpr hne).ne'
  rw [bufferedFlush, if_neg (not_not.mpr herr), hk, flushLoop, if_neg hne, ← hk]
  rcases hres : b s.calls s.buffer.length with ⟨n, pos, le⟩ | _ | ⟨ret, neg⟩
  · refine .inl (flushLoop_length_le.trans_lt ?_)
    simp only [length_drop]
    omega
  · exact .inr ⟨rfl, rfl, rfl⟩
  · exact absurd hb (not_faultless hres)

/-- Induction on the bytes in the buffer, and on the calls up to the next one that is accepted. -/
lemma bufferedClose_returns (hb : b.Faultless) (hlive : b.Live) (herr : s.lastError = 0) :
    ∃ rounds, (bufferedClose b rounds s).2 = true := by
  induction hlen : s.buffer.length using Nat.strong_induction_on generalizing s with
  | _ len ihlen =>
    obtain ⟨later, hlater, haccepts⟩ := hlive s.calls
    induction hd : later - s.calls generalizing s with
    | zero => ?_
    | succ d ihd => ?_
    all_goals
      by_cases hne : s.buffer = []
      · exact ⟨1, by simp [bufferedClose, hne]⟩
      have hnext : ∀ rounds, bufferedClose b (rounds + 1) s =
          bufferedClose b rounds (bufferedFlush b s) :=
        fun rounds => by rw [bufferedClose, if_pos ⟨herr, hne⟩]
      have herr' := bufferedFlush_spec.1.faultless hb herr
      suffices h : ∃ rounds, (bufferedClose b rounds (bufferedFlush b s)).2 = true by
        obtain ⟨rounds, h⟩ := h
        exact ⟨rounds + 1, by rw [hnext, h]⟩
      rcases bufferedFlush_progress hb herr hne with hlt | ⟨hagain, hcalls, hbuffer⟩
      · exact ihlen _ (hlen ▸ hlt) herr' rfl
    · obtain rfl : later = s.calls := by omega
      obtain ⟨n, pos, le, hres⟩ := haccepts _ (length_pos_iff.mpr hne)
      cases hagain.symm.trans hres
    · exact ihd herr' (hbuffer ▸ hlen) (by omega) (by omega)

/-! ## Whole runs -/

lemma step_keeps (call : Call) : Keeps b s (step b s call) call.bytes := by
  cases call with
  | put buf => exact bufferedPutBuffer_keeps
  | tick =>
    rw [step, bufferedRateTick]
    split_ifs
    · exact (bufferedClose_spec 1).1
    · exact .same rfl rfl rfl
    · obtain ⟨hbytes, hfaultless⟩ :=
        (bufferedFlush_spec (b := b) (s := { s with bytesXfer := 0 })).1
      exact ⟨hbytes, hfaultless⟩
  | setRateLimit newRate =>
    rw [step, bufferedSetRateLimit]
    split_ifs <;> exact .same rfl rfl rfl

lemma run_keeps (calls : List Call) :
    Keeps b s (calls.foldl (step b) s) (calls.flatMap Call.bytes) := by
  induction calls generalizing s with
  | nil => exact .same rfl rfl rfl
  | cons call calls ih =>
    rw [foldl_cons, flatMap_cons]
    exact (step_keeps call).trans ih

/-- **The bytes of a migration leave in order**: as long as there is no error, what the backend
accepted and what is in the buffer are the bytes that were put, and when `buffered_close` returns
all are accepted.  A backend that reports no error leaves none, and `buffered_close` returns if it
takes bytes again and again. -/
theorem run_in_order (b : Backend) (bytesPerSec : ℕ) (calls : List Call) (rounds : ℕ) :
    let s := calls.foldl (step b) (qemuFopenOpsBuffered bytesPerSec)
    let closing := bufferedClose b rounds s
    (s.lastError = 0 → s.accepted ++ s.buffer = calls.flatMap Call.bytes) ∧
      (closing.1.lastError = 0 → closing.1.accepted ++ closing.1.buffer = calls.flatMap Call.bytes ∧
        (closing.2 = true → closing.1.accepted = calls.flatMap Call.bytes)) ∧
      (b.Faultless → s.lastError = 0 ∧ closing.1.lastError = 0 ∧
        (b.Live → ∃ enough, (bufferedClose b enough s).2 = true)) := by
  intro s closing
  have hrun : Keeps b (qemuFopenOpsBuffered bytesPerSec) s (calls.flatMap Call.bytes) :=
    run_keeps calls
  obtain ⟨hclose, hempty⟩ := bufferedClose_spec (b := b) (s := s) rounds
  refine ⟨fun herr => (hrun.bytes herr).2, fun herr => ?_, fun hb => ?_⟩
  · have hbytes := ((hrun.trans hclose).bytes herr).2
    rw [append_nil] at hbytes
    refine ⟨hbytes, fun hreturned => ?_⟩
    rwa [hempty hreturned herr, append_nil] at hbytes
  · have hs : s.lastError = 0 := hrun.faultless hb rfl
    exact ⟨hs, hclose.faultless hb hs, fun hlive => bufferedClose_returns hb hlive hs⟩

/-- Takes two bytes in every other call. -/
def slowBackend : Backend := fun call size =>
  if h : 0 < size ∧ call % 2 = 0 then .accepted (min 2 size) (by omega) (by omega) else .again

/-- Four bytes, of which the close writes the last one. -/
theorem slowBackend_in_order :
    let calls : List Call := [.put [1, 2, 3], .tick, .put [4]]
    let s := calls.foldl (step slowBackend) (qemuFopenOpsBuffered 100)
    s.accepted = [1, 2, 3] ∧ s.buffer = [4] ∧
      (∃ rounds, (bufferedClose slowBackend rounds s).2 = true) ∧
      (bufferedClose slowBackend 2 s).1.accepted = [1, 2, 3, 4] := by
  intro calls s
  obtain ⟨-, hclose, hfaultless⟩ := run_in_order slowBackend 100 calls 2
  obtain ⟨-, herr, hreturns⟩ := hfaultless fun call size ret neg h => by
    unfold slowBackend at h
    split at h <;> cases h
  refine ⟨by decide, by decide, hreturns fun call => ⟨2 * call, by omega, fun size hsize => ?_⟩, ?_⟩
  · exact ⟨_, _, _, dif_pos ⟨hsize, by omega⟩⟩
  · exact (hclose herr).2 (by decide)

end Qemu.BufferedFile
