import Mathlib

/-!
# The NBD server

`nbd_trip` of `nbd.c`.  Every request has a buffer while it is served.  The buffers are kept in a
pool of the export that all clients share, and come back from it with the bytes that the last
request left.

A READ fills its buffer with `len / 512` sectors from the sector `(from + dev_offset) / 512` on, and
sends `len` bytes of it.  If the length is not a multiple of the sector size, the rest of what is
sent is from an earlier request.

**Main results:**
- `Inv.step`: what is to be sent was read from the export
- `Alike.step`: two servers with other bytes in their buffers send the same
- `confidential`: in runs in which every READ is aligned to sectors, clients get the bytes of the
  export, and nothing of other requests
-/

namespace Qemu.Nbd

open Function List

/-! ## Requests -/

structure NbdRequest where
  type : ℕ
  handle : ℕ
  from_ : ℕ
  len : ℕ
deriving DecidableEq

inductive Command where
  | read
  | write
  | disc
  | flush
  | trim
  | other
deriving DecidableEq

/-- `request.type & NBD_CMD_MASK_COMMAND`. -/
def NbdRequest.command (r : NbdRequest) : Command :=
  match r.type % 2 ^ 16 with
  | 0 => .read
  | 1 => .write
  | 2 => .disc
  | 3 => .flush
  | 4 => .trim
  | _ => .other

/-- `request.type & NBD_CMD_FLAG_FUA`. -/
def NbdRequest.fua (r : NbdRequest) : Bool := r.type.testBit 16

/-- `NBD_BUFFER_SIZE`. -/
def bufferSize : ℕ := 1024 * 1024

structure NBDExport where
  devOffset : ℕ
  size : ℕ
  readOnly : Bool
  devOffset_lt : devOffset < 2 ^ 63
  size_lt : size < 2 ^ 63

def NBDExport.bytes (exp : NBDExport) (disk : ℕ → UInt8) (r : NbdRequest) : List UInt8 :=
  (range r.len).map fun j => disk (exp.devOffset + r.from_ + j)

/-! ## The parts of `nbd_trip` -/

/-- Bytes that are received into a buffer. -/
def fill (buf : ℕ → UInt8) (payload : List UInt8) : ℕ → UInt8 := fun j => payload.getD j (buf j)

/-- `nbd_co_receive_request` after the header: the return value and the buffer. -/
def nbdCoReceiveRequest (r : NbdRequest) (payload : List UInt8) (buf : ℕ → UInt8) :
    ℤ × (ℕ → UInt8) :=
  if r.len > bufferSize then (-22, buf)
  else if (r.from_ + r.len) % 2 ^ 64 < r.from_ then (-22, buf)
  else if r.command = .write then
    (if payload.length < r.len then -5 else 0, fill buf (payload.take r.len))
  else (0, buf)

/-- The return values of a flush and of the request itself, and the bytes that a failed read leaves
in the buffer, or a discard or a failed write on the device. -/
structure IoResult where
  flush : ℤ
  ret : ℤ
  bytes : ℕ → UInt8

/-- `bdrv_read`. -/
def bdrvRead (disk : ℕ → UInt8) (sector nbSectors : ℕ) (buf : ℕ → UInt8) : ℕ → UInt8 := fun j =>
  if j < nbSectors * 512 then disk (sector * 512 + j) else buf j

/-- `bdrv_write`, with the bytes to write. -/
def bdrvWrite (disk : ℕ → UInt8) (sector nbSectors : ℕ) (bytes : ℕ → UInt8) : ℕ → UInt8 := fun a =>
  if sector * 512 ≤ a ∧ a < sector * 512 + nbSectors * 512 then bytes (a - sector * 512) else disk a

/-- The error and the length of a reply. -/
structure Reply where
  error : ℤ
  len : ℕ

/-- A request in `nbd_trip`: the device, the buffer, and the reply unless the client disconnects. -/
def execute (exp : NBDExport) (r : NbdRequest) (io : IoResult) (disk buf : ℕ → UInt8) :
    (ℕ → UInt8) × (ℕ → UInt8) × Option Reply :=
  let sector := (r.from_ + exp.devOffset) % 2 ^ 64 / 512
  let nbSectors := r.len / 512
  if (r.from_ + r.len) % 2 ^ 64 > exp.size then (disk, buf, some ⟨-22, 0⟩)
  else
    match r.command with
    | .read =>
      if r.fua = true ∧ io.flush < 0 then (disk, buf, some ⟨-io.flush, 0⟩)
      else if io.ret < 0 then (disk, io.bytes, some ⟨-io.ret, 0⟩)
      else (disk, bdrvRead disk sector nbSectors buf, some ⟨0, r.len⟩)
    | .write =>
      if exp.readOnly = true then (disk, buf, some ⟨30, 0⟩)
      else if io.ret < 0 then (bdrvWrite disk sector nbSectors io.bytes, buf, some ⟨-io.ret, 0⟩)
      else
        let disk := bdrvWrite disk sector nbSectors buf
        if r.fua = true ∧ io.flush < 0 then (disk, buf, some ⟨-io.flush, 0⟩)
        else (disk, buf, some ⟨0, 0⟩)
    | .disc => (disk, buf, none)
    | .flush => (disk, buf, some ⟨if io.flush < 0 then -io.flush else 0, 0⟩)
    | .trim =>
      (bdrvWrite disk sector nbSectors io.bytes, buf, some ⟨if io.ret < 0 then -io.ret else 0, 0⟩)
    | .other => (disk, buf, some ⟨-22, 0⟩)

/-! ## The server -/

/-- How far a request is.  A reply also has the device as it was when the request was executed. -/
inductive Stage where
  | receiving
  | executing (r : NbdRequest)
  | replying (r : NbdRequest) (reply : Reply) (device : ℕ → UInt8)

/-- A coroutine that runs `nbd_trip`. -/
structure Trip where
  client : ℕ
  stage : Stage

/-- The reply to a request with the bytes that were sent, and whether these are all. -/
structure Sent where
  client : ℕ
  request : NbdRequest
  error : ℤ
  payload : List UInt8
  whole : Bool
  device : ℕ → UInt8

/-- The state of the server.  A buffer is in the pool, or belongs to one request. -/
structure State where
  disk : ℕ → UInt8
  requests : List (ℕ → UInt8)
  data : ℕ → ℕ → UInt8
  trips : ℕ → Option Trip
  nextTrip : ℕ
  nbRequests : ℕ → ℕ
  sent : List Sent

/-- What comes from a socket: nothing, an error, or a header and the bytes after it. -/
inductive Received where
  | again
  | failed
  | header (r : NbdRequest) (payload : List UInt8)

inductive Event where
  | get (client : ℕ) (fresh : ℕ → UInt8)
  | receive (i : ℕ) (received : Received)
  | execute (i : ℕ) (io : IoResult)
  | send (i : ℕ) (cut : Option ℕ)

/-- `nbd_request_get`.  A new buffer has arbitrary contents. -/
def nbdRequestGet (s : State) (client : ℕ) (fresh : ℕ → UInt8) : State :=
  if s.nbRequests client < 16 then
    { s with
      requests := s.requests.tail
      data := update s.data s.nextTrip (s.requests.headD fresh)
      trips := update s.trips s.nextTrip (some ⟨client, .receiving⟩)
      nextTrip := s.nextTrip + 1
      nbRequests := update s.nbRequests client (s.nbRequests client + 1) }
  else s

/-- `nbd_request_put`. -/
def nbdRequestPut (s : State) (i : ℕ) (trip : Trip) : State :=
  { s with
    requests := s.data i :: s.requests
    trips := update s.trips i none
    nbRequests := update s.nbRequests trip.client (s.nbRequests trip.client - 1) }

def State.setStage (s : State) (i : ℕ) (trip : Trip) (stage : Stage) : State :=
  { s with trips := update s.trips i (some { trip with stage := stage }) }

/-- The steps of the coroutines between the points where they wait. -/
def step (exp : NBDExport) (s : State) : Event → State
  | .get client fresh => nbdRequestGet s client fresh
  | .receive i received =>
    match s.trips i with
    | some trip =>
      match trip.stage, received with
      | .receiving, .header r payload =>
        let (rc, buf) := nbdCoReceiveRequest r payload (s.data i)
        let s := { s with data := update s.data i buf }
        if rc = -5 then nbdRequestPut s i trip
        else if rc < 0 then s.setStage i trip (.replying r ⟨-rc, 0⟩ s.disk)
        else s.setStage i trip (.executing r)
      | .receiving, _ => nbdRequestPut s i trip
      | _, _ => s
    | none => s
  | .execute i io =>
    match s.trips i with
    | some trip =>
      match trip.stage with
      | .executing r =>
        let (disk, buf, reply) := execute exp r io s.disk (s.data i)
        let s' := { s with disk := disk, data := update s.data i buf }
        match reply with
        | none => nbdRequestPut s' i trip
        | some reply => s'.setStage i trip (.replying r reply s.disk)
      | _ => s
    | none => s
  | .send i cut =>
    match s.trips i with
    | some trip =>
      match trip.stage with
      | .replying r reply device =>
        let payload := (range reply.len).map (s.data i)
        let s := { s with sent := s.sent ++
          [{ client := trip.client, request := r, error := reply.error
             payload := match cut with | none => payload | some k => payload.take k
             whole := cut.isNone, device := device }] }
        nbdRequestPut s i trip
      | _ => s
    | none => s

def start (disk : ℕ → UInt8) : State :=
  { disk := disk, requests := [], data := fun _ _ => 0, trips := fun _ => none, nextTrip := 0
    nbRequests := fun _ => 0, sent := [] }

/-! ## Confidentiality -/

/-- A READ that succeeds sends the bytes of the export at that time, and other replies have no
payload. -/
def Sent.Right (exp : NBDExport) (m : Sent) : Prop :=
  if m.request.command = .read ∧ m.error = 0 then
    m.payload <+: exp.bytes m.device m.request ∧
    (m.whole = true → m.payload = exp.bytes m.device m.request)
  else m.payload = []

def Sent.seen (m : Sent) : ℕ × ℕ × ℤ × List UInt8 :=
  (m.client, m.request.handle, m.error, m.payload)

/-- Two events that differ only in the payload of a WRITE. -/
def SameButPayload : Event → Event → Prop
  | .receive i (.header r payload), .receive i' (.header r' payload') =>
    i = i' ∧ r = r' ∧ payload.length = payload'.length
  | e, e' => e = e'

/-- Clients get the bytes of the export, and runs that differ in payloads and leave the same bytes
on the device send the same. -/
def Confidential (exp : NBDExport) (disk : ℕ → UInt8) (events : List Event) : Prop :=
  (∀ m ∈ (events.foldl (step exp) (start disk)).sent, m.Right exp) ∧
    ∀ events', List.Forall₂ SameButPayload events events' →
      (∀ k, ((events.take k).foldl (step exp) (start disk)).disk =
        ((events'.take k).foldl (step exp) (start disk)).disk) →
      (events.foldl (step exp) (start disk)).sent.map Sent.seen =
        (events'.foldl (step exp) (start disk)).sent.map Sent.seen

/-- A READ that is about to be executed begins and ends at sectors of the device. -/
def Aligned (exp : NBDExport) (s : State) : Event → Prop
  | .execute i _ => ∀ trip r, s.trips i = some trip → trip.stage = .executing r →
    r.command = .read →
      r.len % 512 = 0 ∧ (r.from_ + exp.devOffset) % 512 = 0
  | _ => True

def AlignedRun (exp : NBDExport) : State → List Event → Prop
  | _, [] => True
  | s, e :: events => Aligned exp s e ∧ AlignedRun exp (step exp s e) events

/-! ## What is sent -/

variable {e : Event} {r : NbdRequest}

section Contents

variable {exp : NBDExport} {s : State} {i : ℕ} {trip : Trip}

/-- The buffer for a READ has the bytes of the export, and other replies have no payload. -/
def Reply.Right (exp : NBDExport) (r : NbdRequest) (reply : Reply)
    (device buf : ℕ → UInt8) : Prop :=
  if r.command = .read ∧ reply.error = 0 then
    reply.len = r.len ∧ ∀ j < r.len, buf j = device (exp.devOffset + r.from_ + j)
  else reply.len = 0

/-- What is known of a request and the bytes in its buffer. -/
def Stage.Right (exp : NBDExport) (buf : ℕ → UInt8) : Stage → Prop
  | .receiving => True
  | .executing r => r.from_ + r.len < 2 ^ 64
  | .replying r reply device => reply.Right exp r device buf

lemma Reply.right_of_error {error : ℤ} (h : error ≠ 0) (device buf : ℕ → UInt8) :
    Reply.Right exp r ⟨error, 0⟩ device buf := by
  rw [Reply.Right, if_neg (fun hr => h hr.2)]

lemma Reply.right_of_command (h : r.command ≠ .read) (error : ℤ) (device buf : ℕ → UInt8) :
    Reply.Right exp r ⟨error, 0⟩ device buf := by
  rw [Reply.Right, if_neg (fun hr => h hr.1)]

variable {buf : ℕ → UInt8} {reply : Reply}

/-- A request that is received does not wrap around. -/
lemma nbdCoReceiveRequest_accepted {payload : List UInt8}
    (h : 0 ≤ (nbdCoReceiveRequest r payload buf).1) :
    r.from_ + r.len < 2 ^ 64 := by
  rw [nbdCoReceiveRequest] at h
  by_cases hlen : r.len > bufferSize
  · rw [if_pos hlen] at h
    cases h
  by_cases hwrap : (r.from_ + r.len) % 2 ^ 64 < r.from_
  · rw [if_neg hlen, if_pos hwrap] at h
    cases h
  · rw [bufferSize] at hlen
    omega

lemma bdrvRead_aligned (hlen : r.len % 512 = 0) (hfrom : (r.from_ + exp.devOffset) % 512 = 0)
    (hlt : r.from_ + exp.devOffset < 2 ^ 64) (disk buf : ℕ → UInt8) {j : ℕ} (hj : j < r.len) :
    bdrvRead disk ((r.from_ + exp.devOffset) % 2 ^ 64 / 512) (r.len / 512) buf j =
      disk (exp.devOffset + r.from_ + j) := by
  have hsectors : r.len / 512 * 512 = r.len := Nat.div_mul_cancel (Nat.dvd_of_mod_eq_zero hlen)
  have hsector : (r.from_ + exp.devOffset) / 512 * 512 = r.from_ + exp.devOffset :=
    Nat.div_mul_cancel (Nat.dvd_of_mod_eq_zero hfrom)
  rw [bdrvRead, hsectors, if_pos hj, Nat.mod_eq_of_lt hlt, hsector, Nat.add_comm r.from_]

lemma execute_right {io : IoResult} {disk disk' buf' : ℕ → UInt8} (hacc : r.from_ + r.len < 2 ^ 64)
    (haligned : r.command = .read → r.len % 512 = 0 ∧ (r.from_ + exp.devOffset) % 512 = 0)
    (h : execute exp r io disk buf = (disk', buf', some reply)) : reply.Right exp r disk buf' := by
  rw [execute] at h
  by_cases hsize : (r.from_ + r.len) % 2 ^ 64 > exp.size
  · rw [if_pos hsize] at h
    cases h
    exact Reply.right_of_error (by decide) _ _
  rw [if_neg hsize] at h
  cases hcmd : r.command with
  | read =>
    simp only [hcmd] at h
    by_cases hflush : r.fua = true ∧ io.flush < 0
    · rw [if_pos hflush] at h
      cases h
      exact Reply.right_of_error (by omega) _ _
    by_cases hret : io.ret < 0
    · rw [if_neg hflush, if_pos hret] at h
      cases h
      exact Reply.right_of_error (by omega) _ _
    rw [if_neg hflush, if_neg hret] at h
    cases h
    obtain ⟨hlen, hfrom⟩ := haligned hcmd
    have hlt : r.from_ + exp.devOffset < 2 ^ 64 := by
      have := exp.devOffset_lt
      have := exp.size_lt
      omega
    rw [Reply.Right, if_pos ⟨hcmd, rfl⟩]
    exact ⟨rfl, fun j hj => bdrvRead_aligned hlen hfrom hlt _ _ hj⟩
  | write =>
    have hne : r.command ≠ .read := by rw [hcmd]; decide
    simp only [hcmd] at h
    split_ifs at h
    all_goals
      cases h
      exact Reply.right_of_command hne _ _ _
  | disc =>
    simp [hcmd] at h
  | flush | trim | other =>
    have hne : r.command ≠ .read := by rw [hcmd]; decide
    simp only [hcmd] at h
    cases h
    exact Reply.right_of_command hne _ _ _

/-- The payload of a reply is what was read from the export. -/
lemma Reply.Right.payload {device : ℕ → UInt8} (h : reply.Right exp r device buf) :
    (range reply.len).map buf =
      if r.command = .read ∧ reply.error = 0 then exp.bytes device r else [] := by
  rw [Reply.Right] at h
  by_cases hread : r.command = .read ∧ reply.error = 0
  · rw [if_pos hread] at h ⊢
    rw [NBDExport.bytes, h.1]
    exact map_congr_left fun j hj => h.2 j (mem_range.mp hj)
  · rw [if_neg hread] at h ⊢
    rw [h, range_zero, map_nil]

/-- What is to be sent and what was sent is right. -/
structure Inv (exp : NBDExport) (s : State) : Prop where
  trips : ∀ i trip, s.trips i = some trip → trip.stage.Right exp (s.data i)
  sent : ∀ m ∈ s.sent, m.Right exp

lemma inv_start (disk : ℕ → UInt8) : Inv exp (start disk) where
  trips := fun _ _ h => absurd h (by simp [start])
  sent := fun _ h => absurd h (by simp [start])

/-- One request changes, and the others keep their buffers. -/
lemma Inv.update (h : Inv exp s) {s' : State} {t : Option Trip}
    (htrips : s'.trips = update s.trips i t) (hdata : ∀ j, j ≠ i → s'.data j = s.data j)
    (hstage : ∀ trip, t = some trip → trip.stage.Right exp (s'.data i))
    (hsent : ∀ m ∈ s'.sent, m.Right exp) : Inv exp s' := by
  refine ⟨fun j a ha => ?_, hsent⟩
  rw [htrips] at ha
  rcases eq_or_ne j i with rfl | hj
  · rw [update_self] at ha
    exact hstage a ha
  · rw [update_of_ne hj] at ha
    rw [hdata j hj]
    exact h.trips j a ha

lemma Inv.put (h : Inv exp s) (trip : Trip) (disk buf : ℕ → UInt8) {sent : List Sent}
    (hsent : ∀ m ∈ sent, m.Right exp) : Inv exp (nbdRequestPut
      { s with disk := disk, data := Function.update s.data i buf, sent := sent } i trip) :=
  h.update rfl (fun _ hj => update_of_ne hj _ _) (by simp) hsent

lemma Inv.setStage (h : Inv exp s) (trip : Trip) (disk buf : ℕ → UInt8) {stage : Stage}
    (hstage : stage.Right exp buf) : Inv exp (State.setStage
      { s with disk := disk, data := Function.update s.data i buf } i trip stage) := by
  refine h.update rfl (fun _ hj => update_of_ne hj _ _) (fun a ha => ?_) h.sent
  rw [← Option.some.inj ha]
  simpa [State.setStage] using hstage

lemma Inv.get (h : Inv exp s) (client : ℕ) (fresh : ℕ → UInt8) :
    Inv exp (nbdRequestGet s client fresh) := by
  rw [nbdRequestGet]
  split_ifs
  · refine h.update rfl (fun _ hj => update_of_ne hj _ _) (fun a ha => ?_) h.sent
    rw [← Option.some.inj ha]
    exact trivial
  · exact h

/-- A reply that is sent is right, also if it is cut off. -/
lemma Reply.Right.sent {device : ℕ → UInt8} (h : reply.Right exp r device buf) (client : ℕ)
    (cut : Option ℕ) :
    Sent.Right exp
      { client := client, request := r, error := reply.error
        payload := match cut with
          | none => (range reply.len).map buf
          | some k => ((range reply.len).map buf).take k
        whole := cut.isNone, device := device } := by
  rw [Sent.Right, h.payload]
  by_cases hread : r.command = .read ∧ reply.error = 0
  · rw [if_pos hread, if_pos hread]
    cases cut with
    | none => exact ⟨List.prefix_rfl, fun _ => rfl⟩
    | some k => exact ⟨List.take_prefix _ _, fun hw => absurd hw (by simp)⟩
  · rw [if_neg hread, if_neg hread]
    cases cut with
    | none => rfl
    | some k => exact take_nil

lemma Inv.receive (h : Inv exp s) (i : ℕ) (received : Received) :
    Inv exp (step exp s (.receive i received)) := by
  cases ht : s.trips i with
  | none => simpa only [step, ht] using h
  | some trip =>
    cases hstage : trip.stage with
    | executing | replying => simpa only [step, ht, hstage] using h
    | receiving =>
      cases received with
      | again | failed =>
        simp only [step, ht, hstage]
        exact h.update rfl (fun _ _ => rfl) (by simp) h.sent
      | header r payload =>
        simp only [step, ht, hstage]
        split_ifs with heio hneg
        · exact h.put trip s.disk _ h.sent
        · exact h.setStage trip s.disk _ (Reply.right_of_error (by omega) _ _)
        · exact h.setStage trip s.disk _ (nbdCoReceiveRequest_accepted (not_lt.mp hneg))

lemma Inv.execute (h : Inv exp s) (i : ℕ) (io : IoResult)
    (haligned : Aligned exp s (.execute i io)) :
    Inv exp (step exp s (.execute i io)) := by
  cases ht : s.trips i with
  | none => simpa only [step, ht] using h
  | some trip =>
    cases hstage : trip.stage with
    | receiving | replying => simpa only [step, ht, hstage] using h
    | executing r =>
      have hacc := h.trips i trip ht
      rw [hstage] at hacc
      simp only [step, ht, hstage]
      rcases hex : Nbd.execute exp r io s.disk (s.data i) with ⟨disk, buf, reply⟩
      cases reply with
      | none => exact h.put trip disk buf h.sent
      | some reply =>
        exact h.setStage trip disk buf (execute_right hacc (haligned trip r ht hstage) hex)

lemma Inv.send (h : Inv exp s) (i : ℕ) (cut : Option ℕ) : Inv exp (step exp s (.send i cut)) := by
  cases ht : s.trips i with
  | none => simpa only [step, ht] using h
  | some trip =>
    cases hstage : trip.stage with
    | receiving | executing => simpa only [step, ht, hstage] using h
    | replying r reply device =>
      have hright := h.trips i trip ht
      rw [hstage] at hright
      simp only [step, ht, hstage]
      refine h.update rfl (fun _ _ => rfl) (by simp) fun m hm => ?_
      rcases mem_append.mp hm with hm | hm
      · exact h.sent m hm
      · rw [mem_singleton.mp hm]
        exact Reply.Right.sent hright trip.client cut

lemma Inv.step (h : Inv exp s) (haligned : Aligned exp s e) : Inv exp (step exp s e) := by
  cases e with
  | get client fresh => exact h.get client fresh
  | receive i received => exact h.receive i received
  | execute i io => exact h.execute i io haligned
  | send i cut => exact h.send i cut

end Contents

/-! ## Two runs -/

section TwoRuns

variable {exp : NBDExport} {s s' : State}

/-- Two servers that differ only in the bytes of their buffers. -/
def Alike (s s' : State) : Prop :=
  ∃ requests data, requests.length = s.requests.length ∧
    s' = { s with requests := requests, data := data }

/-- Whether a request is accepted does not depend on its payload. -/
lemma nbdCoReceiveRequest_fst_congr (r : NbdRequest) {payload payload' : List UInt8}
    (h : payload.length = payload'.length) (buf buf' : ℕ → UInt8) :
    (nbdCoReceiveRequest r payload buf).1 = (nbdCoReceiveRequest r payload' buf').1 := by
  rw [nbdCoReceiveRequest, nbdCoReceiveRequest, h]
  split_ifs
  all_goals rfl

/-- The reply does not depend on the buffer. -/
lemma execute_reply_congr (r : NbdRequest) (io : IoResult) (disk buf buf' : ℕ → UInt8) :
    (execute exp r io disk buf).2.2 = (execute exp r io disk buf').2.2 := by
  rw [execute, execute]
  by_cases hsize : (r.from_ + r.len) % 2 ^ 64 > exp.size
  · rw [if_pos hsize, if_pos hsize]
  rw [if_neg hsize, if_neg hsize]
  cases r.command with
  | read | write =>
    dsimp only
    split_ifs
    all_goals rfl
  | disc | flush | trim | other => rfl

lemma Alike.get (h : Alike s s') (client : ℕ) (fresh : ℕ → UInt8) :
    Alike (nbdRequestGet s client fresh) (nbdRequestGet s' client fresh) := by
  obtain ⟨requests, data, hlen, rfl⟩ := h
  rw [nbdRequestGet, nbdRequestGet]
  split_ifs
  · exact ⟨requests.tail, _, by simp [hlen], rfl⟩
  · exact ⟨requests, data, hlen, rfl⟩

lemma Alike.receive (h : Alike s s') (i : ℕ) {payload payload' : List UInt8}
    (hlen : payload.length = payload'.length) :
    Alike (step exp s (.receive i (.header r payload)))
      (step exp s' (.receive i (.header r payload'))) := by
  obtain ⟨requests, data, hreq, rfl⟩ := id h
  cases ht : s.trips i with
  | none => simpa only [step, ht] using h
  | some trip =>
    cases hstage : trip.stage with
    | executing | replying => simpa only [step, ht, hstage] using h
    | receiving =>
      have hrc := nbdCoReceiveRequest_fst_congr r hlen (s.data i) (data i)
      simp only [step, ht, hstage, ← hrc]
      split_ifs
      · exact ⟨_, _, congrArg (· + 1) hreq, rfl⟩
      · exact ⟨_, _, hreq, rfl⟩
      · exact ⟨_, _, hreq, rfl⟩

lemma Alike.receive_again (h : Alike s s') (i : ℕ) {received : Received}
    (hnone : ∀ r payload, received ≠ .header r payload) :
    Alike (step exp s (.receive i received)) (step exp s' (.receive i received)) := by
  obtain ⟨requests, data, hreq, rfl⟩ := id h
  cases ht : s.trips i with
  | none => simpa only [step, ht] using h
  | some trip =>
    cases received with
    | header r payload => exact absurd rfl (hnone r payload)
    | again | failed =>
      cases hstage : trip.stage with
      | receiving =>
        simp only [step, ht, hstage]
        exact ⟨_, _, congrArg (· + 1) hreq, rfl⟩
      | executing | replying => simpa only [step, ht, hstage] using h

lemma Alike.execute (h : Alike s s') (i : ℕ) (io : IoResult)
    (hdisk : (step exp s (.execute i io)).disk = (step exp s' (.execute i io)).disk) :
    Alike (step exp s (.execute i io)) (step exp s' (.execute i io)) := by
  obtain ⟨requests, data, hreq, rfl⟩ := id h
  cases ht : s.trips i with
  | none => simpa only [step, ht] using h
  | some trip =>
    cases hstage : trip.stage with
    | receiving | replying => simpa only [step, ht, hstage] using h
    | executing r =>
      have hreply : (Nbd.execute exp r io s.disk (s.data i)).2.2 =
          (Nbd.execute exp r io s.disk (data i)).2.2 := execute_reply_congr r io _ _ _
      simp only [step, ht, hstage, ← hreply] at hdisk ⊢
      cases hnext : (Nbd.execute exp r io s.disk (s.data i)).2.2 with
      | none =>
        simp only [hnext, nbdRequestPut] at hdisk ⊢
        rw [← hdisk]
        exact ⟨_, _, congrArg (· + 1) hreq, rfl⟩
      | some reply =>
        simp only [hnext, State.setStage] at hdisk ⊢
        rw [← hdisk]
        exact ⟨_, _, hreq, rfl⟩

lemma Alike.send (h : Alike s s') (hs : Inv exp s) (hs' : Inv exp s') (i : ℕ) (cut : Option ℕ) :
    Alike (step exp s (.send i cut)) (step exp s' (.send i cut)) := by
  obtain ⟨requests, data, hreq, rfl⟩ := id h
  cases ht : s.trips i with
  | none => simpa only [step, ht] using h
  | some trip =>
    cases hstage : trip.stage with
    | receiving | executing => simpa only [step, ht, hstage] using h
    | replying r reply device =>
      have hright := hs.trips i trip ht
      have hright' := hs'.trips i trip ht
      rw [hstage] at hright hright'
      have hpayload := (Reply.Right.payload hright).trans (Reply.Right.payload hright').symm
      simp only [step, ht, hstage, ← hpayload]
      exact ⟨_, _, congrArg (· + 1) hreq, rfl⟩

/-- Two servers with other bytes in their buffers send the same. -/
lemma Alike.step (h : Alike s s') (hs : Inv exp s) (hs' : Inv exp s') {e' : Event}
    (he : SameButPayload e e') (hdisk : (step exp s e).disk = (step exp s' e').disk) :
    Alike (step exp s e) (step exp s' e') := by
  by_cases hpay : ∃ i r payload, e = .receive i (.header r payload)
  · obtain ⟨i, r, payload, rfl⟩ := hpay
    rcases e' with _ | ⟨i', _ | _ | ⟨r', payload'⟩⟩ | _ | _
    case receive.header =>
      obtain ⟨rfl, rfl, hlen⟩ := he
      exact h.receive i hlen
    all_goals exact absurd he (by simp [SameButPayload])
  · have heq : e = e' := by
      rcases e with _ | ⟨i, _ | _ | ⟨r, payload⟩⟩ | _ | _
      case receive.header => exact absurd ⟨i, r, payload, rfl⟩ hpay
      all_goals exact he
    subst heq
    cases e with
    | get client fresh => exact h.get client fresh
    | receive i received =>
      exact h.receive_again i fun r payload heq => hpay ⟨i, r, payload, by rw [heq]⟩
    | execute i io => exact h.execute i io hdisk
    | send i cut => exact h.send hs hs' i cut

end TwoRuns

/-! ## Runs -/

section Runs

variable {exp : NBDExport} {s s' : State} {events events' : List Event}

lemma Inv.run (h : Inv exp s) (haligned : AlignedRun exp s events) :
    Inv exp (events.foldl (Nbd.step exp) s) := by
  induction events generalizing s with
  | nil => exact h
  | cons e events ih => exact ih (h.step haligned.1) haligned.2

lemma Alike.aligned (h : Alike s s') {e' : Event} (he : SameButPayload e e')
    (ha : Aligned exp s e) :
    Aligned exp s' e' := by
  obtain ⟨requests, data, -, rfl⟩ := h
  cases e' with
  | get | receive | send => exact trivial
  | execute i io =>
    rcases e with _ | ⟨j, _ | _ | ⟨r, payload⟩⟩ | _ | _
    case execute =>
      cases he
      exact ha
    all_goals exact absurd he (by simp [SameButPayload])

lemma Alike.run (hsame : List.Forall₂ SameButPayload events events') (h : Alike s s')
    (hs : Inv exp s) (hs' : Inv exp s') (haligned : AlignedRun exp s events)
    (hdisk : ∀ k, ((events.take k).foldl (Nbd.step exp) s).disk =
      ((events'.take k).foldl (Nbd.step exp) s').disk) :
    Alike (events.foldl (Nbd.step exp) s) (events'.foldl (Nbd.step exp) s') := by
  induction hsame generalizing s s' with
  | nil => exact h
  | cons he _ ih =>
    exact ih (h.step hs hs' he (hdisk 1)) (hs.step haligned.1) (hs'.step (h.aligned he haligned.1))
      haligned.2 fun k => hdisk (k + 1)

/-- If every READ begins and ends at sectors of the device, clients get the bytes of the export, and
nothing of other requests. -/
theorem confidential (exp : NBDExport) (disk : ℕ → UInt8) (events : List Event)
    (h : AlignedRun exp (start disk) events) : Confidential exp disk events := by
  have hstart : Inv exp (start disk) := inv_start disk
  refine ⟨(hstart.run h).sent, fun events' hsame hdisk => ?_⟩
  have hself : Alike (start disk) (start disk) := ⟨_, _, rfl, rfl⟩
  obtain ⟨_, _, -, heq⟩ := Alike.run hsame hself hstart hstart h hdisk
  rw [heq]

end Runs

def sectorExport : NBDExport where
  devOffset := 0
  size := 512
  readOnly := true
  devOffset_lt := by norm_num
  size_lt := by norm_num

def serve (client i : ℕ) (r : NbdRequest) (payload : List UInt8) : List Event :=
  [.get client fun _ => 0, .receive i (.header r payload),
    .execute i ⟨0, 0, fun _ => 0⟩, .send i none]

theorem sector_confidential : AlignedRun sectorExport (start fun _ => 0)
    (serve 1 0 ⟨0, 0, 0, 512⟩ []) ∧
      Confidential sectorExport (fun _ => 0) (serve 1 0 ⟨0, 0, 0, 512⟩ []) := by
  have haligned : AlignedRun sectorExport (start fun _ => 0) (serve 1 0 ⟨0, 0, 0, 512⟩ []) := by
    refine ⟨trivial, trivial, fun trip r ht hstage _ => ?_, trivial, trivial⟩
    obtain rfl : ⟨1, .executing ⟨0, 0, 0, 512⟩⟩ = trip := Option.some.inj ht
    obtain rfl : ⟨0, 0, 0, 512⟩ = r := Stage.executing.inj hstage
    decide
  exact ⟨haligned, confidential _ _ _ haligned⟩

/-- A WRITE of one byte is refused, and another client reads the byte. -/
theorem refused_write_read_back : ¬ ∀ exp disk events, Confidential exp disk events := by
  intro h
  have hright := (h sectorExport (fun _ => 0)
    (serve 1 0 ⟨1, 0, 0, 1⟩ [7] ++ serve 2 1 ⟨0, 0, 0, 1⟩ [])).1
  have hbytes : ∀ m ∈ ((serve 1 0 ⟨1, 0, 0, 1⟩ [7] ++ serve 2 1 ⟨0, 0, 0, 1⟩ []).foldl
      (step sectorExport) (start fun _ => 0)).sent,
      m.request.command = .read ∧ m.error = 0 ∧ m.whole = true →
        m.payload = sectorExport.bytes m.device m.request := by
    intro m hm hread
    have := hright m hm
    rw [Sent.Right, if_pos ⟨hread.1, hread.2.1⟩] at this
    exact this.2 hread.2.2
  exact absurd hbytes (by decide +kernel)

end Qemu.Nbd
