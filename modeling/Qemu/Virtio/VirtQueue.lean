import Mathlib.Data.List.Basic
import Mathlib.Logic.Function.Basic
import Mathlib.Tactic

/-!
# Virtqueues

A virtqueue of `hw/virtio.c` is three tables in the memory of the guest: descriptors, the ring of
available heads and the ring of used elements.  The guest can write any of them at any time, so
every function here reads bytes of memory, and exits where the source does (`Fatal`).

A chain of descriptors is walked by `virtqueue_pop` and by `virtqueue_avail_bytes`, in two pieces of
code.  Both loops count the descriptors, and have that count as fuel here.

**Main definitions:** `virtqueueFlush`, `vringNotify`, `virtqueuePop`, `virtqueueAvailBytes`.
-/

namespace Qemu.Virtio

/-! ## Guest memory -/

/-- The bytes of guest memory, and the byte order of the target. -/
structure Memory where
  bigEndian : Bool
  byte : BitVec 64 → BitVec 8

namespace Memory

variable (m : Memory)

/-- `lduw_phys`. -/
def lduw (pa : BitVec 64) : BitVec 16 :=
  if m.bigEndian then m.byte pa ++ m.byte (pa + 1) else m.byte (pa + 1) ++ m.byte pa

/-- `ldl_phys`. -/
def ldl (pa : BitVec 64) : BitVec 32 :=
  if m.bigEndian then m.lduw pa ++ m.lduw (pa + 2) else m.lduw (pa + 2) ++ m.lduw pa

/-- `ldq_phys`. -/
def ldq (pa : BitVec 64) : BitVec 64 :=
  if m.bigEndian then m.ldl pa ++ m.ldl (pa + 4) else m.ldl (pa + 4) ++ m.ldl pa

/-- `stw_phys`. -/
def stw (pa : BitVec 64) (v : BitVec 16) : Memory :=
  let low := v.extractLsb' 0 8
  let high := v.extractLsb' 8 8
  { m with byte := if m.bigEndian then Function.update (Function.update m.byte pa high) (pa + 1) low
      else Function.update (Function.update m.byte pa low) (pa + 1) high }

end Memory

/-! ## The queue -/

/-- `VirtQueue`, with the features that the guest has acknowledged and its memory.
`virtio_add_queue` aborts above 1024 entries (`VIRTQUEUE_MAX_SIZE`); here it is enough that the
number has 16 bits. -/
structure VirtQueue where
  mem : Memory
  guestFeatures : BitVec 32
  num : ℕ
  num_lt : num < 2 ^ 16
  desc : BitVec 64
  avail : BitVec 64
  used : BitVec 64
  lastAvailIdx : BitVec 16
  signalledUsed : BitVec 16
  signalledUsedValid : Bool
  notification : Bool
  inuse : BitVec 32

/-- `VIRTQUEUE_MAX_SIZE`. -/
def virtqueueMaxSize : ℕ := 1024

namespace VirtQueue

variable (q : VirtQueue)

/-- `VIRTIO_F_NOTIFY_ON_EMPTY`. -/
def notifyOnEmpty : Bool := q.guestFeatures.getLsbD 24

/-- `VIRTIO_RING_F_EVENT_IDX`. -/
def eventIdx : Bool := q.guestFeatures.getLsbD 29

def vringAvailFlags : BitVec 16 := q.mem.lduw q.avail

def vringAvailIdx : BitVec 16 := q.mem.lduw (q.avail + 2)

def vringAvailRing (i : ℕ) : BitVec 16 := q.mem.lduw (q.avail + BitVec.ofNat 64 (4 + 2 * i))

def vringUsedEvent : BitVec 16 := q.vringAvailRing q.num

def vringUsedIdx : BitVec 16 := q.mem.lduw (q.used + 2)

def vringUsedIdxSet (v : BitVec 16) : VirtQueue := { q with mem := q.mem.stw (q.used + 2) v }

/-- The address that `vring_avail_event` writes to. -/
def eventAddr : BitVec 64 := q.used + BitVec.ofNat 64 (4 + 8 * q.num)

def vringAvailEvent (v : BitVec 16) : Memory :=
  if q.notification then q.mem.stw q.eventAddr v else q.mem

/-! ## Notifying the guest -/

/-- `virtqueue_flush`.  The one comparison is of an `int16_t` with a `uint16_t`, both as `int`. -/
def virtqueueFlush (count : BitVec 32) : VirtQueue :=
  let old := q.vringUsedIdx
  let new := old + count.setWidth 16
  let q' := { q.vringUsedIdxSet new with inuse := q.inuse - count }
  if (new - q.signalledUsed).toInt < (new - old).toNat then { q' with signalledUsedValid := false }
  else q'

end VirtQueue

/-- `vring_need_event`. -/
def vringNeedEvent (event new old : BitVec 16) :
    Bool := decide ((new - event - 1).toNat < (new - old).toNat)

namespace VirtQueue

variable (q : VirtQueue)

/-- The first test of `vring_notify`: the queue is empty, and the guest wants to know. -/
def emptyNotify : Bool :=
  q.notifyOnEmpty && q.inuse == 0 && q.vringAvailIdx == q.lastAvailIdx

/-- `vring_notify` reads `used_event`. -/
def consults : Bool := !q.emptyNotify && q.eventIdx

/-- `vring_notify`. -/
def vringNotify : Bool × VirtQueue :=
  if q.emptyNotify then (true, q)
  else if !q.eventIdx then (!q.vringAvailFlags.getLsbD 0, q)
  else
    let new := q.vringUsedIdx
    (!q.signalledUsedValid || vringNeedEvent q.vringUsedEvent new q.signalledUsed,
      { q with signalledUsedValid := true, signalledUsed := new })

end VirtQueue

/-! ## Chains of descriptors -/

/-- The reasons for which the functions below exit; `fuel` is none of them. -/
inductive Fatal where
  | movedUsedIndex (old new : BitVec 16)
  | available (head : ℕ)
  | descNext (next : ℕ)
  | invalidSize
  | looped
  | tooManyWrite
  | tooManyRead
  | mapMmio
  | fuel
  deriving DecidableEq, Repr

namespace Memory

variable (m : Memory) (pa : BitVec 64) (i : ℕ)

def vringDescAddr : BitVec 64 := m.ldq (pa + BitVec.ofNat 64 (16 * i))

def vringDescLen : BitVec 32 := m.ldl (pa + BitVec.ofNat 64 (16 * i + 8))

def vringDescFlags : BitVec 16 := m.lduw (pa + BitVec.ofNat 64 (16 * i + 12))

def vringDescNext : BitVec 16 := m.lduw (pa + BitVec.ofNat 64 (16 * i + 14))

/-- `VRING_DESC_F_NEXT`. -/
def hasNext : Bool := (m.vringDescFlags pa i).getLsbD 0

/-- `VRING_DESC_F_WRITE`. -/
def isWrite : Bool := (m.vringDescFlags pa i).getLsbD 1

/-- `VRING_DESC_F_INDIRECT`. -/
def isIndirect : Bool := (m.vringDescFlags pa i).getLsbD 2

/-- `virtqueue_next_desc`: `max` at the end of a chain. -/
def virtqueueNextDesc (max : ℕ) : Except Fatal ℕ :=
  if !m.hasNext pa i then .ok max
  else
    let next := (m.vringDescNext pa i).toNat
    if max ≤ next then .error (.descNext next) else .ok next

end Memory

/-- `virtqueue_num_heads`. -/
def VirtQueue.virtqueueNumHeads (q : VirtQueue) (idx : ℕ) : Except Fatal ℕ :=
  let numHeads := q.vringAvailIdx - BitVec.ofNat 16 idx
  if q.num < numHeads.toNat then .error (.movedUsedIndex (BitVec.ofNat 16 idx) q.vringAvailIdx)
  else .ok numHeads.toNat

/-- `virtqueue_get_head`. -/
def VirtQueue.virtqueueGetHead (q : VirtQueue) (idx : ℕ) : Except Fatal ℕ :=
  let head := (q.vringAvailRing (idx % q.num)).toNat
  if q.num ≤ head then .error (.available head) else .ok head

/-- An address and a length. -/
structure Iovec where
  addr : BitVec 64
  len : BitVec 32
  deriving DecidableEq

/-- `VirtQueueElement`: what the device may write to, and what it may read. -/
structure VirtQueueElement where
  index : ℕ
  inSg : List Iovec
  outSg : List Iovec
  deriving DecidableEq

def VirtQueueElement.add (e : VirtQueueElement) (write : Bool) (sg : Iovec) :
    Except Fatal VirtQueueElement :=
  if write then
    if virtqueueMaxSize ≤ e.inSg.length then .error .tooManyWrite
    else .ok { e with inSg := e.inSg ++ [sg] }
  else if virtqueueMaxSize ≤ e.outSg.length then .error .tooManyRead
  else .ok { e with outSg := e.outSg ++ [sg] }

/-- The loop of `virtqueue_pop`. -/
def collect (m : Memory) (pa : BitVec 64) (max : ℕ) :
    ℕ → ℕ → VirtQueueElement → Except Fatal VirtQueueElement
  | 0, _, _ => .error .fuel
  | fuel + 1, i, e =>
    match e.add (m.isWrite pa i) ⟨m.vringDescAddr pa i, m.vringDescLen pa i⟩ with
    | .error err => .error err
    | .ok e' =>
      if max < e'.inSg.length + e'.outSg.length then .error .looped
      else
        match m.virtqueueNextDesc pa i max with
        | .error err => .error err
        | .ok next => if next = max then .ok e' else collect m pa max fuel next e'

/-- The chain of a head in `virtqueue_pop`, through an indirect table if the head has one. -/
def VirtQueue.collectHead (q : VirtQueue) (head : ℕ) : Except Fatal VirtQueueElement :=
  if q.mem.isIndirect q.desc head then
    let len := (q.mem.vringDescLen q.desc head).toNat
    if len % 16 ≠ 0 then .error .invalidSize
    else collect q.mem (q.mem.vringDescAddr q.desc head) (len / 16) (len / 16 + 1) 0 ⟨head, [], []⟩
  else collect q.mem q.desc q.num (q.num + 1) head ⟨head, [], []⟩

/-- The memory after `virtqueue_pop` has published the event index. -/
def VirtQueue.published (q : VirtQueue) : Memory :=
  if q.eventIdx then q.vringAvailEvent q.vringAvailIdx else q.mem

/-- `virtqueue_pop`.  `mapSg` says whether `virtqueue_map_sg` finds memory. -/
def VirtQueue.virtqueuePop (mapSg : VirtQueueElement → Bool) (q : VirtQueue) :
    Except Fatal (Option VirtQueueElement × VirtQueue) :=
  match q.virtqueueNumHeads q.lastAvailIdx.toNat with
  | .error err => .error err
  | .ok 0 => .ok (none, q)
  | .ok _ =>
    match q.virtqueueGetHead q.lastAvailIdx.toNat with
    | .error err => .error err
    | .ok head =>
      let q := { q with lastAvailIdx := q.lastAvailIdx + 1, mem := q.published }
      match q.collectHead head with
      | .error err => .error err
      | .ok e => if mapSg e then .ok (some e, { q with inuse := q.inuse + 1 }) else .error .mapMmio

/-- The inner loop of `virtqueue_avail_bytes` ends with enough bytes, or with the number of buffers
and the totals, which are `int`s. -/
inductive Scan where
  | enough
  | more (numBufs : ℕ) (inTotal outTotal : BitVec 32)
  deriving DecidableEq

/-- The inner loop of `virtqueue_avail_bytes`. -/
def scan (m : Memory) (pa : BitVec 64) (max : ℕ) (inBytes outBytes : BitVec 32) :
    ℕ → ℕ → ℕ → BitVec 32 → BitVec 32 → Except Fatal Scan
  | 0, _, _, _, _ => .error .fuel
  | fuel + 1, i, numBufs, inTotal, outTotal =>
    if max < numBufs + 1 then .error .looped
    else
      let len := m.vringDescLen pa i
      let write := m.isWrite pa i
      let inTotal := if write ∧ 0 < inBytes.toInt then inTotal + len else inTotal
      let outTotal := if !write ∧ 0 < outBytes.toInt then outTotal + len else outTotal
      if (write ∧ 0 < inBytes.toInt ∧ inBytes.toInt ≤ inTotal.toInt) ∨
          (!write ∧ 0 < outBytes.toInt ∧ outBytes.toInt ≤ outTotal.toInt) then .ok .enough
      else
        match m.virtqueueNextDesc pa i max with
        | .error err => .error err
        | .ok next =>
          if next = max then .ok (.more (numBufs + 1) inTotal outTotal)
          else scan m pa max inBytes outBytes fuel next (numBufs + 1) inTotal outTotal

/-- The chain of one head in `virtqueue_avail_bytes`.  The address of an indirect table is read
after the index has been set to zero. -/
def VirtQueue.scanHead (q : VirtQueue) (inBytes outBytes : BitVec 32) (head totalBufs : ℕ)
    (inTotal outTotal : BitVec 32) : Except Fatal Scan :=
  if q.mem.isIndirect q.desc head then
    let len := (q.mem.vringDescLen q.desc head).toNat
    if len % 16 ≠ 0 then .error .invalidSize
    else if q.num ≤ totalBufs then .error .looped
    else
      match scan q.mem (q.mem.vringDescAddr q.desc 0) (len / 16) inBytes outBytes (len / 16 + 1) 0 0
          inTotal outTotal with
      | .ok (.more _ inTotal outTotal) => .ok (.more (totalBufs + 1) inTotal outTotal)
      | r => r
  else scan q.mem q.desc q.num inBytes outBytes (q.num + 1) head totalBufs inTotal outTotal

/-- The outer loop of `virtqueue_avail_bytes`. -/
def VirtQueue.scanHeads (q : VirtQueue) (inBytes outBytes : BitVec 32) :
    ℕ → ℕ → ℕ → BitVec 32 → BitVec 32 → Except Fatal Bool
  | 0, _, _, _, _ => .error .fuel
  | fuel + 1, idx, totalBufs, inTotal, outTotal =>
    match q.virtqueueNumHeads idx with
    | .error err => .error err
    | .ok 0 => .ok false
    | .ok _ =>
      match q.virtqueueGetHead idx with
      | .error err => .error err
      | .ok head =>
        match q.scanHead inBytes outBytes head totalBufs inTotal outTotal with
        | .error err => .error err
        | .ok .enough => .ok true
        | .ok (.more totalBufs inTotal outTotal) =>
          q.scanHeads inBytes outBytes fuel (idx + 1) totalBufs inTotal outTotal

/-- `virtqueue_avail_bytes`. -/
def VirtQueue.virtqueueAvailBytes (q : VirtQueue) (inBytes outBytes : BitVec 32) :
    Except Fatal Bool :=
  q.scanHeads inBytes outBytes (2 ^ 16) q.lastAvailIdx.toNat 0 0 0

end Qemu.Virtio
