import Qemu.Virtio.VirtQueue

/-!
# Notifications with an event index

With `VIRTIO_RING_F_EVENT_IDX` the guest says in `used_event` which used element it wants to be
notified about.  `vring_notify` compares that with the index of the last used element and with the
index at the last time that it made this comparison, all of them on 16 bits; `virtqueue_flush` gives
that last index up before it is too old to be compared with.

`Counters` has the same indices as numbers without a bound, and `Step` is everything that can happen
to a queue: the device flushes elements and notifies, and the guest writes its memory.

**Main results:**
* `Tracked.step` — a queue whose last index is valid has used less than `2 ^ 15` elements since.
* **`notify_of_due`** — a notification that is due is sent, after every run.
-/

namespace Qemu.Virtio

open BitVec

/-! ## Reading back what has been stored -/

lemma Memory.lduw_stw (m : Memory) (pa : BitVec 64) (v : BitVec 16) : (m.stw pa v).lduw pa = v := by
  have hv : v.extractLsb' 8 8 ++ v.extractLsb' 0 8 = v :=
    (extractLsb'_append_extractLsb'_eq_extractLsb' rfl).trans (extractLsb'_eq_self)
  cases hm : m.bigEndian <;> simp [Memory.lduw, Memory.stw, hm, hv]

/-! ## Counters without a bound -/

/-- The number of used elements, now and when `vring_notify` last read `used_event`. -/
structure Counters where
  used : ℕ
  consulted : Option ℕ

/-- The element that the guest has asked for has been used since `vring_notify` last read
`used_event`, or this was never read. -/
def Due (c : Counters) (event : BitVec 16) : Prop :=
  ∀ n, c.consulted = some n → ∃ k, n ≤ k ∧ k < c.used ∧ BitVec.ofNat 16 k = event

/-- What can happen to a queue, with the counters. -/
inductive Step : VirtQueue × Counters → VirtQueue × Counters → Prop
  /-- The device flushes at most as many elements as the queue has. -/
  | flush {q : VirtQueue} {c : Counters} (count : BitVec 32) (h : count.toNat ≤ q.num) :
      Step (q, c) (q.virtqueueFlush count, { c with used := c.used + count.toNat })
  /-- The device tries to notify. -/
  | notify {q : VirtQueue} {c : Counters} :
      Step (q, c) (q.vringNotify.2,
        if q.consults then { c with consulted := some c.used } else c)
  /-- The guest writes to its memory, `used_event` included, and acknowledges features; the device
  takes elements off the queue. -/
  | other {q : VirtQueue} {c : Counters} (mem : Memory) (guestFeatures : BitVec 32)
      (lastAvailIdx : BitVec 16) (notification : Bool) (inuse : BitVec 32)
      (h : mem.lduw (q.used + 2) = q.vringUsedIdx) :
      Step (q, c) ({ q with
        mem := mem, guestFeatures := guestFeatures, lastAvailIdx := lastAvailIdx,
        notification := notification, inuse := inuse }, c)

/-- A queue after `virtio_reset` or `virtio_load`, and what can become of it. -/
def Reachable (s : VirtQueue × Counters) : Prop :=
  ∃ q n, q.signalledUsedValid = false ∧ q.vringUsedIdx = BitVec.ofNat 16 n ∧
    Relation.ReflTransGen Step (q, ⟨n, none⟩) s

/-- The indices on 16 bits are those of the counters, and a valid index is recent. -/
structure Tracked (q : VirtQueue) (c : Counters) : Prop where
  used : q.vringUsedIdx = BitVec.ofNat 16 c.used
  recent : q.signalledUsedValid = true → ∃ n, c.consulted = some n ∧
    q.signalledUsed = BitVec.ofNat 16 n ∧ n ≤ c.used ∧ c.used < n + 2 ^ 15

lemma usedIdx_flush (q : VirtQueue) (count : BitVec 32) :
    (q.virtqueueFlush count).vringUsedIdx = q.vringUsedIdx + count.setWidth 16 := by
  rw [VirtQueue.virtqueueFlush]
  simp only
  split_ifs <;> exact Memory.lduw_stw _ _ _

lemma toNat_sub_ofNat {n k : ℕ} (h : n ≤ k) :
    (BitVec.ofNat 16 k - BitVec.ofNat 16 n).toNat = (k - n) % 2 ^ 16 := by
  simp only [toNat_sub, toNat_ofNat]
  omega

/-- The comparison in `virtqueue_flush` finds every index that has become too old. -/
lemma flush_recent {n used count : ℕ} (hn : n ≤ used) (hlt : used < n + 2 ^ 15)
    (hcount : count < 2 ^ 16) (h : ¬ (BitVec.ofNat 16 (used + count) - BitVec.ofNat 16 n).toInt <
      (BitVec.ofNat 16 (used + count) - BitVec.ofNat 16 used).toNat) :
    used + count < n + 2 ^ 15 := by
  rw [toInt_eq_toNat_cond, toNat_sub_ofNat (by omega), toNat_sub_ofNat (by omega)] at h
  split_ifs at h <;> omega

lemma Tracked.flush {q : VirtQueue} {c : Counters} (T : Tracked q c) {count : BitVec 32}
    (h : count.toNat ≤ q.num) :
    Tracked (q.virtqueueFlush count) { c with used := c.used + count.toNat } := by
  have hnew : q.vringUsedIdx + count.setWidth 16 = BitVec.ofNat 16 (c.used + count.toNat) := by
    rw [T.used]
    apply eq_of_toNat_eq
    simp
  refine ⟨by rw [usedIdx_flush, hnew], ?_⟩
  rw [VirtQueue.virtqueueFlush, hnew]
  simp only
  split_ifs with hold
  · simp
  intro hvalid
  obtain ⟨n, hc, hsig, hn, hlt⟩ := T.recent hvalid
  refine ⟨n, hc, hsig, Nat.le_add_right_of_le hn, ?_⟩
  rw [T.used, hsig] at hold
  exact flush_recent hn hlt (lt_of_le_of_lt h q.num_lt) hold

lemma Tracked.notify {q : VirtQueue} {c : Counters} (T : Tracked q c) :
    Tracked q.vringNotify.2 (if q.consults then { c with consulted := some c.used } else c) := by
  rw [VirtQueue.vringNotify, VirtQueue.consults]
  cases hempty : q.emptyNotify with
  | true => simpa using T
  | false =>
    cases hevent : q.eventIdx with
    | false => simpa using T
    | true =>
      refine ⟨T.used, fun _ => ⟨c.used, rfl, T.used, le_rfl, ?_⟩⟩
      exact Nat.lt_add_of_pos_right (by decide)

/-- **What every step preserves.** -/
theorem Tracked.step {s s' : VirtQueue × Counters} (h : Step s s') (T : Tracked s.1 s.2) :
    Tracked s'.1 s'.2 := by
  cases h with
  | flush count h => exact T.flush h
  | notify => exact T.notify
  | other mem guestFeatures lastAvailIdx notification inuse h => exact ⟨h.trans T.used, T.recent⟩

lemma Reachable.tracked {s : VirtQueue × Counters} (h : Reachable s) : Tracked s.1 s.2 := by
  obtain ⟨q, n, hvalid, hused, hrun⟩ := h
  induction hrun with
  | refl => exact ⟨hused, fun h => absurd (hvalid.symm.trans h) (by decide)⟩
  | tail _ hstep ih => exact Tracked.step hstep ih

/-- The comparison in `vring_need_event` is exact for a recent index. -/
lemma needEvent_of_due {n used k : ℕ} (hlt : used < n + 2 ^ 15) (hk : n ≤ k) (hk' : k < used) :
    vringNeedEvent (BitVec.ofNat 16 k) (BitVec.ofNat 16 used) (BitVec.ofNat 16 n) = true := by
  have hsub : (BitVec.ofNat 16 used - BitVec.ofNat 16 k - 1).toNat = used - k - 1 := by
    show (BitVec.ofNat 16 used - BitVec.ofNat 16 k - BitVec.ofNat 16 1).toNat = _
    simp only [toNat_sub, toNat_ofNat]
    omega
  rw [vringNeedEvent, hsub, toNat_sub_ofNat (by omega)]
  exact decide_eq_true (by omega)

/-- **No notification is lost**: in every queue that can be reached, a notification that is due is
sent. -/
theorem notify_of_due {q : VirtQueue} {c : Counters} (h : Reachable (q, c))
    (hevent : q.eventIdx = true) (hdue : Due c q.vringUsedEvent) : q.vringNotify.1 = true := by
  rw [VirtQueue.vringNotify]
  cases hempty : q.emptyNotify with
  | true => rfl
  | false =>
    simp only [hevent, Bool.not_true, Bool.false_eq_true, if_false, Bool.or_eq_true,
      Bool.not_eq_true']
    cases hvalid : q.signalledUsedValid with
    | false => exact .inl rfl
    | true =>
      right
      obtain ⟨n, hc, hsig, -, hlt⟩ := h.tracked.recent hvalid
      obtain ⟨k, hk, hk', hek⟩ := hdue n hc
      rw [← hek, h.tracked.used, hsig]
      exact needEvent_of_due hlt hk hk'

def freshQueue : VirtQueue where
  mem := ⟨false, fun _ => 0⟩
  guestFeatures := 1#32 <<< 29
  num := 4
  num_lt := by decide
  desc := 0x1000
  avail := 0x1040
  used := 0x2000
  lastAvailIdx := 0
  signalledUsed := 0
  signalledUsedValid := false
  notification := true
  inuse := 0

/-- The guest wants to be notified about the first element, which is used after `vring_notify` has
looked at an empty ring. -/
theorem freshQueue_notified : (freshQueue.vringNotify.2.virtqueueFlush 1).vringNotify.1 = true := by
  have hreach : Reachable (freshQueue.vringNotify.2.virtqueueFlush 1, ⟨1, some 0⟩) :=
    ⟨freshQueue, 0, rfl, by decide, Relation.ReflTransGen.tail
      (Relation.ReflTransGen.single (Step.notify (c := ⟨0, none⟩))) (Step.flush 1 (by decide))⟩
  refine notify_of_due hreach (by decide) ?_
  rintro n ⟨⟩
  exact ⟨0, le_rfl, Nat.one_pos, by decide⟩

end Qemu.Virtio
