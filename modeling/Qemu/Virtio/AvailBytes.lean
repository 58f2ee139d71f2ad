import Qemu.Virtio.VirtQueue

/-!
# Counting the bytes of a virtqueue

`virtqueue_avail_bytes` walks the chains that `virtqueue_pop` is going to collect and adds up their
lengths.  Both are compared with `chain`, the indices of the descriptors of a chain.

The two functions do not walk the same chains.  `virtqueue_avail_bytes` reads the address of every
indirect table from the first descriptor of the queue, counts the descriptors of all heads together,
and does not let its index into the ring wrap at 16 bits; `virtqueue_pop` writes the event index
into the memory of the guest, where there may be descriptors.  `Countable` rules all of that out for
the elements up to the one with which the bytes are found.

**Main results:**
* `collect_eq_ok`, `scan_eq` — the two loops, along a chain.
* `Pops.heads` — what successive calls of `virtqueue_pop` collect, read from the memory before them.
* `pops_in_order` — every available head is popped once.
* **`availBytes_of_pops`** — `virtqueue_avail_bytes` answers what the lengths of the collected
  chains say, if the elements can be counted; both functions end on every queue.
-/

namespace Qemu.Virtio

open List Virtio.Memory VirtQueue

variable {m m' : Memory} {pa : BitVec 64} {max fuel i : ℕ} {is : List ℕ}

/-! ## Chains -/

/-- The descriptors of a chain. -/
def chain (m : Memory) (pa : BitVec 64) (max : ℕ) : ℕ → ℕ → Except Fatal (List ℕ)
  | 0, _ => .error .fuel
  | fuel + 1, i =>
    match m.virtqueueNextDesc pa i max with
    | .error err => .error err
    | .ok next => if next = max then .ok [i] else (chain m pa max fuel next).map (i :: ·)

lemma chain_eq_ok (h : chain m pa max (fuel + 1) i = .ok is) :
    (m.virtqueueNextDesc pa i max = .ok max ∧ is = [i]) ∨
    ∃ next rest, m.virtqueueNextDesc pa i max = .ok next ∧ next ≠ max ∧
      chain m pa max fuel next = .ok rest ∧ is = i :: rest := by
  rw [chain] at h
  split at h
  · cases h
  next next hn =>
  split_ifs at h with hmax
  · exact .inl ⟨by rw [hn, hmax], by simpa using h.symm⟩
  cases hc : chain m pa max fuel next with
  | error err => simp [hc, Except.map] at h
  | ok rest =>
    rw [hc] at h
    exact .inr ⟨next, rest, hn, hmax, hc, by simpa [Except.map] using h.symm⟩

/-- What a descriptor describes. -/
def Memory.iovec (m : Memory) (pa : BitVec 64) (i : ℕ) : Iovec :=
  ⟨m.vringDescAddr pa i, m.vringDescLen pa i⟩

def Memory.writes (m : Memory) (pa : BitVec 64) (is : List ℕ) : List Iovec :=
  (is.filter (m.isWrite pa)).map (m.iovec pa)

def Memory.reads (m : Memory) (pa : BitVec 64) (is : List ℕ) : List Iovec :=
  (is.filter fun i => !m.isWrite pa i).map (m.iovec pa)

lemma writes_cons : m.writes pa (i :: is) = m.writes pa [i] ++ m.writes pa is := by
  rw [writes, writes, writes, ← map_append, ← filter_append, singleton_append]

lemma reads_cons : m.reads pa (i :: is) = m.reads pa [i] ++ m.reads pa is := by
  rw [reads, reads, reads, ← map_append, ← filter_append, singleton_append]

variable {e : VirtQueueElement} {n : ℕ} {inBytes outBytes : BitVec 32} {q : VirtQueue}
  {mapSg : VirtQueueElement → Bool}

/-- A descriptor goes to one of the two lists of an element. -/
lemma add_eq_ok {e' : VirtQueueElement} (h : e.add (m.isWrite pa i) (m.iovec pa i) = .ok e') :
    e'.index = e.index ∧ e'.inSg = e.inSg ++ m.writes pa
      [i] ∧ e'.outSg = e.outSg ++ m.reads pa [i] := by
  rw [VirtQueueElement.add] at h
  cases hw : m.isWrite pa i <;> simp only [hw, Bool.false_eq_true, if_true, if_false] at h <;>
    split_ifs at h <;> cases h <;> simp [writes, reads, hw]

/-- **The loop of `virtqueue_pop`** collects the descriptors of a chain, at most `max` of them. -/
theorem collect_eq_ok {e' : VirtQueueElement} (h : collect m pa max fuel i e = .ok e') :
    ∃ is, chain m pa max fuel i = .ok is ∧ e'.index = e.index ∧
      e'.inSg = e.inSg ++ m.writes pa is ∧ e'.outSg = e.outSg ++ m.reads pa is ∧
      e'.inSg.length + e'.outSg.length ≤ max := by
  induction fuel generalizing i e with
  | zero => simp [collect] at h
  | succ fuel ih =>
    rw [collect] at h
    cases hadd : e.add (m.isWrite pa i) (m.iovec pa i) with
    | error err => simp [← Memory.iovec.eq_1, hadd] at h
    | ok e₁ =>
      obtain ⟨hidx, hin, hout⟩ := add_eq_ok hadd
      rw [← Memory.iovec.eq_1, hadd] at h
      simp only at h
      split_ifs at h with hlooped
      cases hn : m.virtqueueNextDesc pa i max with
      | error err => simp [hn] at h
      | ok next =>
        simp only [hn] at h
        split_ifs at h with hmax
        · obtain rfl : e₁ = e' := by simpa using h
          exact ⟨[i], by simp [chain, hn, hmax], hidx, hin, hout, by omega⟩
        obtain ⟨is, hc, hidx', hin', hout', hle⟩ := ih h
        refine ⟨i :: is, by simp [chain, hn, hmax, hc, Except.map], hidx'.trans hidx, ?_, ?_, hle⟩
        · rw [hin', hin, append_assoc, ← writes_cons]
        · rw [hout', hout, append_assoc, ← reads_cons]

def total (sg : List Iovec) : ℕ := (sg.map (·.len.toNat)).sum

def Enough (inBytes outBytes : BitVec 32) (ins outs : ℕ) : Prop :=
  (0 < inBytes.toInt ∧ inBytes.toInt ≤ ins) ∨ (0 < outBytes.toInt ∧ outBytes.toInt ≤ outs)

instance (inBytes outBytes : BitVec 32) (ins outs : ℕ) :
    Decidable (Enough inBytes outBytes ins outs) :=
  inferInstanceAs (Decidable (_ ∨ _))

/-- A total of `virtqueue_avail_bytes`, which it keeps only if it has been asked for. -/
def kept (bytes : BitVec 32) (n : ℕ) : BitVec 32 := if 0 < bytes.toInt then BitVec.ofNat 32 n else 0

lemma toInt_ofNat_of_lt (h : n < 2 ^ 31) : (BitVec.ofNat 32 n).toInt = n := by
  rw [BitVec.toInt_ofNat']
  simp only [Int.bmod_def]
  omega

variable {ins outs numBufs head idx totalBufs : ℕ} {inTotal outTotal : BitVec 32}

lemma Enough.mono {ins' outs' : ℕ} (h : Enough inBytes outBytes ins outs) (hin : ins ≤ ins')
    (hout : outs ≤ outs') : Enough inBytes outBytes ins' outs' := by
  simp only [Enough] at h ⊢
  omega

lemma total_append (sg sg' : List Iovec) : total (sg ++ sg') = total sg + total sg' := by
  simp [total]

lemma kept_add {bytes len : BitVec 32} :
    (if 0 < bytes.toInt then kept bytes n + len else kept bytes n) = kept bytes
      (n + len.toNat) := by
  rw [kept, kept]
  split_ifs
  · rw [BitVec.ofNat_add, BitVec.ofNat_toNat, BitVec.setWidth_eq]
  · rfl

/-- The test for enough bytes in one direction. -/
lemma le_kept_iff {bytes : BitVec 32} (hn : n < 2 ^ 31) :
    (0 < bytes.toInt ∧ bytes.toInt ≤ (kept bytes n).toInt) ↔ 0 < bytes.toInt ∧ bytes.toInt ≤ n :=
  and_congr_right fun h => by rw [kept, if_pos h, toInt_ofNat_of_lt hn]

/-- One descriptor in the inner loop of `virtqueue_avail_bytes`. -/
lemma scan_succ (hbufs : numBufs < max) (hin : ins + total (m.writes pa [i]) < 2 ^ 31)
    (hout : outs + total (m.reads pa [i]) < 2 ^ 31) (hnot : ¬ Enough inBytes outBytes ins outs) :
    scan m pa max inBytes outBytes (fuel + 1) i numBufs (kept inBytes ins) (kept outBytes outs) =
      if Enough inBytes outBytes (ins + total (m.writes pa [i]))
        (outs + total (m.reads pa [i])) then
        .ok .enough
      else match m.virtqueueNextDesc pa i max with
        | .error err => .error err
        | .ok next =>
          if next = max then
            .ok (.more (numBufs + 1) (kept inBytes (ins + total (m.writes pa [i])))
              (kept outBytes (outs + total (m.reads pa [i]))))
          else scan m pa max inBytes outBytes fuel next (numBufs + 1)
            (kept inBytes (ins + total (m.writes pa [i])))
            (kept outBytes (outs + total (m.reads pa [i]))) := by
  rw [scan, if_neg (by omega)]
  cases hw : m.isWrite pa i with
  | true =>
    have hwr : total (m.writes pa [i]) = (m.vringDescLen pa i).toNat := by
      simp [total, writes, hw, iovec]
    have hrd : total (m.reads pa [i]) = 0 := by simp [total, reads, hw]
    rw [hwr] at hin ⊢
    simp only [true_and, Bool.not_true, Bool.false_eq_true, false_and, or_false, if_false, kept_add,
      hrd, Nat.add_zero]
    refine if_congr ?_ rfl rfl
    rw [le_kept_iff hin]
    exact ⟨.inl, fun h => h.resolve_right fun h' => hnot (.inr h')⟩
  | false =>
    have hwr : total (m.writes pa [i]) = 0 := by simp [total, writes, hw]
    have hrd : total (m.reads pa [i]) = (m.vringDescLen pa i).toNat := by
      simp [total, reads, hw, iovec]
    rw [hrd] at hout ⊢
    simp only [true_and, Bool.not_false, Bool.false_eq_true, false_and, false_or, if_false,
      kept_add, hwr, Nat.add_zero]
    refine if_congr ?_ rfl rfl
    rw [le_kept_iff hout]
    exact ⟨.inr, fun h => h.resolve_left fun h' => hnot (.inl h')⟩

/-- The number of descriptors of a chain that are counted: up to the one with which the bytes are
found. -/
def counted (m : Memory) (pa : BitVec 64) (inBytes outBytes : BitVec 32) : ℕ → ℕ → List ℕ → ℕ
  | _, _, [] => 0
  | ins, outs, i :: is =>
    if Enough inBytes outBytes (ins + total (m.writes pa [i]))
      (outs + total (m.reads pa [i])) then 1
    else counted m pa inBytes outBytes (ins + total (m.writes pa [i]))
      (outs + total (m.reads pa [i])) is + 1

lemma counted_le_length : counted m pa inBytes outBytes ins outs is ≤ is.length := by
  induction is generalizing ins outs with
  | nil => exact le_rfl
  | cons i is ih =>
    rw [counted, length_cons]
    split_ifs
    · omega
    · exact Nat.succ_le_succ ih

lemma counted_of_not_enough (h : ¬ Enough inBytes outBytes (ins + total (m.writes pa is))
    (outs + total (m.reads pa is))) : counted m pa inBytes outBytes ins outs is = is.length := by
  induction is generalizing ins outs with
  | nil => rfl
  | cons i is ih =>
    rw [writes_cons, reads_cons, total_append, total_append, ← Nat.add_assoc, ← Nat.add_assoc] at h
    rw [counted, if_neg fun henough => h (henough.mono (Nat.le_add_right ..) (Nat.le_add_right ..)),
      ih h, length_cons]

/-- **The inner loop of `virtqueue_avail_bytes`** adds up the lengths of a chain. -/
theorem scan_eq (h : chain m pa max fuel i = .ok is)
    (hbufs : numBufs + counted m pa inBytes outBytes ins outs is ≤ max)
    (hin : ins + total (m.writes pa is) < 2 ^ 31) (hout : outs + total (m.reads pa is) < 2 ^ 31)
    (hnot : ¬ Enough inBytes outBytes ins outs) :
    scan m pa max inBytes outBytes fuel i numBufs (kept inBytes ins) (kept outBytes outs) =
      .ok (if Enough inBytes outBytes (ins + total (m.writes pa is)) (outs + total (m.reads pa is))
        then .enough else .more (numBufs + is.length) (kept inBytes (ins + total (m.writes pa is)))
          (kept outBytes (outs + total (m.reads pa is)))) := by
  induction fuel generalizing i is numBufs ins outs with
  | zero => simp [chain] at h
  | succ fuel ih =>
    rcases chain_eq_ok h with ⟨hn, rfl⟩ | ⟨next, rest, hn, hmax, hrest, rfl⟩
    · have hone : counted m pa inBytes outBytes ins outs [i] = 1 := by simp [counted]
      rw [scan_succ (by omega) hin hout hnot, hn]
      simp only [if_true, length_singleton]
      split_ifs <;> rfl
    rw [writes_cons, total_append, ← Nat.add_assoc] at hin ⊢
    rw [reads_cons, total_append, ← Nat.add_assoc] at hout ⊢
    rw [counted] at hbufs
    rw [scan_succ (by split_ifs at hbufs <;> omega) (by omega) (by omega) hnot, hn]
    by_cases henough : Enough inBytes outBytes (ins + total (m.writes pa [i]))
        (outs + total (m.reads pa [i]))
    · rw [if_pos henough, if_pos (henough.mono (Nat.le_add_right _ _) (Nat.le_add_right _ _))]
    rw [if_neg henough] at hbufs ⊢
    simp only [if_neg hmax]
    rw [ih hrest (by omega) hin hout henough, length_cons,
      show numBufs + 1 + rest.length = numBufs + (rest.length + 1) by omega]

/-! ## Memory that has not changed -/

/-- The `n` bytes from `pa` on are the same. -/
structure SameBytes (m m' : Memory) (pa : BitVec 64) (n : ℕ) : Prop where
  bigEndian : m'.bigEndian = m.bigEndian
  byte : ∀ k < n, m'.byte (pa + BitVec.ofNat 64 k) = m.byte (pa + BitVec.ofNat 64 k)

lemma add_ofNat (pa : BitVec 64) (k j : ℕ) :
    pa + BitVec.ofNat 64 k + BitVec.ofNat 64 j = pa + BitVec.ofNat 64 (k + j) := by
  rw [BitVec.add_assoc, ← BitVec.ofNat_add]

namespace SameBytes

variable {k : ℕ} (S : SameBytes m m' pa n)
include S

lemma lduw (h : k + 2 ≤ n) : m'.lduw (pa + BitVec.ofNat 64 k) = m.lduw
    (pa + BitVec.ofNat 64 k) := by
  rw [Memory.lduw, Memory.lduw, S.bigEndian, S.byte k (by omega)]
  rw [show pa + BitVec.ofNat 64 k + 1 = pa + BitVec.ofNat 64 (k + 1) from add_ofNat pa k 1,
    S.byte (k + 1) (by omega)]

lemma ldl (h : k + 4 ≤ n) : m'.ldl (pa + BitVec.ofNat 64 k) = m.ldl (pa + BitVec.ofNat 64 k) := by
  rw [Memory.ldl, Memory.ldl, S.bigEndian, S.lduw (by omega)]
  rw [show pa + BitVec.ofNat 64 k + 2 = pa + BitVec.ofNat 64 (k + 2) from add_ofNat pa k 2,
    S.lduw (by omega)]

lemma ldq (h : k + 8 ≤ n) : m'.ldq (pa + BitVec.ofNat 64 k) = m.ldq (pa + BitVec.ofNat 64 k) := by
  rw [Memory.ldq, Memory.ldq, S.bigEndian, S.ldl (by omega)]
  rw [show pa + BitVec.ofNat 64 k + 4 = pa + BitVec.ofNat 64 (k + 4) from add_ofNat pa k 4,
    S.ldl (by omega)]

end SameBytes

lemma SameBytes.desc (S : SameBytes m m' pa (16 * max)) (hi : i < max) :
    m'.vringDescAddr pa i = m.vringDescAddr pa i ∧ m'.vringDescLen pa i = m.vringDescLen pa i ∧
      m'.vringDescFlags pa i = m.vringDescFlags pa i ∧
      m'.vringDescNext pa i = m.vringDescNext pa i :=
  ⟨S.ldq (by omega), S.ldl (by omega), S.lduw (by omega), S.lduw (by omega)⟩

lemma next_lt {next : ℕ} (h : m.virtqueueNextDesc pa i max = .ok next) (hne : next ≠ max) :
    next < max := by
  rw [virtqueueNextDesc] at h
  simp only at h
  split_ifs at h with h1 h2
  · exact absurd (by simpa using h.symm) hne
  · have := Except.ok.inj h
    omega

lemma chain_lt (hi : i < max) (h : chain m pa max fuel i = .ok is) : ∀ j ∈ is, j < max := by
  induction fuel generalizing i is with
  | zero => simp [chain] at h
  | succ fuel ih =>
    rcases chain_eq_ok h with ⟨-, rfl⟩ | ⟨next, rest, hn, hmax, hrest, rfl⟩
    · simpa using hi
    · simpa [hi] using ih (next_lt hn hmax) hrest

lemma SameBytes.chain_eq (S : SameBytes m m' pa (16 * max)) (hi : i < max) :
    chain m' pa max fuel i = chain m pa max fuel i := by
  induction fuel generalizing i with
  | zero => rfl
  | succ fuel ih =>
    obtain ⟨-, -, hflags, hnext⟩ := S.desc hi
    have hn : m'.virtqueueNextDesc pa i max = m.virtqueueNextDesc pa i max := by
      rw [virtqueueNextDesc, virtqueueNextDesc, hasNext, hasNext, hflags, hnext]
    rw [chain, chain, hn]
    cases h : m.virtqueueNextDesc pa i max with
    | error err => rfl
    | ok next =>
      by_cases hmax : next = max
      · simp [hmax]
      · simp [hmax, ih (next_lt h hmax)]

lemma SameBytes.writes_eq (S : SameBytes m m' pa (16 * max)) (h : ∀ j ∈ is, j < max) :
    m'.writes pa is = m.writes pa is ∧ m'.reads pa is = m.reads pa is := by
  have hw : ∀ j ∈ is, m'.isWrite pa j = m.isWrite pa j := fun j hj => by
    rw [isWrite, isWrite, (S.desc (h j hj)).2.2.1]
  have hsg : ∀ j ∈ is, m'.iovec pa j = m.iovec pa j := fun j hj => by
    rw [iovec, iovec, (S.desc (h j hj)).1, (S.desc (h j hj)).2.1]
  constructor
  · rw [writes, writes, filter_congr hw]
    exact map_congr_left fun j hj => hsg j (mem_of_mem_filter hj)
  · rw [reads, reads, filter_congr fun j hj => by rw [hw j hj]]
    exact map_congr_left fun j hj => hsg j (mem_of_mem_filter hj)

/-! ## What successive calls of `virtqueue_pop` collect -/

/-- The table of a head's chain, its number of descriptors and the first of the chain. -/
def Memory.table (m : Memory) (desc : BitVec 64) (num head : ℕ) : BitVec 64 × ℕ × ℕ :=
  if m.isIndirect desc head then
    (m.vringDescAddr desc head, (m.vringDescLen desc head).toNat / 16, 0)
  else (desc, num, head)

def Collected (m : Memory) (desc : BitVec 64) (num : ℕ) (e : VirtQueueElement) : Prop :=
  (m.isIndirect desc e.index = true → (m.vringDescLen desc e.index).toNat % 16 = 0) ∧
  ∃ is, chain m (m.table desc num e.index).1 (m.table desc num e.index).2.1
      ((m.table desc num e.index).2.1 + 1) (m.table desc num e.index).2.2 = .ok is ∧
    is.length ≤ (m.table desc num e.index).2.1 ∧
    e.inSg = m.writes (m.table desc num e.index).1 is ∧
    e.outSg = m.reads (m.table desc num e.index).1 is

lemma length_writes_add_reads : (m.writes pa is).length + (m.reads pa is).length = is.length := by
  rw [writes, reads, length_map, length_map, ← length_eq_length_filter_add]

/-- What `virtqueue_pop` has done if it has returned an element. -/
structure Popped (q : VirtQueue) (e : VirtQueueElement) (q' : VirtQueue) : Prop where
  heads : ∃ n, q.virtqueueNumHeads q.lastAvailIdx.toNat = .ok (n + 1)
  head : q.virtqueueGetHead q.lastAvailIdx.toNat = .ok e.index
  eq : q' = { q with
    lastAvailIdx := q.lastAvailIdx + 1, mem := q.published, inuse := q.inuse + 1 }
  collected : Collected q.published q.desc q.num e

lemma collectHead_eq_ok (h : q.collectHead head = .ok e) :
    e.index = head ∧ Collected q.mem q.desc q.num e := by
  rw [collectHead] at h
  simp only at h
  split_ifs at h with hind hlen
  all_goals
    obtain ⟨is, hc, hidx, hin, hout, hle⟩ := collect_eq_ok h
    simp only [nil_append] at hin hout hidx
    rw [hin, hout, length_writes_add_reads] at hle
    subst hidx
    refine ⟨rfl, ?_, is, ?_⟩
  · exact fun _ => not_not.mp hlen
  · simpa only [table, if_pos hind] using ⟨hc, hle, hin, hout⟩
  · exact fun h => absurd h hind
  · simpa only [table, if_neg hind] using ⟨hc, hle, hin, hout⟩

/-- What `virtqueue_pop` has found if it has returned. -/
lemma pop_spec {found : Option VirtQueueElement} {q' : VirtQueue}
    (h : q.virtqueuePop mapSg = .ok (found, q')) :
    match found with
    | none => q.virtqueueNumHeads q.lastAvailIdx.toNat = .ok 0
    | some e => Popped q e q' := by
  rw [virtqueuePop] at h
  split at h
  · cases h
  · next hheads =>
    cases h
    exact hheads
  · next heads hne hheads =>
    obtain ⟨n, rfl⟩ := Nat.exists_eq_succ_of_ne_zero hne
    split at h
    · cases h
    next head hhead =>
    simp only at h
    split at h
    · cases h
    next e₁ hcol =>
    split_ifs at h
    cases h
    obtain ⟨hidx, hc⟩ := collectHead_eq_ok hcol
    exact ⟨⟨n, hheads⟩, by rw [hidx, hhead], rfl, hc⟩

/-- Successive calls of `virtqueue_pop` collect the elements, and then there are no more. -/
inductive Pops (mapSg : VirtQueueElement → Bool) : VirtQueue → List VirtQueueElement → Prop
  | nil {q : VirtQueue} (h : q.virtqueuePop mapSg = .ok (none, q)) : Pops mapSg q []
  | cons {q q' : VirtQueue} {e : VirtQueueElement} {es : List VirtQueueElement}
      (h : q.virtqueuePop mapSg = .ok (some e, q')) (hs : Pops mapSg q' es) : Pops mapSg q (e :: es)

/-! ## Elements that can be counted -/

/-- The event index is not among the `n` bytes from `pa` on. -/
def VirtQueue.Clear (q : VirtQueue) (pa : BitVec 64) (n : ℕ) : Prop :=
  q.eventIdx = true → q.notification = true →
    ∀ k < n, pa + BitVec.ofNat 64 k ≠ q.eventAddr ∧ pa + BitVec.ofNat 64 k ≠ q.eventAddr + 1

/-- The event index is not in the available ring. -/
def VirtQueue.RingClear (q : VirtQueue) : Prop := q.Clear q.avail (4 + 2 * q.num)

/-- The number of buffers that `virtqueue_avail_bytes` counts for an element, with these totals
before it. -/
def VirtQueue.bufs (q : VirtQueue) (inBytes outBytes : BitVec 32) (ins outs : ℕ)
    (e : VirtQueueElement) : ℕ :=
  if q.mem.isIndirect q.desc e.index then 1
  else match chain q.mem q.desc q.num (q.num + 1) e.index with
    | .ok is => counted q.mem q.desc inBytes outBytes ins outs is
    | .error _ => 0

/-- The element at the index `idx` can be counted in the memory of the queue. -/
structure VirtQueue.CountableAt (q : VirtQueue) (idx bufs : ℕ) (e : VirtQueueElement) : Prop where
  /-- An indirect table is where the first descriptor of the queue says. -/
  first : q.mem.isIndirect q.desc e.index = true →
    q.mem.vringDescAddr q.desc e.index = q.mem.vringDescAddr q.desc 0
  /-- There are no more buffers than descriptors. -/
  bufs : bufs ≤ q.num
  /-- The index into the ring has not wrapped, or wraps to the start of the ring. -/
  wrap : q.num ∣ 2 ^ 16 ∨ idx < 2 ^ 16
  /-- The event index that `virtqueue_pop` publishes is outside of the indirect table. -/
  event : q.mem.isIndirect q.desc e.index = true →
    q.Clear (q.mem.vringDescAddr q.desc e.index) (q.mem.vringDescLen q.desc e.index).toNat

/-- The elements up to the one with which the bytes are found can be counted. -/
def VirtQueue.Countable (q : VirtQueue) (inBytes outBytes : BitVec 32) :
    (idx bufs ins outs : ℕ) → List VirtQueueElement → Prop
  | _, _, _, _, [] => True
  | idx, bufs, ins, outs, e :: es =>
    q.CountableAt idx (bufs + q.bufs inBytes outBytes ins outs e) e ∧
      (¬ Enough inBytes outBytes (ins + total e.inSg) (outs + total e.outSg) →
        q.Countable inBytes outBytes (idx + 1) (bufs + q.bufs inBytes outBytes ins outs e)
          (ins + total e.inSg) (outs + total e.outSg) es)

/-- The queue `q'` differs from `q` at most in the event index and in what `virtqueue_pop`
counts. -/
structure Near (q q' : VirtQueue) : Prop where
  num : q'.num = q.num
  desc : q'.desc = q.desc
  avail : q'.avail = q.avail
  used : q'.used = q.used
  guestFeatures : q'.guestFeatures = q.guestFeatures
  notification : q'.notification = q.notification
  bigEndian : q'.mem.bigEndian = q.mem.bigEndian
  byte : ∀ a, q'.mem.byte a = q.mem.byte a ∨
    q.eventIdx = true ∧ q.notification = true ∧ (a = q.eventAddr ∨ a = q.eventAddr + 1)

section Near

variable {q' : VirtQueue} {es : List VirtQueueElement}

lemma Near.refl (q : VirtQueue) : Near q q := ⟨rfl, rfl, rfl, rfl, rfl, rfl, rfl, fun _ => .inl rfl⟩

lemma Near.same {pa : BitVec 64} (N : Near q q') (h : q.Clear pa n) :
    SameBytes q.mem q'.mem pa n := by
  refine ⟨N.bigEndian, fun k hk => ?_⟩
  rcases N.byte (pa + BitVec.ofNat 64 k) with heq | ⟨h1, h2, h3⟩
  · exact heq
  · obtain ⟨hne, hne'⟩ := h h1 h2 k hk
    exact absurd h3 (not_or.mpr ⟨hne, hne'⟩)

lemma byte_stw_of_ne {pa a : BitVec 64} {v : BitVec 16} (h : a ≠ pa) (h' : a ≠ pa + 1) :
    (m.stw pa v).byte a = m.byte a := by
  simp only [stw]
  split_ifs <;> rw [Function.update_of_ne h', Function.update_of_ne h]

/-- `virtqueue_pop` changes the event index at most. -/
lemma Near.pop (N : Near q q') : Near q { q' with
    lastAvailIdx := q'.lastAvailIdx + 1, mem := q'.published, inuse := q'.inuse + 1 } := by
  refine ⟨N.num, N.desc, N.avail, N.used, N.guestFeatures, N.notification, ?_, fun a => ?_⟩
  · rw [← N.bigEndian]
    rw [published, vringAvailEvent]
    split_ifs <;> rfl
  rw [published, vringAvailEvent]
  split_ifs with h1 h2
  · have haddr : q'.eventAddr = q.eventAddr := by
      rw [eventAddr, eventAddr, N.used, N.num]
    by_cases ha : a = q.eventAddr ∨ a = q.eventAddr + 1
    · rw [eventIdx, N.guestFeatures] at h1
      rw [N.notification] at h2
      exact .inr ⟨h1, h2, ha⟩
    · rw [not_or, ← haddr] at ha
      rw [byte_stw_of_ne ha.1 ha.2]
      exact N.byte a
  · exact N.byte a
  · exact N.byte a

lemma Near.numHeads (N : Near q q') (hring : q.RingClear) (idx : ℕ) :
    q'.virtqueueNumHeads idx = q.virtqueueNumHeads idx := by
  have hidx : q'.vringAvailIdx = q.vringAvailIdx := by
    rw [vringAvailIdx, vringAvailIdx, N.avail]
    exact (N.same hring).lduw (k := 2) (by omega)
  rw [virtqueueNumHeads, virtqueueNumHeads, hidx, N.num]

lemma getHead_lt (h : q.virtqueueGetHead idx = .ok head) : head < q.num := by
  rw [virtqueueGetHead] at h
  split_ifs at h with hlt
  have := Except.ok.inj h
  omega

lemma Near.getHead (N : Near q q') (hring : q.RingClear) (h : q'.virtqueueGetHead idx = .ok head) :
    q.virtqueueGetHead idx = .ok head := by
  have hpos : 0 < q.num := N.num ▸ Nat.zero_lt_of_lt (getHead_lt h)
  have hsame : q'.vringAvailRing (idx % q.num) = q.vringAvailRing (idx % q.num) := by
    have := Nat.mod_lt idx hpos
    rw [vringAvailRing, vringAvailRing, N.avail]
    exact (N.same hring).lduw (by omega)
  rw [virtqueueGetHead, N.num, hsame] at h
  exact h

lemma Near.collected (N : Near q q') (hclear : q.Clear q.desc (16 * q.num))
    (C : q.CountableAt idx n e) (hlt : e.index < q.num) (h : Collected q'.mem q.desc q.num e) :
    Collected q.mem q.desc q.num e := by
  obtain ⟨haddr, hlen, hflags, -⟩ := (N.same hclear).desc hlt
  have hind : q'.mem.isIndirect q.desc e.index = q.mem.isIndirect q.desc e.index := by
    rw [isIndirect, isIndirect, hflags]
  have htable : q'.mem.table q.desc q.num e.index = q.mem.table q.desc q.num e.index := by
    rw [table, table, hind, haddr, hlen]
  obtain ⟨hsize, is, hc, hle, hin, hout⟩ := h
  rw [hind, hlen] at hsize
  rw [htable] at hc hle hin hout
  have hfirst : (q.mem.table q.desc q.num e.index).2.2 <
      (q.mem.table q.desc q.num e.index).2.1 := by
    cases is with
    | nil =>
      rcases chain_eq_ok hc with ⟨-, h⟩ | ⟨_, _, _, _, _, h⟩ <;> cases h
    | cons j js =>
      rw [table] at hle ⊢
      split_ifs with hi
      · simp only [hi, if_true, length_cons] at hle ⊢
        omega
      · exact hlt
  have hsame : SameBytes q.mem q'.mem (q.mem.table q.desc q.num e.index).1
      (16 * (q.mem.table q.desc q.num e.index).2.1) := by
    refine N.same ?_
    rw [table]
    split_ifs with hi
    · simp only
      rw [Nat.mul_div_cancel' (Nat.dvd_of_mod_eq_zero (hsize hi))]
      exact C.event hi
    · exact hclear
  rw [hsame.chain_eq hfirst] at hc
  obtain ⟨hwr, hrd⟩ := hsame.writes_eq (chain_lt hfirst hc)
  exact ⟨hsize, is, hc, hle, hin.trans hwr, hout.trans hrd⟩

/-- The chain of one head, for an element that has been collected. -/
lemma scanHead_eq (h : Collected q.mem q.desc q.num e)
    (C : q.CountableAt idx (totalBufs + q.bufs inBytes outBytes ins outs e) e)
    (hin : ins + total e.inSg < 2 ^ 31) (hout : outs + total e.outSg < 2 ^ 31)
    (hnot : ¬ Enough inBytes outBytes ins outs) :
    q.scanHead inBytes outBytes e.index totalBufs (kept inBytes ins) (kept outBytes outs) =
      .ok (if Enough inBytes outBytes (ins + total e.inSg) (outs + total e.outSg) then .enough
        else .more (totalBufs + q.bufs inBytes outBytes ins outs e)
          (kept inBytes (ins + total e.inSg)) (kept outBytes (outs + total e.outSg))) := by
  obtain ⟨hsize, is, hc, hle, hi, ho⟩ := h
  have hbufs := C.bufs
  rw [bufs] at hbufs ⊢
  rw [scanHead]
  by_cases hind : q.mem.isIndirect q.desc e.index = true
  · simp only [table, hind, if_true] at hc hle hi ho hbufs ⊢
    rw [hi] at hin ⊢
    rw [ho] at hout ⊢
    rw [if_neg (not_not.mpr (hsize hind)), if_neg (by omega), ← C.first hind,
      scan_eq hc (by rw [Nat.zero_add]; exact counted_le_length.trans hle) hin hout hnot]
    split_ifs <;> rfl
  · simp only [table, hind, Bool.false_eq_true, if_false] at hc hle hi ho hbufs ⊢
    rw [hi] at hin ⊢
    rw [ho] at hout ⊢
    simp only [hc] at hbufs ⊢
    refine (scan_eq hc hbufs hin hout hnot).trans
      (congrArg _ (ite_congr rfl (fun _ => rfl) fun h => ?_))
    rw [counted_of_not_enough h]

end Near

/-! ## Both functions end -/

lemma error_ne_fuel {α β : Type} {x : Except Fatal α} {err : Fatal} (h : x = .error err)
    (hx : x ≠ .error .fuel) : (Except.error err : Except Fatal β) ≠ .error .fuel := by
  rintro ⟨⟩
  exact hx h

lemma nextDesc_ne_fuel : m.virtqueueNextDesc pa i max ≠ .error .fuel := by
  rw [virtqueueNextDesc]
  simp only
  split_ifs <;> simp

lemma add_ne_fuel {write : Bool} {sg : Iovec} : e.add write sg ≠ .error .fuel := by
  rw [VirtQueueElement.add]
  split_ifs <;> simp

/-- The loop of `virtqueue_pop` ends, as it collects at most `max` descriptors. -/
lemma collect_ne_fuel (hle : e.inSg.length + e.outSg.length ≤ max)
    (h : max < e.inSg.length + e.outSg.length + fuel) :
    collect m pa max fuel i e ≠ .error .fuel := by
  induction fuel generalizing i e with
  | zero => omega
  | succ fuel ih =>
    rw [collect, ← Memory.iovec.eq_1]
    cases hadd : e.add (m.isWrite pa i) (m.iovec pa i) with
    | error err => exact error_ne_fuel hadd add_ne_fuel
    | ok e₁ =>
      obtain ⟨-, hin, hout⟩ := add_eq_ok hadd
      have hlen : e₁.inSg.length + e₁.outSg.length = e.inSg.length + e.outSg.length + 1 := by
        have : (m.writes pa [i]).length + (m.reads pa [i]).length = [i].length :=
          length_writes_add_reads
        rw [hin, hout, length_append, length_append]
        simp only [length_singleton] at this
        omega
      simp only
      split_ifs with hlooped
      · simp
      cases hn : m.virtqueueNextDesc pa i max with
      | error err => exact error_ne_fuel hn nextDesc_ne_fuel
      | ok next =>
        simp only
        split_ifs
        · simp
        · exact ih (by omega) (by omega)

lemma collectHead_ne_fuel : q.collectHead head ≠ .error .fuel := by
  rw [collectHead]
  simp only
  split_ifs
  · simp
  · exact collect_ne_fuel (Nat.zero_le _) (by simp)
  · exact collect_ne_fuel (Nat.zero_le _) (by simp)

lemma numHeads_ne_fuel : q.virtqueueNumHeads idx ≠ .error .fuel := by
  rw [virtqueueNumHeads]
  split_ifs <;> simp

lemma getHead_ne_fuel : q.virtqueueGetHead idx ≠ .error .fuel := by
  rw [virtqueueGetHead]
  split_ifs <;> simp

lemma pop_ne_fuel : q.virtqueuePop mapSg ≠ .error .fuel := by
  rw [virtqueuePop]
  split
  · next err h => exact error_ne_fuel h numHeads_ne_fuel
  · simp
  · split
    · next err h => exact error_ne_fuel h getHead_ne_fuel
    simp only
    split
    · next err h => exact error_ne_fuel h collectHead_ne_fuel
    · split_ifs <;> simp

lemma scan_ne_fuel (hpos : 0 < fuel) (h : max < numBufs + fuel) :
    scan m pa max inBytes outBytes fuel i numBufs inTotal outTotal ≠ .error .fuel := by
  induction fuel generalizing i numBufs inTotal outTotal with
  | zero => omega
  | succ fuel ih =>
    rw [scan]
    extract_lets len write inTotal' outTotal'
    by_cases hlooped : max < numBufs + 1
    · simp [hlooped]
    rw [if_neg hlooped]
    split
    · simp
    cases hn : m.virtqueueNextDesc pa i max with
    | error err => exact error_ne_fuel hn nextDesc_ne_fuel
    | ok next =>
      simp only
      split_ifs
      · simp
      · exact ih (by omega) (by omega)

lemma scanHead_ne_fuel : q.scanHead inBytes outBytes head totalBufs inTotal outTotal ≠
    .error .fuel := by
  rw [scanHead]
  simp only
  split_ifs
  · simp
  · simp
  · split
    · simp
    · exact scan_ne_fuel (Nat.succ_pos _) (by omega)
  · exact scan_ne_fuel (Nat.succ_pos _) (by omega)

def totals (es : List VirtQueueElement) : ℕ × ℕ :=
  ((es.map (total ·.inSg)).sum, (es.map (total ·.outSg)).sum)

section Main

variable {q' : VirtQueue} {es rest : List VirtQueueElement}

/-- The number of heads goes down with every head. -/
lemma numHeads_succ (h : q.virtqueueNumHeads idx = .ok (n + 1)) :
    q.virtqueueNumHeads (idx + 1) = .ok n := by
  rw [virtqueueNumHeads] at h ⊢
  split_ifs at h with hlt
  have hn : (q.vringAvailIdx - BitVec.ofNat 16 idx).toNat = n + 1 := by simpa using h
  have hsub : (q.vringAvailIdx - BitVec.ofNat 16 (idx + 1)).toNat = n := by
    rw [BitVec.toNat_sub, BitVec.toNat_ofNat] at hn ⊢
    omega
  rw [hsub, if_neg (by omega)]

lemma scanHeads_ne_fuel (hfuel : ∀ n, q.virtqueueNumHeads idx = .ok n → n < fuel)
    (hpos : 0 < fuel) :
    q.scanHeads inBytes outBytes fuel idx totalBufs inTotal outTotal ≠ .error .fuel := by
  induction fuel generalizing idx totalBufs inTotal outTotal with
  | zero => omega
  | succ fuel ih =>
    rw [scanHeads]
    cases hheads : q.virtqueueNumHeads idx with
    | error err => exact error_ne_fuel hheads numHeads_ne_fuel
    | ok heads =>
      cases heads with
      | zero => simp
      | succ n =>
        have hlt := hfuel (n + 1) hheads
        simp only
        split
        · next err h => exact error_ne_fuel h getHead_ne_fuel
        split
        · next err h => exact error_ne_fuel h scanHead_ne_fuel
        · simp
        · refine ih (fun k hk => ?_) (by omega)
          rw [numHeads_succ hheads] at hk
          cases hk
          omega

lemma numHeads_lt (h : q.virtqueueNumHeads idx = .ok n) : n < 2 ^ 16 := by
  rw [virtqueueNumHeads] at h
  split_ifs at h
  have hn : (q.vringAvailIdx - BitVec.ofNat 16 idx).toNat = n := by simpa using h
  rw [← hn]
  exact BitVec.isLt _

lemma availBytes_ne_fuel : q.virtqueueAvailBytes inBytes outBytes ≠ .error .fuel :=
  scanHeads_ne_fuel (fun _ h => numHeads_lt h) (by decide)

/-- An index that has not been cut to 16 bits finds the same head. -/
lemma getHead_congr (h : q.num ∣ 2 ^ 16 ∨ idx < 2 ^ 16) :
    q.virtqueueGetHead (BitVec.ofNat 16 idx).toNat = q.virtqueueGetHead idx := by
  have hmod : (BitVec.ofNat 16 idx).toNat % q.num = idx % q.num := by
    rw [BitVec.toNat_ofNat]
    rcases h with h | h
    · exact Nat.mod_mod_of_dvd idx h
    · rw [Nat.mod_eq_of_lt h]
  rw [virtqueueGetHead, hmod]
  rfl

lemma numHeads_congr : q.virtqueueNumHeads
    (BitVec.ofNat 16 idx).toNat = q.virtqueueNumHeads idx := by
  rw [virtqueueNumHeads, BitVec.ofNat_toNat, BitVec.setWidth_eq]
  rfl

/-- **The outer loop of `virtqueue_avail_bytes`**, for the elements that calls of `virtqueue_pop`
collect later. -/
theorem scanHeads_eq (hclear : q.Clear q.desc (16 * q.num)) (hring : q.RingClear)
    (P : Pops mapSg q' rest) (N : Near q q') (hidx : q'.lastAvailIdx = BitVec.ofNat 16 idx)
    (hfuel : ∀ n, q.virtqueueNumHeads idx = .ok n → n < fuel)
    (C : q.Countable inBytes outBytes idx totalBufs ins outs rest)
    (hin : ins + (totals rest).1 < 2 ^ 31) (hout : outs + (totals rest).2 < 2 ^ 31)
    (hnot : ¬ Enough inBytes outBytes ins outs) :
    q.scanHeads inBytes outBytes fuel idx totalBufs (kept inBytes ins) (kept outBytes outs) =
      .ok (decide (Enough inBytes outBytes (ins + (totals rest).1) (outs + (totals rest).2))) := by
  induction P generalizing idx totalBufs ins outs fuel with
  | @nil q' h =>
    have hheads : q.virtqueueNumHeads idx = .ok 0 := by
      rw [← numHeads_congr, ← hidx, ← N.numHeads hring]
      exact pop_spec h
    obtain ⟨n, rfl⟩ := Nat.exists_eq_succ_of_ne_zero (hfuel 0 hheads).ne'
    rw [scanHeads, hheads]
    simpa [totals] using hnot
  | @cons q' q'' e rest h hs ih =>
    have P : Popped q' e q'' := pop_spec h
    obtain ⟨n, hheads⟩ := P.heads
    obtain ⟨Chere, Clater⟩ := C
    rw [N.numHeads hring, hidx, numHeads_congr] at hheads
    have hhead : q.virtqueueGetHead idx = .ok e.index := by
      rw [← getHead_congr Chere.wrap, ← hidx]
      exact N.getHead hring P.head
    obtain ⟨k, rfl⟩ := Nat.exists_eq_succ_of_ne_zero (Nat.zero_lt_of_lt (hfuel _ hheads)).ne'
    have N' : Near q q'' := P.eq ▸ N.pop
    have hcol : Collected q.mem q.desc q.num e := by
      refine N'.collected hclear Chere (getHead_lt hhead) ?_
      have := P.collected
      rw [N.desc, N.num] at this
      rw [P.eq]
      exact this
    have htotals : totals (e :: rest) =
        (total e.inSg + (totals rest).1, total e.outSg + (totals rest).2) := by
      simp [totals]
    rw [htotals] at hin hout ⊢
    rw [scanHeads, hheads]
    simp only [hhead] at hin hout ⊢
    rw [scanHead_eq hcol Chere (by omega) (by omega) hnot]
    by_cases henough : Enough inBytes outBytes (ins + total e.inSg) (outs + total e.outSg)
    · simp only [if_pos henough]
      rw [decide_eq_true (henough.mono (by omega) (by omega))]
    simp only [if_neg henough]
    rw [ih N' ?_ ?_ (Clater henough) (by omega) (by omega) henough, Nat.add_assoc, Nat.add_assoc]
    · rw [P.eq]
      rw [hidx, BitVec.ofNat_add]
      rfl
    · intro j hj
      rw [numHeads_succ hheads] at hj
      cases hj
      have := hfuel _ hheads
      omega

/-- **`virtqueue_avail_bytes` answers what `virtqueue_pop` is going to collect**, if the elements up
to the one with which the bytes are found can be counted, the event index is outside of the
descriptor table and the ring, and the totals are `int`s; both functions end on every queue. -/
theorem availBytes_of_pops (mapSg : VirtQueueElement → Bool) (q : VirtQueue)
    (inBytes outBytes : BitVec 32) :
    q.virtqueuePop mapSg ≠ .error .fuel ∧ q.virtqueueAvailBytes inBytes outBytes ≠ .error .fuel ∧
    ∀ es, Pops mapSg q es → (totals es).1 < 2 ^ 31 → (totals es).2 < 2 ^ 31 →
      q.Clear q.desc (16 * q.num) → q.RingClear →
      q.Countable inBytes outBytes q.lastAvailIdx.toNat 0 0 0 es →
      q.virtqueueAvailBytes inBytes outBytes =
        .ok (decide (Enough inBytes outBytes (totals es).1 (totals es).2)) := by
  refine ⟨pop_ne_fuel, availBytes_ne_fuel, fun es P hin hout hclear hring C => ?_⟩
  have hnot : ¬ Enough inBytes outBytes 0 0 := by
    rw [Enough]
    omega
  have hkept : ∀ bytes, kept bytes 0 = 0 := fun bytes => by
    rw [kept]
    split_ifs <;> rfl
  have h := scanHeads_eq hclear hring P (Near.refl q)
    (by rw [BitVec.ofNat_toNat, BitVec.setWidth_eq]) (fun _ h => numHeads_lt h) C
    (show 0 + (totals es).1 < 2 ^ 31 from (Nat.zero_add _).trans_lt hin)
      ((Nat.zero_add _).trans_lt hout)
    hnot
  rwa [Nat.zero_add, Nat.zero_add, hkept, hkept] at h

end Main

/-! ## An indirect table of another head -/

/-- Memory that has the bytes of a list from `0x1000` on. -/
def Memory.ofList (bytes : List (BitVec 8)) :
    Memory := ⟨false, fun a => bytes.getD (a - 0x1000).toNat 0⟩

/-- A queue with two descriptors.  The second has an indirect table, of one descriptor that the
device may write 512 bytes to. -/
def tableQueue : VirtQueue where
  mem := .ofList ([0, 0x10, 0, 0, 0, 0, 0, 0, 16, 0, 0, 0, 4, 0, 0, 0] ++   -- the first descriptor
     [0x40, 0x10, 0, 0, 0, 0, 0, 0, 16, 0, 0, 0, 4, 0, 0, 0] ++    -- the second one
     [0, 0, 1, 0, 1, 0, 0, 0, 0, 0, 0, 0, 0, 0, 0, 0] ++           -- the ring of heads
     [0, 0, 0, 0, 0, 0, 0, 0, 0, 0, 0, 0, 0, 0, 0, 0] ++
     [0, 0x20, 0, 0, 0, 0, 0, 0, 0, 2, 0, 0, 2, 0, 0, 0])          -- the indirect table
  guestFeatures := 0
  num := 2
  num_lt := by decide
  desc := 0x1000
  avail := 0x1020
  used := 0x2000
  lastAvailIdx := 0
  signalledUsed := 0
  signalledUsedValid := false
  notification := true
  inuse := 0

/-- What `virtqueue_pop` collects from it. -/
def tableElement (head : ℕ) : VirtQueueElement := ⟨head, [⟨0x2000, 512⟩], []⟩

lemma pop_of_parts (hheads : q.virtqueueNumHeads q.lastAvailIdx.toNat = .ok (n + 1))
    (hhead : q.virtqueueGetHead q.lastAvailIdx.toNat = .ok e.index)
    (he : collectHead { q with
      lastAvailIdx := q.lastAvailIdx + 1, mem := q.published } e.index = .ok e)
    (hmap : mapSg e = true) : q.virtqueuePop mapSg = .ok (some e, { q with
      lastAvailIdx := q.lastAvailIdx + 1, mem := q.published, inuse := q.inuse + 1 }) := by
  rw [virtqueuePop, hheads]
  simp only [hhead]
  rw [he]
  exact if_pos hmap

lemma pop_of_empty (h : q.virtqueueNumHeads q.lastAvailIdx.toNat = .ok 0) :
    q.virtqueuePop mapSg = .ok (none, q) := by
  rw [virtqueuePop, h]
  rfl

lemma pops_tableQueue : Pops (fun _ => true) tableQueue [tableElement 1] := by
  refine .cons (pop_of_parts (n := 0) ?_ ?_ ?_ rfl) (.nil (pop_of_empty ?_))
  all_goals decide +kernel

/-- A queue with two heads.  The first one is a direct chain with 512 bytes for the device; the
second one has an indirect table, and would not be counted. -/
def directQueue (guestFeatures : BitVec 32) : VirtQueue :=
  { tableQueue with
    guestFeatures
    mem := .ofList ([0, 0x20, 0, 0, 0, 0, 0, 0, 0, 2, 0, 0, 2, 0, 0, 0] ++
      [0x40, 0x10, 0, 0, 0, 0, 0, 0, 16, 0, 0, 0, 4, 0, 0, 0] ++
      [0, 0, 2, 0, 0, 0, 1, 0, 0, 0, 0, 0, 0, 0, 0, 0] ++
      [0, 0, 0, 0, 0, 0, 0, 0, 0, 0, 0, 0, 0, 0, 0, 0] ++
      [0, 0x20, 0, 0, 0, 0, 0, 0, 0, 2, 0, 0, 2, 0, 0, 0]) }

lemma pops_directQueue {guestFeatures : BitVec 32}
    (h : guestFeatures = 0 ∨ guestFeatures = 1 <<< 29) :
    Pops (fun _ => true) (directQueue guestFeatures) [tableElement 0, tableElement 1] := by
  refine .cons (pop_of_parts (n := 1) ?_ ?_ ?_ rfl)
    (.cons (pop_of_parts (n := 0) ?_ ?_ ?_ rfl) (.nil (pop_of_empty ?_)))
  all_goals rcases h with rfl | rfl <;> decide +kernel

/-- The bytes are found in the first chain, before the second head is looked at. -/
theorem directQueue_counted : (directQueue 0).virtqueueAvailBytes 512 0 = .ok true := by
  have C : (directQueue 0).Countable 512 0 0 0 0 0 [tableElement 0, tableElement 1] :=
    ⟨⟨fun h => absurd h (by decide +kernel), by decide +kernel, .inl (by decide),
      fun h => absurd h (by decide +kernel)⟩, fun h => absurd (.inl (by decide)) h⟩
  rw [(availBytes_of_pops (fun _ => true) (directQueue 0) 512 0).2.2 _ (pops_directQueue (.inl rfl))
    (by decide) (by decide) (fun h => absurd h (by decide)) (fun h => absurd h (by decide)) C]
  exact congrArg Except.ok (decide_eq_true (.inl (by decide)))

/-- **A queue that is not counted**: `virtqueue_pop` collects 512 bytes that the device may write
to; `virtqueue_avail_bytes` reads the address of the table from the first descriptor, and finds no
byte. -/
theorem tableQueue_not_counted : ¬ ∀ (mapSg : VirtQueueElement → Bool) (q : VirtQueue)
    (es : List VirtQueueElement) (inBytes outBytes : BitVec 32), Pops mapSg q es →
    (totals es).1 < 2 ^ 31 → (totals es).2 < 2 ^ 31 →
    (q.virtqueueAvailBytes inBytes outBytes = .ok true ↔
      Enough inBytes outBytes (totals es).1 (totals es).2) := by
  intro h
  have hfalse : tableQueue.virtqueueAvailBytes 1 0 = .ok false := by decide +kernel
  have htrue := (h (fun _ => true) tableQueue [tableElement 1] 1 0 pops_tableQueue (by decide)
    (by decide)).mpr (.inl (by decide))
  rw [hfalse] at htrue
  cases htrue

lemma Near.pops (hring : q.RingClear) (N : Near q q') (P : Pops mapSg q' es)
    (hidx : q'.lastAvailIdx = BitVec.ofNat 16 idx)
    (hwrap : q.num ∣ 2 ^ 16 ∨ idx + es.length ≤ 2 ^ 16) :
    q.virtqueueNumHeads idx = .ok es.length ∧
      ∀ k e, es[k]? = some e → q.virtqueueGetHead (idx + k) = .ok e.index := by
  induction P generalizing idx with
  | @nil q' h =>
    refine ⟨?_, by simp⟩
    rw [← numHeads_congr, ← hidx, ← N.numHeads hring]
    exact pop_spec h
  | @cons q' q'' e es h hs ih =>
    have P : Popped q' e q'' := pop_spec h
    rw [length_cons] at hwrap
    obtain ⟨n, hheads⟩ := P.heads
    rw [N.numHeads hring, hidx, numHeads_congr] at hheads
    have hidx' : q''.lastAvailIdx = BitVec.ofNat 16 (idx + 1) := by
      rw [P.eq, BitVec.ofNat_add, ← hidx]
      rfl
    obtain ⟨hrest, hget⟩ := ih (P.eq ▸ N.pop) hidx' (hwrap.imp_right fun h => by omega)
    have hn : n = es.length := Except.ok.inj ((numHeads_succ hheads).symm.trans hrest)
    refine ⟨by rw [hheads, hn, length_cons], fun k e' hk => ?_⟩
    cases k with
    | zero =>
      rw [← Option.some.inj hk, add_zero,
        ← getHead_congr (hwrap.imp_right fun h => by omega), ← hidx]
      exact N.getHead hring P.head
    | succ k =>
      rw [← add_assoc, add_right_comm]
      exact hget k e' hk

/-- **Every head that the guest has made available is popped once, in the order of the ring**, if
the event index that `virtqueue_pop` publishes is outside of what it reads. -/
theorem pops_in_order (hring : q.RingClear) (P : Pops mapSg q es)
    (hwrap : q.num ∣ 2 ^ 16 ∨ q.lastAvailIdx.toNat + es.length ≤ 2 ^ 16) :
    q.virtqueueNumHeads q.lastAvailIdx.toNat = .ok es.length ∧
      ∀ k e, es[k]? = some e → q.virtqueueGetHead (q.lastAvailIdx.toNat + k) = .ok e.index :=
  (Near.refl q).pops hring P (by simp) hwrap

/-- Both heads are popped in the order of the ring, with the event index on. -/
theorem directQueue_pops_in_order : (directQueue (1 <<< 29)).eventIdx = true ∧
    (directQueue (1 <<< 29)).virtqueueNumHeads 0 = .ok 2 ∧
      (directQueue (1 <<< 29)).virtqueueGetHead 0 = .ok 0 ∧
      (directQueue (1 <<< 29)).virtqueueGetHead 1 = .ok 1 := by
  have hring : (directQueue (1 <<< 29)).RingClear := fun _ _ k hk => by
    revert k
    decide +kernel
  obtain ⟨hheads, hget⟩ := pops_in_order hring (pops_directQueue (.inr rfl)) (.inl (by decide))
  exact ⟨by decide, hheads, hget 0 _ rfl, hget 1 _ rfl⟩

end Qemu.Virtio
