import Mathlib.Data.List.Chain
import Mathlib.Data.List.Flatten
import Mathlib.Data.Int.ModEq
import Mathlib.Tactic
import Qemu.Lib.Errno

/-!
# Merging a batch of writes

`bdrv_aio_multiwrite` sorts write requests by their first sector and folds neighbours that touch or
overlap into one.  Its vector is the vector collected so far, cut where the next request begins,
followed by that of the next request.  The cut also drops what was collected *behind* the next
request, so the merged request ends where the one folded in last ends.

**Main results:**
* `multiwriteMerge_eq_groups` — `multiwrite_merge` leaves one request for each group, from the
  beginning of its first request to the end of its last one.
* `Group.exists_covers` — each sector of a merged request carries the data of a request of the
  group that covers it.
* `multiwriteCb_run` — the user's callbacks run when the last merged write completes, once each.
* `multiwrite_right_iff` — the batch is written as its requests ask exactly when no request
  reaches behind the last request of its group, apart from sectors another group writes.
-/

namespace Qemu.Block.Multiwrite

open List

variable {α γ : Type}

/-! ## I/O vectors

A `QEMUIOVector` is the list of the contents of its buffers. -/

/-- `qemu_iovec_concat`; its third argument counts the bytes that are still to be added. -/
def qemuIovecConcat : List (List α) → List (List α) → ℕ → ℕ → List (List α)
  | dst, [], _, _ => dst
  | dst, iov :: src, soffset, sbytes =>
    if sbytes = 0 then dst
    else if soffset < iov.length then
      let len := min (iov.length - soffset) sbytes
      qemuIovecConcat (dst ++ [(iov.drop soffset).take len]) src 0 (sbytes - len)
    else qemuIovecConcat dst src (soffset - iov.length) sbytes

/-- The nonempty buffers that hold the first `n` bytes of a vector, the last one cut. -/
def firstBytes : List (List α) → ℕ → List (List α)
  | [], _ => []
  | iov :: src, n =>
    if n = 0 then []
    else if iov.length = 0 then firstBytes src n
    else iov.take n :: firstBytes src (n - iov.length)

variable (iovMax : ℕ) (v : List (List α))

@[simp] lemma firstBytes_zero : firstBytes v 0 = [] := by
  cases v <;> simp [firstBytes]

lemma qemuIovecConcat_zero (dst src : List (List α)) (n : ℕ) :
    qemuIovecConcat dst src 0 n = dst ++ firstBytes src n := by
  induction src generalizing dst n with
  | nil => simp [qemuIovecConcat, firstBytes]
  | cons iov src ih =>
    simp only [qemuIovecConcat, firstBytes]
    by_cases hn : n = 0
    · simp [hn]
    by_cases hiov : iov.length = 0
    · rw [if_neg hn, if_neg (by omega), if_neg hn, if_pos hiov, hiov, ih]
    rw [if_neg hn, if_pos (by omega), if_neg hn, if_neg hiov, ih]
    have hlen : n - min (iov.length - 0) n = n - iov.length := by omega
    have htake : iov.take (min iov.length n) = iov.take n := by
      rw [take_eq_take_iff]
      omega
    rw [hlen, drop_zero, Nat.sub_zero, htake, append_assoc, singleton_append]

lemma flatten_firstBytes (n : ℕ) : (firstBytes v n).flatten = v.flatten.take n := by
  induction v generalizing n with
  | nil => simp [firstBytes]
  | cons iov v ih =>
    simp only [firstBytes]
    split_ifs with hn hiov
    · simp [hn]
    · rw [ih, length_eq_zero_iff.mp hiov]
      simp
    · rw [flatten_cons, ih, flatten_cons, take_append]

lemma firstBytes_append (u v : List (List α)) (k : ℕ) : firstBytes (u ++ v) (u.flatten.length + k) =
      firstBytes u u.flatten.length ++ firstBytes v k := by
  induction u with
  | nil => simp [firstBytes]
  | cons iov u ih =>
    simp only [cons_append, firstBytes, flatten_cons, length_append]
    by_cases hiov : iov.length = 0
    · simp only [hiov, Nat.zero_add, if_true]
      by_cases hu : u.flatten.length = 0
      · simp only [hu, Nat.zero_add, if_true, nil_append] at ih ⊢
        split_ifs with hk
        · simp [hk]
        · simpa using ih
      · rw [if_neg (by omega), if_neg hu, ih]
    · rw [if_neg (by omega), if_neg hiov, if_neg (by omega), if_neg hiov, cons_append]
      rw [take_of_length_le (by omega), take_of_length_le (by omega),
        Nat.add_assoc, Nat.add_sub_cancel_left, Nat.add_sub_cancel_left, ih]

lemma firstBytes_firstBytes (n k : ℕ) : firstBytes (firstBytes v n) k = firstBytes v (min n k) := by
  induction v generalizing n k with
  | nil => simp [firstBytes]
  | cons iov v ih =>
    by_cases hn : n = 0
    · simp [hn, firstBytes]
    by_cases hk : k = 0
    · simp [hk]
    by_cases hiov : iov.length = 0
    · simp only [firstBytes, if_neg hn, if_pos hiov, ih, if_neg (show min n k ≠ 0 by omega)]
    have hrest : min (n - iov.length) (k - min n iov.length) = min n k - iov.length := by
      omega
    simp only [firstBytes, if_neg hn, if_neg hiov, if_neg hk, length_take,
      if_neg (show min n iov.length ≠ 0 by omega), if_neg (show min n k ≠ 0 by omega), ih,
      take_take, hrest, Nat.min_comm k n]

/-! ## Requests -/

/-- The fields of a `BlockRequest` that `multiwrite_merge` rewrites; `nbSectors` is an `int`. -/
structure Write (α : Type) where
  sector : ℕ
  nbSectors : ℤ
  qiov : List (List α)

namespace Write

/-- The first sector behind the request (`oldreq_last`). -/
def last (r : Write α) : ℤ := r.sector + r.nbSectors

/-- The request writes sector `x`. -/
def Covers (r : Write α) (x : ℕ) : Prop := r.sector ≤ x ∧ (x : ℤ) < r.last

instance (r : Write α) (x : ℕ) : Decidable (r.Covers x) := inferInstanceAs (Decidable (_ ∧ _))

/-- The 512 bytes that the request's vector holds for sector `x`. -/
def sectorData (r : Write α) (x : ℕ) : List α :=
  (r.qiov.flatten.drop ((x - r.sector) * 512)).take 512

end Write

/-- A write request as the caller passes it: the vector holds exactly its sectors. -/
structure BlockRequest (α γ : Type) extends Write α where
  /-- The callback with its `opaque`. -/
  cb : γ
  nb_range : 0 ≤ nbSectors ∧ nbSectors < 2 ^ 31
  size_eq : (qiov.flatten.length : ℤ) = nbSectors * 512

/-- What `qsort` leaves in the array: requests of one sector may be in any order. -/
structure Qsorted (reqs : List (BlockRequest α γ)) where
  list : List (BlockRequest α γ)
  perm : list.Perm reqs
  sorted : list.Pairwise (fun r r' => r.sector ≤ r'.sector)

/-- The conversion of a size in sectors to `int`. -/
def toInt (n : ℕ) : ℤ := (n : ℤ).bmod (2 ^ 32)

lemma toInt_le (n : ℕ) : toInt n ≤ n := by
  unfold toInt
  rw [Int.bmod_def]
  split_ifs <;> omega

lemma toInt_of_lt {n : ℕ} (h : n < 2 ^ 31) : toInt n = n := by
  unfold toInt
  rw [Int.bmod_def]
  split_ifs <;> omega

/-! ## `multiwrite_merge` -/

/-- The test for folding `r` into the request `out`. -/
def Mergeable (iovMax : ℕ) (out r : Write α) : Prop :=
  (r.sector : ℤ) ≤ out.last ∧ ¬ out.qiov.length + r.qiov.length + 1 > iovMax

instance (iovMax : ℕ) (out r : Write α) : Decidable (Mergeable iovMax out r) :=
  inferInstanceAs (Decidable (_ ∧ _))

/-- The request that replaces `out` when `r` is folded into it. -/
def mergeInto (out r : Write α) : Write α :=
  let qiov := qemuIovecConcat [] out.qiov 0 ((r.sector - out.sector) * 512)
  let qiov := qemuIovecConcat qiov r.qiov 0 r.qiov.flatten.length
  { out with nbSectors := toInt (qiov.flatten.length / 512), qiov := qiov }

lemma mergeInto_mk (s : ℕ) (n : ℤ) (q : List (List α)) (r : Write α) : mergeInto ⟨s, n, q⟩ r =
      ⟨s, toInt ((firstBytes q ((r.sector - s) * 512) ++
        firstBytes r.qiov r.qiov.flatten.length).flatten.length / 512),
        firstBytes q ((r.sector - s) * 512) ++ firstBytes r.qiov r.qiov.flatten.length⟩ := by
  simp only [mergeInto, qemuIovecConcat_zero, nil_append]

/-- The loop of `multiwrite_merge`: `out` is `reqs[outidx]`, the list is `reqs[i]` onwards. -/
def mergeLoop (iovMax : ℕ) : Write α → List (BlockRequest α γ) → List (Write α)
  | out, [] => [out]
  | out, r :: rest =>
    if Mergeable iovMax out r.toWrite then mergeLoop iovMax (mergeInto out r.toWrite) rest
    else out :: mergeLoop iovMax r.toWrite rest

/-- `multiwrite_merge` on the sorted array. -/
def multiwriteMerge (iovMax : ℕ) : List (BlockRequest α γ) → List (Write α)
  | [] => []
  | r :: rest => mergeLoop iovMax r.toWrite rest

/-! ## Completion -/

/-- `MultiwriteCB`, with the log of the callbacks that have been called. -/
structure MultiwriteCB (γ : Type) where
  error : ℤ
  numRequests : ℤ
  callbacks : List γ
  called : List (γ × ℤ)

/-- `multiwrite_user_cb`. -/
def multiwriteUserCb (mcb : MultiwriteCB γ) : MultiwriteCB γ :=
  { mcb with called := mcb.called ++ mcb.callbacks.map fun cb => (cb, mcb.error) }

/-- `multiwrite_cb`: one merged write has completed with `ret`. -/
def multiwriteCb (mcb : MultiwriteCB γ) (ret : ℤ) : MultiwriteCB γ :=
  let mcb := if ret < 0 ∧ mcb.error = 0 then { mcb with error := ret } else mcb
  let mcb := { mcb with numRequests := mcb.numRequests - 1 }
  if mcb.numRequests = 0 then multiwriteUserCb mcb else mcb

/-- The writes that were submitted, and the state their completions share. -/
structure Submitted (α γ : Type) where
  writes : List (Write α)
  mcb : MultiwriteCB γ

/-- `bdrv_aio_multiwrite`: without a medium each request gets an error and nothing is submitted. -/
def bdrvAioMultiwrite (drv : Bool) (iovMax : ℕ) {reqs : List (BlockRequest α γ)}
    (q : Qsorted reqs) : Except (List ℤ) (Submitted α γ) :=
  if drv = false then .error (reqs.map fun _ => -enomedium)
  else if reqs.length = 0 then .ok ⟨[], ⟨0, 0, [], []⟩⟩
  else
    let writes := multiwriteMerge iovMax q.list
    .ok ⟨writes, ⟨0, writes.length, reqs.map (·.cb), []⟩⟩

/-! ## What a batch has to do -/

/-- The submitted writes write the sectors of the requests and no others, each with the data that
some request has for it. -/
structure WritesRight (reqs : List (BlockRequest α γ)) (writes : List (Write α)) : Prop where
  written : ∀ r ∈ reqs, ∀ x, r.Covers x → ∃ m ∈ writes, m.Covers x
  data : ∀ m ∈ writes, ∀ x, m.Covers x → ∃ r ∈ reqs, r.Covers x ∧ m.sectorData x = r.sectorData x

/-- No callback runs before the last completion, then each one runs once, with an error exactly when
a write failed. -/
def CallsBack (reqs : List (BlockRequest α γ)) (sub : Submitted α γ) : Prop :=
  ∀ rets : List ℤ, (rets.length < sub.writes.length →
    (rets.foldl multiwriteCb sub.mcb).called = []) ∧
    (rets.length = sub.writes.length → ∃ error : ℤ,
      (rets.foldl multiwriteCb sub.mcb).called = reqs.map (fun r => (r.cb, error)) ∧
      (error < 0 ↔ ∃ ret ∈ rets, ret < 0))

/-- The outcome of `bdrv_aio_multiwrite` is right. -/
def MultiwriteRight (reqs : List (BlockRequest α γ)) : Except (List ℤ) (Submitted α γ) → Prop
  | .error errors => errors = reqs.map fun _ => -enomedium
  | .ok sub => WritesRight reqs sub.writes ∧ CallsBack reqs sub

/-! ## Groups of requests -/

/-- Consecutive requests of the sorted array. -/
structure Group (α γ : Type) where
  first : BlockRequest α γ
  rest : List (BlockRequest α γ)

/-- The buffers of a group: each vector up to the beginning of the next request, and the last
vector. -/
def pieces : BlockRequest α γ → List (BlockRequest α γ) → List (List α)
  | r, [] => firstBytes r.qiov r.qiov.flatten.length
  | r, r' :: rest => firstBytes r.qiov ((r'.sector - r.sector) * 512) ++ pieces r' rest

/-- The second request begins inside the first one or right behind it. -/
def Touches (r r' : BlockRequest α γ) : Prop :=
  r.sector ≤ r'.sector ∧ (r'.sector : ℤ) ≤ r.last

namespace Group

def toList (g : Group α γ) : List (BlockRequest α γ) := g.first :: g.rest

def final (g : Group α γ) : BlockRequest α γ := g.rest.getLastD g.first

def snoc (g : Group α γ) (r : BlockRequest α γ) : Group α γ := ⟨g.first, g.rest ++ [r]⟩

/-- The number of sectors from the beginning of the first to the end of the last request. -/
def length (g : Group α γ) : ℕ := (g.final.last - g.first.sector).toNat

/-- The buffers of the group; a lone request keeps its vector. -/
def vector (g : Group α γ) : List (List α) :=
  if g.rest = [] then g.first.qiov else pieces g.first g.rest

/-- The first sector of the group up to the end of its last request, as far as its length is an
`int`. -/
def Covers (g : Group α γ) (x : ℕ) : Prop :=
  g.first.sector ≤ x ∧ (x : ℤ) < g.first.sector + toInt g.length

/-- `r` begins no later than the group ends, and its buffers and the group's fit in `iovMax`. -/
def Joins (iovMax : ℕ) (g : Group α γ) (r : BlockRequest α γ) : Prop :=
  (r.sector : ℤ) ≤ g.first.sector + toInt g.length ∧ g.vector.length + r.qiov.length + 1 ≤ iovMax

instance (iovMax : ℕ) (g : Group α γ) (r : BlockRequest α γ) : Decidable (g.Joins iovMax r) :=
  inferInstanceAs (Decidable (_ ∧ _))

def merged (g : Group α γ) : Write α :=
  ⟨g.first.sector, toInt g.length, g.vector⟩

/-- Each request of the group touches the one before it. -/
def Chained (g : Group α γ) : Prop := g.toList.IsChain Touches

end Group

/-- The sorted requests in groups: a request that does not join the last group opens a new one. -/
def groupsFrom (iovMax : ℕ) : Group α γ → List (BlockRequest α γ) → List (Group α γ)
  | g, [] => [g]
  | g, r :: rest =>
    if g.Joins iovMax r then groupsFrom iovMax (g.snoc r) rest
    else g :: groupsFrom iovMax ⟨r, []⟩ rest

def groups (iovMax : ℕ) : List (BlockRequest α γ) → List (Group α γ)
  | [] => []
  | r :: rest => groupsFrom iovMax ⟨r, []⟩ rest

/-- Behind the last request of its group, a request has only sectors that another group covers. -/
def TailsKept (iovMax : ℕ) (list : List (BlockRequest α γ)) : Prop :=
  ∀ g ∈ groups iovMax list, ∀ r ∈ g.toList, ∀ x, r.Covers x → ¬ g.Covers x →
    ∃ g' ∈ groups iovMax list, g'.Covers x

/-! ## The merged vector -/

lemma BlockRequest.length_flatten (r : BlockRequest α γ) :
    (r.qiov.flatten.length : ℤ) = (r.last - r.sector) * 512 := by
  rw [r.size_eq]
  simp only [Write.last]
  ring

lemma BlockRequest.sector_le_last (r : BlockRequest α γ) : (r.sector : ℤ) ≤ r.last := by
  have := r.nb_range
  simp only [Write.last]
  omega

variable {r : BlockRequest α γ} {rest list : List (BlockRequest α γ)} {g : Group α γ}

lemma Touches.distance_le {r' : BlockRequest α γ} (h : Touches r r') :
    (r'.sector - r.sector) * 512 ≤ r.qiov.flatten.length := by
  have := r.length_flatten
  have := h.2
  omega

lemma sector_le_of_chain (h : (r :: rest).IsChain Touches) :
    ∀ r' ∈ r :: rest, r.sector ≤ r'.sector := by
  have hchain : ((r :: rest).map (·.sector)).IsChain (· ≤ ·) :=
    (isChain_map _).mpr (h.imp fun _ _ htouch => htouch.1)
  have hsorted := pairwise_map.mp hchain.pairwise
  exact forall_mem_cons.mpr ⟨le_rfl, (pairwise_cons.mp hsorted).1⟩

lemma firstBytes_pieces {next : BlockRequest α γ} (h : (r :: (rest ++ [next])).IsChain Touches) :
    firstBytes (pieces r rest) ((next.sector - r.sector) * 512) ++
      firstBytes next.qiov next.qiov.flatten.length = pieces r (rest ++ [next]) := by
  induction rest generalizing r with
  | nil =>
    have htouch : Touches r next := (isChain_cons_cons.mp h).1
    have := htouch.distance_le
    simp only [pieces, nil_append, firstBytes_firstBytes]
    congr 2
    omega
  | cons r' rest ih =>
    rw [cons_append, isChain_cons_cons] at h
    obtain ⟨htouch, hchain⟩ := h
    have hle : r'.sector ≤ next.sector := sector_le_of_chain hchain next (by simp)
    have hcut := htouch.distance_le
    have hlen : (firstBytes r.qiov ((r'.sector - r.sector) * 512)).flatten.length =
        (r'.sector - r.sector) * 512 := by
      rw [flatten_firstBytes, length_take]
      omega
    have hsplit : (next.sector - r.sector) * 512 =
        (firstBytes r.qiov ((r'.sector - r.sector) * 512)).flatten.length +
          (next.sector - r'.sector) * 512 := by
      have := htouch.1
      omega
    rw [pieces, cons_append, pieces, ← ih hchain, hsplit, firstBytes_append, hlen,
      firstBytes_firstBytes, Nat.min_self, append_assoc]

lemma length_pieces (h : (r :: rest).IsChain Touches) :
    ((pieces r rest).flatten.length : ℤ) = ((rest.getLastD r).last - r.sector) * 512 := by
  induction rest generalizing r with
  | nil =>
    rw [pieces, flatten_firstBytes, take_length, getLastD_nil, r.length_flatten]
  | cons r' rest ih =>
    rw [isChain_cons_cons] at h
    have hcut := h.1.distance_le
    have hle := h.1.1
    rw [pieces, flatten_append, length_append, flatten_firstBytes, length_take,
      Nat.cast_add, ih h.2, getLastD_cons]
    omega

namespace Group

lemma chained_snoc (h : g.Chained) (htouch : Touches g.final r) : (g.snoc r).Chained := by
  unfold Chained toList snoc at *
  rw [← cons_append, isChain_append]
  refine ⟨h, isChain_singleton r, ?_⟩
  intro x hx y hy
  have hx' : x = g.final := by
    simp only [getLast?_cons, Option.mem_def, Option.some.injEq] at hx
    rw [← hx, final, getLastD_eq_getLast?]
  have hy' : y = r := by simpa using hy.symm
  rw [hx', hy']
  exact htouch

@[simp] lemma final_snoc (g : Group α γ) (r : BlockRequest α γ) : (g.snoc r).final = r := by
  simp [final, snoc]

lemma Chained.sector_le_final (h : g.Chained) : g.first.sector ≤ g.final.sector :=
  sector_le_of_chain h _ getLastD_mem_cons

lemma Chained.length_eq (h : g.Chained) : (g.length : ℤ) = g.final.last - g.first.sector := by
  have hfinal := g.final.sector_le_last
  have hle := h.sector_le_final
  unfold length
  omega

lemma flatten_vector (g : Group α γ) : g.vector.flatten = (pieces g.first g.rest).flatten := by
  unfold vector
  split_ifs with hrest
  · rw [hrest, pieces, flatten_firstBytes, take_length]
  · rfl

/-- Cutting the vector of a group and adding a request gives the vector of the longer group. -/
lemma Chained.vector_snoc (h : (g.snoc r).Chained) :
    firstBytes g.vector ((r.sector - g.first.sector) * 512) ++
      firstBytes r.qiov r.qiov.flatten.length = (g.snoc r).vector := by
  have hne : (g.snoc r).rest ≠ [] := by simp [snoc]
  rw [vector, vector, if_neg hne]
  split_ifs with hrest
  · simp only [snoc, hrest, nil_append, pieces]
  · exact firstBytes_pieces h

end Group

/-! ## The loop computes the groups -/

lemma Group.merged_singleton (r : BlockRequest α γ) : (⟨r, []⟩ : Group α γ).merged = r.toWrite := by
  have hnb := r.nb_range
  have hlen : (⟨r, []⟩ : Group α γ).length = r.nbSectors.toNat := by
    simp only [Group.length, Group.final, getLastD_nil, Write.last]
    omega
  have hint : toInt r.nbSectors.toNat = r.nbSectors := by
    rw [toInt_of_lt (by omega)]
    omega
  simp only [Group.merged, hlen, hint, Group.vector, if_true]

lemma Group.last_merged (g : Group α γ) : g.merged.last = g.first.sector + toInt g.length := by
  rw [Group.merged, Write.last]

lemma Group.qiov_merged (g : Group α γ) : g.merged.qiov = g.vector := rfl

lemma Group.sectorData_merged (g : Group α γ) (x : ℕ) :
    g.merged.sectorData x = (g.vector.flatten.drop ((x - g.first.sector) * 512)).take 512 := by
  rw [Group.merged, Write.sectorData]

lemma Group.covers_merged_iff (g : Group α γ) (x : ℕ) : g.merged.Covers x ↔ g.Covers x := by
  rw [Write.Covers, g.last_merged, Group.Covers, Group.merged]

lemma Group.mergeable_merged_iff (g : Group α γ) (r : BlockRequest α γ) :
    Mergeable iovMax g.merged r.toWrite ↔ g.Joins iovMax r := by
  rw [Mergeable, Group.Joins, g.last_merged, g.qiov_merged, gt_iff_lt, not_lt]

lemma Group.Joins.touches {iovMax : ℕ} (h : g.Joins iovMax r) (hchain : g.Chained)
    (hle : g.final.sector ≤ r.sector) : Touches g.final r := by
  refine ⟨hle, ?_⟩
  have := h.1
  have := toInt_le g.length
  have := hchain.length_eq
  omega

lemma Group.mergeInto_merged (h : (g.snoc r).Chained) :
    mergeInto g.merged r.toWrite = (g.snoc r).merged := by
  have hvec := h.vector_snoc
  have hlen : (g.snoc r).vector.flatten.length / 512 = (g.snoc r).length := by
    have hpieces := length_pieces h
    have heq := h.length_eq
    rw [(g.snoc r).flatten_vector]
    unfold Group.final at heq
    omega
  rw [Group.merged, mergeInto_mk, hvec, hlen]
  rfl

/-- The loop leaves one write for each group, and the requests of a group touch. -/
lemma mergeLoop_groups (iovMax : ℕ) (hchain : g.Chained)
    (hsorted : (g.final :: list).Pairwise fun r r' => r.sector ≤ r'.sector) :
    mergeLoop iovMax g.merged list = (groupsFrom iovMax g list).map Group.merged ∧
      ∀ g' ∈ groupsFrom iovMax g list, g'.Chained := by
  induction list generalizing g with
  | nil => exact ⟨rfl, by simpa [groupsFrom] using hchain⟩
  | cons r rest ih =>
    have hle : g.final.sector ≤ r.sector := rel_of_pairwise_cons hsorted (by simp)
    simp only [mergeLoop, groupsFrom, g.mergeable_merged_iff]
    split_ifs with hjoin
    · have hsnoc := Group.chained_snoc hchain (hjoin.touches hchain hle)
      rw [Group.mergeInto_merged hsnoc]
      exact ih hsnoc (by simpa using hsorted.of_cons)
    · obtain ⟨hnew, hrest⟩ := ih (g := ⟨r, []⟩) (isChain_singleton r) hsorted.of_cons
      rw [map_cons, ← hnew, Group.merged_singleton]
      exact ⟨rfl, forall_mem_cons.mpr ⟨hchain, hrest⟩⟩

lemma multiwriteMerge_groups (iovMax : ℕ)
    (hsorted : list.Pairwise fun r r' => r.sector ≤ r'.sector) :
    multiwriteMerge iovMax list = (groups iovMax list).map Group.merged ∧
      ∀ g ∈ groups iovMax list, g.Chained := by
  cases list with
  | nil => simp [multiwriteMerge, groups]
  | cons r rest =>
    simp only [multiwriteMerge, groups]
    rw [← Group.merged_singleton r]
    exact mergeLoop_groups iovMax (isChain_singleton r) hsorted

/-- The loop leaves one write per group. -/
theorem multiwriteMerge_eq_groups (iovMax : ℕ)
    (hsorted : list.Pairwise fun r r' => r.sector ≤ r'.sector) :
    multiwriteMerge iovMax list = (groups iovMax list).map Group.merged :=
  (multiwriteMerge_groups iovMax hsorted).1

/-! ## What the groups write -/

lemma flatMap_groupsFrom (g : Group α γ) (list : List (BlockRequest α γ)) :
    (groupsFrom iovMax g list).flatMap Group.toList = g.toList ++ list := by
  induction list generalizing g with
  | nil => simp [groupsFrom]
  | cons r rest ih =>
    simp only [groupsFrom]
    split_ifs with hjoin
    · rw [ih]
      simp [Group.toList, Group.snoc]
    · rw [flatMap_cons, ih]
      simp [Group.toList]

lemma flatMap_groups (list : List (BlockRequest α γ)) :
    (groups iovMax list).flatMap Group.toList = list := by
  cases list with
  | nil => rfl
  | cons r rest => exact flatMap_groupsFrom iovMax ⟨r, []⟩ rest

/-- A sector of touching requests is written with the data of one of them that covers it. -/
lemma exists_covers_pieces (h : (r :: rest).IsChain Touches) {x : ℕ} (hx : r.sector ≤ x)
    (hlast : (x : ℤ) < (rest.getLastD r).last) : ∃ r' ∈ r :: rest, r'.Covers x ∧
      ((pieces r rest).flatten.drop ((x - r.sector) * 512)).take 512 = r'.sectorData x := by
  induction rest generalizing r with
  | nil =>
    refine ⟨r, by simp, ⟨hx, hlast⟩, ?_⟩
    rw [pieces, flatten_firstBytes, take_length, Write.sectorData]
  | cons next rest ih =>
    rw [isChain_cons_cons] at h
    have hle := h.1.1
    have hend := h.1.2
    have hcut : (r.qiov.flatten.take ((next.sector - r.sector) * 512)).length =
        (next.sector - r.sector) * 512 := by
      rw [length_take]
      exact Nat.min_eq_left h.1.distance_le
    rw [pieces, flatten_append, flatten_firstBytes, drop_append, hcut]
    by_cases hnext : next.sector ≤ x
    · -- the sector lies behind the cut: it is one of the remaining requests
      obtain ⟨r', hr', hcovers, hdata⟩ := ih h.2 hnext (by rwa [getLastD_cons] at hlast)
      refine ⟨r', mem_cons_of_mem _ hr', hcovers, ?_⟩
      have hdrop : (x - r.sector) * 512 - (next.sector - r.sector) * 512 =
          (x - next.sector) * 512 := by omega
      rw [drop_of_length_le (by rw [hcut]; omega), nil_append, hdrop, hdata]
    · refine ⟨r, by simp, ⟨hx, by omega⟩, ?_⟩
      have hroom : (next.sector - r.sector) * 512 - (x - r.sector) * 512 ≥ 512 := by omega
      rw [take_append_of_le_length (by rw [length_drop, hcut]; omega),
        drop_take, take_take, Nat.min_eq_left hroom, Write.sectorData]

/-- Each sector of a merged write carries the data of a request of the group that covers it. -/
theorem Group.exists_covers (h : g.Chained) {x : ℕ} (hx : g.merged.Covers x) :
    ∃ r ∈ g.toList, r.Covers x ∧ g.merged.sectorData x = r.sectorData x := by
  rw [g.covers_merged_iff] at hx
  have hlast : (x : ℤ) < g.final.last := by
    have := hx.2
    have := toInt_le g.length
    have := h.length_eq
    omega
  obtain ⟨r, hr, hcovers, hdata⟩ := exists_covers_pieces h hx.1 hlast
  refine ⟨r, hr, hcovers, ?_⟩
  rw [g.sectorData_merged, g.flatten_vector, hdata]

/-! ## Completion of the batch -/

def firstError : List ℤ → ℤ
  | [] => 0
  | ret :: rets => if ret < 0 then ret else firstError rets

lemma firstError_neg_iff (rets : List ℤ) : firstError rets < 0 ↔ ∃ ret ∈ rets, ret < 0 := by
  induction rets with
  | nil => simp [firstError]
  | cons ret rets ih =>
    simp only [firstError, mem_cons, exists_eq_or_imp]
    split_ifs with hret
    · simp [hret]
    · simp [hret, ih]

lemma multiwriteCb_eq (mcb : MultiwriteCB γ) (ret : ℤ) : multiwriteCb mcb ret =
      if mcb.numRequests - 1 = 0 then
        multiwriteUserCb ⟨if ret < 0 ∧ mcb.error = 0 then ret else mcb.error,
          mcb.numRequests - 1, mcb.callbacks, mcb.called⟩
      else ⟨if ret < 0 ∧ mcb.error = 0 then ret else mcb.error,
          mcb.numRequests - 1, mcb.callbacks, mcb.called⟩ := by
  unfold multiwriteCb
  by_cases herror : ret < 0 ∧ mcb.error = 0
  · simp only [if_pos herror]
  · simp only [if_neg herror]

/-- Before the last completion nothing is called, and that one calls each callback with the first
error. -/
theorem multiwriteCb_run (mcb : MultiwriteCB γ) (rets : List ℤ) (hcalled : mcb.called = []) :
    ((rets.length : ℤ) < mcb.numRequests → (rets.foldl multiwriteCb mcb).called = []) ∧
    (rets ≠ [] → (rets.length : ℤ) = mcb.numRequests → (rets.foldl multiwriteCb mcb).called =
        mcb.callbacks.map fun cb => (cb,
          if mcb.error = 0 then firstError rets else mcb.error)) := by
  induction rets generalizing mcb with
  | nil => simp [hcalled]
  | cons ret rets ih =>
    rw [foldl_cons, length_cons, Nat.cast_add, Nat.cast_one]
    -- the state after one completion, before the test for the last one
    have hstep := multiwriteCb_eq mcb ret
    refine ⟨fun hlt => ?_, fun _ hlen => ?_⟩
    · rw [hstep, if_neg (by omega)]
      exact (ih _ (by exact hcalled)).1 (by simp only; omega)
    cases rets with
    | nil =>
      rw [hstep, if_pos (by simp at hlen; omega)]
      simp only [foldl_nil, multiwriteUserCb, hcalled, nil_append, firstError]
      congr 1
      funext cb
      congr 1
      split_ifs <;> simp_all
    | cons ret' rets =>
      rw [hstep, if_neg (by simp only [length_cons] at hlen; push_cast at hlen; omega)]
      rw [(ih _ (by exact hcalled)).2 (by simp) (by simp only; omega)]
      simp only [firstError]
      congr 1
      funext cb
      congr 1
      split_ifs <;> simp_all

lemma length_multiwriteMerge_ne_zero (iovMax : ℕ) (h : list ≠ [])
    (hsorted : list.Pairwise fun r r' => r.sector ≤ r'.sector) :
    (multiwriteMerge iovMax list).length ≠ 0 := by
  rw [multiwriteMerge_eq_groups iovMax hsorted, length_map]
  intro hlen
  have hflat := flatMap_groups iovMax list
  rw [length_eq_zero_iff.mp hlen] at hflat
  exact h hflat.symm

/-- The callbacks of a submitted batch. -/
theorem callsBack_of_nonempty (reqs : List (BlockRequest α γ)) {writes : List (Write α)}
    (hne : writes.length ≠ 0) :
    CallsBack reqs ⟨writes, ⟨0, writes.length, reqs.map (·.cb), []⟩⟩ := by
  intro rets
  obtain ⟨hearly, hlast⟩ :=
    multiwriteCb_run ⟨0, writes.length, reqs.map (·.cb), []⟩ rets rfl
  simp only [Nat.cast_lt, Nat.cast_inj] at hearly hlast
  refine ⟨hearly, fun hlen => ⟨firstError rets, ?_, ?_⟩⟩
  · have hrets : rets ≠ [] := by
      rintro rfl
      exact hne (by simpa using hlen.symm)
    rw [hlast hrets hlen]
    simp
  · exact firstError_neg_iff rets

/-! ## The batch -/

/-- The merged writes are right exactly when no tail is dropped. -/
lemma writesRight_iff {reqs : List (BlockRequest α γ)} (q : Qsorted reqs) :
    WritesRight reqs (multiwriteMerge iovMax q.list) ↔ TailsKept iovMax q.list := by
  have hmem : ∀ r, r ∈ reqs ↔ ∃ g ∈ groups iovMax q.list, r ∈ g.toList := by
    intro r
    rw [← q.perm.mem_iff]
    nth_rewrite 1 [← flatMap_groups iovMax q.list]
    exact mem_flatMap
  rw [multiwriteMerge_eq_groups iovMax q.sorted]
  constructor
  · intro h g hg r hr x hx _
    obtain ⟨m, hm, hcovers⟩ := h.written r ((hmem r).mpr ⟨g, hg, hr⟩) x hx
    obtain ⟨g', hg', rfl⟩ := mem_map.mp hm
    exact ⟨g', hg', (g'.covers_merged_iff x).mp hcovers⟩
  intro h
  constructor
  · intro r hr x hx
    obtain ⟨g, hg, hrg⟩ := (hmem r).mp hr
    by_cases hcovers : g.Covers x
    · exact ⟨g.merged, mem_map_of_mem hg, (g.covers_merged_iff x).mpr hcovers⟩
    · obtain ⟨g', hg', hcovers'⟩ := h g hg r hrg x hx hcovers
      exact ⟨g'.merged, mem_map_of_mem hg', (g'.covers_merged_iff x).mpr hcovers'⟩
  · intro m hm x hx
    obtain ⟨g, hg, rfl⟩ := mem_map.mp hm
    obtain ⟨r, hr, hcovers, hdata⟩ :=
      Group.exists_covers ((multiwriteMerge_groups iovMax q.sorted).2 g hg) hx
    exact ⟨r, (hmem r).mpr ⟨g, hg, hr⟩, hcovers, hdata⟩

/-- With a medium, a batch is written and called back as its requests ask exactly when no request
reaches behind the last request of its group, apart from sectors that another group covers. -/
theorem multiwrite_right_iff (drv : Bool) (iovMax : ℕ) (reqs : List (BlockRequest α γ))
    (q : Qsorted reqs) :
    MultiwriteRight reqs (bdrvAioMultiwrite drv iovMax q) ↔
      (drv = true → TailsKept iovMax q.list) := by
  rw [bdrvAioMultiwrite]
  cases drv with
  | false => simp [MultiwriteRight]
  | true =>
    by_cases hreqs : reqs.length = 0
    · obtain rfl := length_eq_zero_iff.mp hreqs
      have hlist : q.list = [] := q.perm.eq_nil
      have hempty : WritesRight ([] : List (BlockRequest α γ)) [] := ⟨by simp, by simp⟩
      have hback : CallsBack ([] : List (BlockRequest α γ)) ⟨[], ⟨0, 0, [], []⟩⟩ := by
        refine fun rets => ⟨by simp, fun hlen => ⟨0, ?_, ?_⟩⟩ <;> simp [length_eq_zero_iff.mp hlen]
      simp [MultiwriteRight, hempty, hlist, TailsKept, groups, hback]
    · have hlist : q.list ≠ [] := by
        intro hnil
        rw [← q.perm.length_eq, hnil] at hreqs
        exact hreqs rfl
      have hback := callsBack_of_nonempty reqs
        (length_multiwriteMerge_ne_zero iovMax hlist q.sorted)
      simp only [Bool.true_eq_false, if_false, if_neg hreqs, MultiwriteRight, forall_const,
        writesRight_iff, hback, and_true]

/-! ## A request inside another one -/

/-- A request of one buffer that holds `n` sectors of the byte `b`. -/
def plainRequest (sector n b : ℕ) (h : n < 2 ^ 31) : BlockRequest ℕ ℕ :=
  ⟨⟨sector, n, [replicate (n * 512) b]⟩, b, by simp only; omega, by simp⟩

/-- Three sectors from sector 0 on, and sector 1 alone. -/
def nestedRequests : List (BlockRequest ℕ ℕ) :=
  [plainRequest 0 3 1 (by omega), plainRequest 1 1 2 (by omega)]

def nestedBatch : Qsorted nestedRequests :=
  ⟨nestedRequests, List.Perm.refl _, by
    simp only [nestedRequests, pairwise_pair, plainRequest, Nat.zero_le]⟩

/-- The merged write of the two requests ends with the inner one: sector 2 is not written. -/
theorem nestedBatch_loses_tail :
    ¬ MultiwriteRight nestedRequests (bdrvAioMultiwrite true 1024 nestedBatch) := by
  have hlast : (multiwriteMerge 1024 nestedRequests).all (fun m => m.last = 2) = true := by
    decide +kernel
  intro h
  obtain ⟨m, hm, hcovers⟩ := h.1.written (plainRequest 0 3 1 (by omega))
    (by simp only [nestedRequests, mem_cons, true_or])
    2 (by simp only [Write.Covers, Write.last, plainRequest]; omega)
  have hend : m.last = 2 := by simpa using all_eq_true.mp hlast m hm
  have := hcovers.2
  omega

end Qemu.Block.Multiwrite
