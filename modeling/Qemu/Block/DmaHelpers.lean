import Mathlib

/-!
# Scatter-gather DMA

`dma_bdrv_io` and `dma_bdrv_cb` of `dma-helpers.c`.  The callback maps as much of the guest memory
of the list as it can get, and issues one request for what it mapped.  It is called again when the
request is done, or by the map client if nothing could be mapped.

A request is for whole sectors, `iov.size / 512` of them, and the callback passes over all the bytes
that it mapped.  So bytes are lost as soon as a failure to map leaves it with a part of a sector.

**Main results:**
- `cursor_finishes`: the transfer comes to the end of the list
- `loopInvariant`: what the callback has mapped and moved before each call of `dma_memory_map`
- `transferRight_iff`: the transfer is right exactly if every request is for whole sectors, and for
  a number of them that fits into an `int`
-/

namespace Qemu.Dma

open List

/-! ## What the source computes -/

structure ScatterGatherEntry where
  base : ℕ
  len : ℕ

/-- The results of `dma_memory_map`: `none` for a failure, and `some k` if at most `k + 1` bytes are
mapped.  After a failure the map client tries again until a call succeeds. -/
structure MapResults where
  result : ℕ → Option ℕ
  retried : ∀ n, ∃ m, n ≤ m ∧ (result m).isSome = true

/-- One byte that is moved between guest memory and the disk, in the direction of the transfer. -/
structure Move where
  guest : ℕ
  disk : ℕ
deriving DecidableEq

inductive Phase where
  | looping
  | done
deriving DecidableEq

/-- The state of a transfer.  The vector holds the guest addresses and the lengths of its parts. -/
structure DMAAIOCB where
  sectorNum : ℕ
  sgCurIndex : ℕ
  sgCurByte : ℕ
  iov : List (ℕ × ℕ)
  iovSize : ℕ
  phase : Phase
  mapCalls : ℕ
  moves : List Move
  completions : List ℤ

def bytes (region : ℕ × ℕ) : List ℕ := (range region.2).map fun j => (region.1 + j) % 2 ^ 64

/-- Bytes one after the other, moved to or from the disk at an offset. -/
def transfer (offset : ℕ) (guest : List ℕ) : List Move := guest.mapIdx fun k a => ⟨a, offset + k⟩

/-- The number of sectors of a request, an `int`. -/
def nbSectors (iovSize : ℕ) : ℤ := Int.bmod (iovSize / 512 : ℕ) (2 ^ 32)

/-- A request that succeeds moves its sectors to or from the start of the vector. -/
def ioFunc (dbs : DMAAIOCB) : DMAAIOCB :=
  { dbs with
    moves := dbs.moves ++ transfer (dbs.sectorNum * 512)
      ((dbs.iov.flatMap bytes).take ((nbSectors dbs.iovSize).toNat * 512)) }

/-- `dma_bdrv_unmap`. -/
def dmaBdrvUnmap (dbs : DMAAIOCB) : DMAAIOCB := { dbs with iov := [], iovSize := 0 }

/-- `dma_complete`. -/
def dmaComplete (dbs : DMAAIOCB) (ret : ℤ) : DMAAIOCB :=
  { dmaBdrvUnmap dbs with phase := .done, completions := dbs.completions ++ [ret] }

/-- `dma_bdrv_cb` up to its loop. -/
def dmaBdrvCb (sg : List ScatterGatherEntry) (dbs : DMAAIOCB) (ret : ℤ) : DMAAIOCB :=
  let dbs := { dbs with sectorNum := dbs.sectorNum + dbs.iovSize / 512 }
  let dbs := dmaBdrvUnmap dbs
  if dbs.sgCurIndex = sg.length ∨ ret < 0 then dmaComplete dbs ret
  else { dbs with phase := .looping }

/-- `dma_bdrv_cb` after its loop, with the call of it that follows. -/
def afterLoop (sg : List ScatterGatherEntry) (dbs : DMAAIOCB) : DMAAIOCB :=
  -- the map client calls `reschedule_dma`
  if dbs.iovSize = 0 then dmaBdrvCb sg dbs 0
  else dmaBdrvCb sg (ioFunc dbs) 0

/-- One round of the loop of `dma_bdrv_cb`, or what comes after it. -/
def step (sg : List ScatterGatherEntry) (result : ℕ → Option ℕ) (dbs : DMAAIOCB) : DMAAIOCB :=
  match dbs.phase with
  | .done => dbs
  | .looping =>
    match sg[dbs.sgCurIndex]? with
    | none => afterLoop sg dbs
    | some entry =>
      match result dbs.mapCalls with
      | none => afterLoop sg { dbs with mapCalls := dbs.mapCalls + 1 }
      | some k =>
        let curAddr := (entry.base + dbs.sgCurByte) % 2 ^ 64
        let curLen := min (k + 1) (entry.len - dbs.sgCurByte)
        let dbs :=
          { dbs with
            mapCalls := dbs.mapCalls + 1
            iov := dbs.iov ++ [(curAddr, curLen)]
            iovSize := (dbs.iovSize + curLen) % 2 ^ 64
            sgCurByte := dbs.sgCurByte + curLen }
        if dbs.sgCurByte = entry.len then
          { dbs with sgCurByte := 0, sgCurIndex := dbs.sgCurIndex + 1 }
        else dbs

/-- `dma_bdrv_io`. -/
def dmaBdrvIo (sg : List ScatterGatherEntry) (sectorNum : ℕ) : DMAAIOCB :=
  dmaBdrvCb sg
    { sectorNum := sectorNum, sgCurIndex := 0, sgCurByte := 0, iov := [], iovSize := 0
      phase := .looping, mapCalls := 0, moves := [], completions := [] } 0

/-- The transfer after `n` steps. -/
def run (sg : List ScatterGatherEntry) (sectorNum : ℕ) (result : ℕ → Option ℕ) (n : ℕ) : DMAAIOCB :=
  (step sg result)^[n] (dmaBdrvIo sg sectorNum)

/-! ## What a transfer is for -/

/-- The bytes of the guest that the list names, in order. -/
def guestBytes (sg : List ScatterGatherEntry) : List ℕ := sg.flatMap fun e => bytes (e.base, e.len)

/-- Every byte of the list is moved once, to or from its place on the disk, and the completion is
called once. -/
structure TransferRight (sg : List ScatterGatherEntry) (sectorNum : ℕ) (result : ℕ → Option ℕ) :
    Prop where
  finishes : ∃ n, (run sg sectorNum result n).phase = .done
  inOrder : ∀ n, (run sg sectorNum result n).moves <+: transfer (sectorNum * 512) (guestBytes sg)
  pending : ∀ n, (run sg sectorNum result n).phase = .looping →
    (run sg sectorNum result n).completions = []
  complete : ∀ n, (run sg sectorNum result n).phase = .done →
    (run sg sectorNum result n).moves = transfer (sectorNum * 512) (guestBytes sg) ∧
      (run sg sectorNum result n).completions = [0]

/-! ## The places that the calls reach -/

section Cursor

variable (sg : List ScatterGatherEntry) (result : ℕ → Option ℕ)

/-- The entry and the byte in it after a call of `dma_memory_map`. -/
def advance (cursor : ℕ × ℕ) : Option ℕ → ℕ × ℕ
  | none => cursor
  | some k =>
    match sg[cursor.1]? with
    | none => cursor
    | some entry =>
      let b := cursor.2 + min (k + 1) (entry.len - cursor.2)
      if b = entry.len then (cursor.1 + 1, 0) else (cursor.1, b)

/-- The entry and the byte in it after the first `n` calls. -/
def cursor : ℕ → ℕ × ℕ
  | 0 => (0, 0)
  | n + 1 => advance sg (cursor n) (result n)

/-- The bytes in front of a position in the list. -/
def bytesBefore (c : ℕ × ℕ) : ℕ := ((sg.take c.1).map ScatterGatherEntry.len).sum + c.2

/-- The number of bytes that the first `n` calls mapped. -/
def position (n : ℕ) : ℕ := bytesBefore sg (cursor sg result n)

/-- The call after the last failure before the call `n`. -/
def start : ℕ → ℕ
  | 0 => 0
  | n + 1 => if result n = none then n + 1 else start n

def roundBytes (n : ℕ) : ℕ := position sg result n - position sg result (start result n)

/-- The loop ends with the call `n`, by a failure or because the list is at its end. -/
def EndsRound (n : ℕ) : Prop :=
  (∀ k < n, (cursor sg result k).1 < sg.length) ∧
    (result n = none ∨ (cursor sg result n).1 = sg.length)

/-- Every request is for whole sectors, and for a number of them that fits into an `int`. -/
def WholeSectors : Prop :=
  ∀ n, EndsRound sg result n → 512 ∣ roundBytes sg result n ∧ roundBytes sg result n < 512 * 2 ^ 31

end Cursor

/-! ## Cursors -/

variable {k : ℕ}

section CursorLemmas

variable {sg : List ScatterGatherEntry} {result : ℕ → Option ℕ}

/-- A cursor that is in the list. -/
structure InList (sg : List ScatterGatherEntry) (c : ℕ × ℕ) : Prop where
  index : c.1 ≤ sg.length
  atEnd : c.1 = sg.length → c.2 = 0
  byte : ∀ e, sg[c.1]? = some e → c.2 ≤ e.len

variable {e : ScatterGatherEntry}

lemma sum_take_succ {i : ℕ} (h : sg[i]? = some e) :
    ((sg.take (i + 1)).map ScatterGatherEntry.len).sum =
      ((sg.take i).map ScatterGatherEntry.len).sum + e.len := by
  rw [take_add_one, h]
  simp

lemma advance_some {c : ℕ × ℕ} (hc : InList sg c) (he : sg[c.1]? = some e) :
    InList sg (advance sg c (some k)) ∧
      bytesBefore sg (advance sg c (some k)) = bytesBefore sg c + min (k + 1) (e.len - c.2) ∧
      c.1 ≤ (advance sg c (some k)).1 ∧
      bytesBefore sg c + c.1 < bytesBefore sg
        (advance sg c (some k)) + (advance sg c (some k)).1 := by
  have hlt : c.1 < sg.length := (List.getElem?_eq_some_iff.mp he).1
  have hle := hc.byte e he
  simp only [advance, he]
  split_ifs with h
  · have hsum := sum_take_succ he
    refine ⟨⟨by simp only; omega, fun _ => rfl, fun _ _ => Nat.zero_le _⟩, ?_, by simp, ?_⟩ <;>
      simp only [bytesBefore] <;> omega
  refine ⟨⟨hc.index, fun hend => ?_, fun e' he' => ?_⟩, ?_, by simp, ?_⟩
  · simp only at hend
    omega
  · obtain rfl : e = e' := Option.some.inj (he.symm.trans he')
    simp only
    omega
  · simp only [bytesBefore]
    omega
  · simp only [bytesBefore]
    omega

variable (sg result) in
lemma cursor_inList (n : ℕ) : InList sg (cursor sg result n) := by
  induction n with
  | zero => exact ⟨Nat.zero_le _, fun _ => rfl, fun _ _ => Nat.zero_le _⟩
  | succ n ih =>
    rw [cursor]
    rcases result n with _ | k
    · exact ih
    · rcases he : sg[(cursor sg result n).1]? with _ | e
      · simpa only [advance, he] using ih
      · exact (advance_some ih he).1

variable {n : ℕ}

lemma cursor_succ_of_none (h : result n = none) :
    cursor sg result (n + 1) = cursor sg result n := by
  rw [cursor, h]
  rfl

lemma bytesBefore_le {c : ℕ × ℕ} (hc : InList sg c) :
    bytesBefore sg c ≤ (sg.map ScatterGatherEntry.len).sum := by
  rcases he : sg[c.1]? with _ | e
  · have hend : c.1 = sg.length := le_antisymm hc.index (List.getElem?_eq_none_iff.mp he)
    rw [bytesBefore, hc.atEnd hend, hend, take_length, add_zero]
  have hle := hc.byte e he
  have hsum := sum_take_succ he
  have htake : ((sg.take (c.1 + 1)).map ScatterGatherEntry.len).sum ≤
      (sg.map ScatterGatherEntry.len).sum :=
    List.Sublist.sum_le_sum ((take_sublist _ _).map _) (by simp)
  rw [bytesBefore]
  omega

variable (sg) in
lemma cursor_finishes (retried : ∀ n, ∃ m, n ≤ m ∧ (result m).isSome = true) :
    ∃ n, (cursor sg result n).1 = sg.length := by
  by_contra hnever
  push Not at hnever
  have hlt : ∀ n, (cursor sg result n).1 < sg.length := fun n =>
    lt_of_le_of_ne (cursor_inList sg result n).index (hnever n)
  -- a measure that never falls and grows without bound
  let progress n := bytesBefore sg (cursor sg result n) + (cursor sg result n).1
  have hmono : ∀ n, progress n ≤ progress (n + 1) ∧
      ((result n).isSome = true → progress n < progress (n + 1)) := by
    intro n
    obtain ⟨e, he⟩ : ∃ e, sg[(cursor sg result n).1]? = some e :=
      ⟨_, getElem?_eq_getElem (hlt n)⟩
    simp only [progress]
    rw [cursor]
    rcases result n with _ | k
    · exact ⟨le_rfl, fun h => absurd h (by simp)⟩
    · have := (advance_some (k := k) (cursor_inList sg result n) he).2.2.2
      exact ⟨this.le, fun _ => this⟩
  have hgrow : ∀ b, ∃ n, b ≤ progress n := by
    intro b
    induction b with
    | zero => exact ⟨0, Nat.zero_le _⟩
    | succ b ih =>
      obtain ⟨n, hn⟩ := ih
      obtain ⟨m, hnm, hm⟩ := retried n
      have hle := monotone_nat_of_le_succ (fun n => (hmono n).1) hnm
      have := (hmono m).2 hm
      exact ⟨m + 1, by omega⟩
  obtain ⟨n, hn⟩ := hgrow ((sg.map ScatterGatherEntry.len).sum + sg.length + 1)
  have := bytesBefore_le (cursor_inList sg result n)
  have := hlt n
  simp only [progress] at hn
  omega

/-! ## Slices of the guest bytes -/

@[simp] lemma length_bytes (region : ℕ × ℕ) : (bytes region).length = region.2 := by
  simp [bytes]

lemma length_guestBytes (l : List ScatterGatherEntry) :
    (guestBytes l).length = (l.map ScatterGatherEntry.len).sum := by
  simp [guestBytes, length_flatMap]

lemma slice_guestBytes {i b l : ℕ} (he : sg[i]? = some e) (hl : b + l ≤ e.len) :
    ((guestBytes sg).drop (bytesBefore sg (i, b))).take l = bytes ((e.base + b) % 2 ^ 64, l) := by
  obtain ⟨hi, rfl⟩ := List.getElem?_eq_some_iff.mp he
  have hsplit : guestBytes sg = guestBytes (sg.take i) ++
      (bytes (sg[i].base, sg[i].len) ++ guestBytes (sg.drop (i + 1))) := by
    have hsg : sg = sg.take i ++ sg[i] :: sg.drop (i + 1) := by
      rw [← drop_eq_getElem_cons hi, take_append_drop]
    conv_lhs => rw [hsg]
    rw [guestBytes, flatMap_append, flatMap_cons]
    rfl
  have hbefore : bytesBefore sg (i, b) = (guestBytes (sg.take i)).length + b := by
    rw [length_guestBytes, bytesBefore]
  rw [hsplit, hbefore, drop_length_add_append, drop_append_of_le_length (by simp; omega),
    take_append_of_le_length (by simp; omega)]
  refine ext_getElem (by simp; omega) fun j hj hj' => ?_
  simp [bytes, getElem_take, getElem_drop, Nat.mod_add_mod, add_assoc]

lemma transfer_append (offset : ℕ) (l l' : List ℕ) :
    transfer offset (l ++ l') = transfer offset l ++ transfer (offset + l.length) l' := by
  rw [transfer, mapIdx_append, transfer, transfer]
  congr 2
  funext k a
  rw [add_assoc, add_comm l.length]

@[simp] lemma length_transfer (offset : ℕ) (l : List ℕ) :
    (transfer offset l).length = l.length := by
  simp [transfer]

/-! ## The number of bytes of a request -/

lemma toNat_nbSectors (y : ℕ) : (nbSectors y).toNat ≤ y / 512 ∧ (nbSectors y).toNat < 2 ^ 31 ∧
    (y / 512 < 2 ^ 31 → (nbSectors y).toNat = y / 512) := by
  unfold nbSectors
  generalize y / 512 = q
  have hmod : Int.bmod (q : ℤ) (2 ^ 32) = (q : ℤ) % 2 ^ 32 ∧ (q : ℤ) % 2 ^ 32 < 2 ^ 31 ∨
      Int.bmod (q : ℤ) (2 ^ 32) < 0 ∧ 2 ^ 31 ≤ (q : ℤ) % 2 ^ 32 := by
    rw [Int.bmod]
    omega
  omega

/-- A request is for all the bytes that are mapped exactly if they are whole sectors and the number
of these is an `int`. -/
lemma request_bytes (x : ℕ) : (nbSectors (x % 2 ^ 64)).toNat * 512 ≤ x ∧
      ((nbSectors (x % 2 ^ 64)).toNat * 512 = x ↔ 512 ∣ x ∧ x < 512 * 2 ^ 31) := by
  generalize hy : x % 2 ^ 64 = y at *
  obtain ⟨hle, hint, hsmall⟩ := toNat_nbSectors y
  refine ⟨by omega, fun heq => ⟨Dvd.intro_left _ heq, by omega⟩, ?_⟩
  rintro ⟨hdvd, hx⟩
  have hyx : y = x := by rw [← hy, Nat.mod_eq_of_lt (by omega)]
  rw [hyx] at hsmall ⊢
  rw [hsmall (by omega)]
  exact Nat.div_mul_cancel hdvd

lemma position_succ_of_some (hk : result n = some k) (he : sg[(cursor sg result n).1]? = some e) :
    position sg result (n + 1) = position sg result n + min (k + 1)
      (e.len - (cursor sg result n).2) := by
  rw [position, cursor, hk]
  exact (advance_some (cursor_inList sg result n) he).2.1

lemma position_le_succ (n : ℕ) : position sg result n ≤ position sg result (n + 1) := by
  rcases hk : result n with _ | k
  · rw [position, position, cursor_succ_of_none hk]
  rcases he : sg[(cursor sg result n).1]? with _ | e
  · rw [position, position, cursor, hk, advance, he]
  · rw [position_succ_of_some hk he]
    exact Nat.le_add_right _ _

lemma start_le (n : ℕ) : start result n ≤ n := by
  induction n with
  | zero => exact le_rfl
  | succ n ih =>
    rw [start]
    split_ifs <;> omega

lemma start_of_none (h : result n = none) : start result (n + 1) = n + 1 := if_pos h

lemma start_of_some (h : result n = some k) : start result (n + 1) = start result n :=
  if_neg (by simp [h])

lemma position_start_of_none (h : result n = none) :
    position sg result (start result (n + 1)) = position sg result n := by
  rw [start_of_none h, position, cursor_succ_of_none h, position]

variable (sg result) in
lemma position_start_add_roundBytes (n : ℕ) :
    position sg result (start result n) + roundBytes sg result n = position sg result n :=
  Nat.add_sub_cancel' (monotone_nat_of_le_succ position_le_succ (start_le n))

lemma roundBytes_self (h : start result n = n) : roundBytes sg result n = 0 := by
  rw [roundBytes, h, Nat.sub_self]

end CursorLemmas

/-! ## One step -/

section Step

variable {sg : List ScatterGatherEntry} {result : ℕ → Option ℕ} {dbs : DMAAIOCB} {n : ℕ}

/-- The state before the call `n`: what is mapped since the last failure. -/
structure LoopInvariant (sg : List ScatterGatherEntry) (result : ℕ → Option ℕ) (n : ℕ)
    (dbs : DMAAIOCB) : Prop where
  phase : dbs.phase = .looping
  calls : dbs.mapCalls = n
  cursor_eq : (dbs.sgCurIndex, dbs.sgCurByte) = cursor sg result n
  mapped : dbs.iov.flatMap bytes =
    ((guestBytes sg).drop (position sg result (start result n))).take (roundBytes sg result n)
  size : dbs.iovSize = roundBytes sg result n % 2 ^ 64
  completions : dbs.completions = []

/-- The number of bytes that a request after the call `n` moves. -/
def moved (sg : List ScatterGatherEntry) (result : ℕ → Option ℕ) (n : ℕ) : ℕ :=
  (nbSectors (roundBytes sg result n % 2 ^ 64)).toNat * 512

lemma afterLoop_spec (sg : List ScatterGatherEntry) (dbs : DMAAIOCB) :
    (afterLoop sg dbs).moves = dbs.moves ++ transfer (dbs.sectorNum * 512)
        ((dbs.iov.flatMap bytes).take ((nbSectors dbs.iovSize).toNat * 512)) ∧
      (afterLoop sg dbs).sectorNum = dbs.sectorNum + dbs.iovSize / 512 ∧
      (afterLoop sg dbs).iov = [] ∧ (afterLoop sg dbs).iovSize = 0 ∧
      (afterLoop sg dbs).sgCurIndex = dbs.sgCurIndex ∧
        (afterLoop sg dbs).sgCurByte = dbs.sgCurByte ∧
      (afterLoop sg dbs).mapCalls = dbs.mapCalls ∧
      (dbs.sgCurIndex = sg.length → (afterLoop sg dbs).phase = .done ∧
        (afterLoop sg dbs).completions = dbs.completions ++ [0]) ∧
      (dbs.sgCurIndex ≠ sg.length → (afterLoop sg dbs).phase = .looping ∧
        (afterLoop sg dbs).completions = dbs.completions) := by
  have hzero : (nbSectors 0).toNat = 0 := Nat.le_zero.mp (toNat_nbSectors 0).1
  have hnothing : ∀ l : List ℕ, transfer (dbs.sectorNum * 512)
      (l.take ((nbSectors 0).toNat * 512)) = [] := by
    intro l
    rw [hzero]
    rfl
  by_cases hsize : dbs.iovSize = 0 <;> by_cases hend : dbs.sgCurIndex = sg.length <;>
    simp [afterLoop, dmaBdrvCb, dmaComplete, dmaBdrvUnmap, ioFunc, hsize, hend, hnothing]

lemma step_some (h : LoopInvariant sg result n dbs) (hk : result n = some k)
    (hlt : (cursor sg result n).1 < sg.length) :
    LoopInvariant sg result (n + 1) (step sg result dbs) ∧ (step sg result dbs).moves = dbs.moves ∧
      (step sg result dbs).sectorNum = dbs.sectorNum := by
  obtain ⟨hphase, hcalls, hcursor, hmapped, hsize, hcomp⟩ := h
  have hindex : dbs.sgCurIndex = (cursor sg result n).1 := congrArg Prod.fst hcursor
  have hbyte : dbs.sgCurByte = (cursor sg result n).2 := congrArg Prod.snd hcursor
  obtain ⟨e, he⟩ : ∃ e, sg[(cursor sg result n).1]? = some e := ⟨_, getElem?_eq_getElem hlt⟩
  have hle := (cursor_inList sg result n).byte e he
  set l := min (k + 1) (e.len - (cursor sg result n).2) with hl
  have hstart := start_of_some hk
  have hpos : position sg result (n + 1) = position sg result n + l := position_succ_of_some hk he
  have hround : roundBytes sg result (n + 1) = roundBytes sg result n + l := by
    have := position_start_add_roundBytes sg result n
    rw [roundBytes, hstart, hpos]
    omega
  have hslice : ((guestBytes sg).drop (position sg result (start result n))).take
      (roundBytes sg result (n + 1)) =
      ((guestBytes sg).drop (position sg result (start result n))).take (roundBytes sg result n) ++
        bytes ((e.base + (cursor sg result n).2) % 2 ^ 64, l) := by
    have hb := slice_guestBytes (b := (cursor sg result n).2) (l := l) he (by omega)
    rw [hround, take_add, drop_drop, position_start_add_roundBytes, ← hb]
    rfl
  have hmapped' : (dbs.iov ++ [((e.base + (cursor sg result n).2) % 2 ^ 64, l)]).flatMap bytes =
      ((guestBytes sg).drop (position sg result (start result (n + 1)))).take
        (roundBytes sg result (n + 1)) := by
    rw [flatMap_append, hmapped, hstart, hslice]
    simp
  have hsize' : (dbs.iovSize + l) % 2 ^ 64 = roundBytes sg result (n + 1) % 2 ^ 64 := by
    rw [hsize, hround, Nat.mod_add_mod]
  have hcursor' : cursor sg result (n + 1) =
      if (cursor sg result n).2 + l = e.len then ((cursor sg result n).1 + 1, 0)
      else ((cursor sg result n).1, (cursor sg result n).2 + l) := by
    rw [cursor, hk, advance, he]
  simp only [step, hphase, hindex, he, hcalls, hk, hbyte, ← hl]
  split_ifs with hfull
  · rw [if_pos hfull] at hcursor'
    exact ⟨⟨rfl, rfl, hcursor'.symm, hmapped', hsize', hcomp⟩, rfl, rfl⟩
  · rw [if_neg hfull] at hcursor'
    exact ⟨⟨rfl, rfl, hcursor'.symm, hmapped', hsize', hcomp⟩, rfl, rfl⟩

lemma step_ends (h : LoopInvariant sg result n dbs)
    (hend : result n = none ∨ (cursor sg result n).1 = sg.length) :
    (step sg result dbs).moves = dbs.moves ++ transfer (dbs.sectorNum * 512)
        (((guestBytes sg).drop (position sg result (start result n))).take (moved sg result n)) ∧
      (step sg result dbs).sectorNum = dbs.sectorNum + roundBytes sg result n % 2 ^ 64 / 512 ∧
      ((cursor sg result n).1 = sg.length →
        (step sg result dbs).phase = .done ∧ (step sg result dbs).completions = [0]) ∧
      ((cursor sg result n).1 ≠ sg.length →
        LoopInvariant sg result (n + 1) (step sg result dbs)) := by
  obtain ⟨hphase, hcalls, hcursor, hmapped, hsize, hcomp⟩ := h
  have hindex : dbs.sgCurIndex = (cursor sg result n).1 := congrArg Prod.fst hcursor
  have hmoved : ((guestBytes sg).drop (position sg result (start result n))).take
      (moved sg result n) =
      (dbs.iov.flatMap bytes).take ((nbSectors dbs.iovSize).toNat * 512) := by
    rw [hmapped, hsize, take_take, moved, min_eq_left (request_bytes _).1]
  rw [hmoved, ← hsize]
  by_cases hlast : (cursor sg result n).1 = sg.length
  · have hstep : step sg result dbs = afterLoop sg dbs := by
      simp only [step, hphase, hindex, hlast, getElem?_length]
    obtain ⟨hmoves, hsector, -, -, -, -, -, hdone, -⟩ := afterLoop_spec sg dbs
    rw [hstep]
    refine ⟨hmoves, hsector, fun _ => ?_, fun hne => absurd hlast hne⟩
    rw [hcomp] at hdone
    exact hdone (hindex.trans hlast)
  have hk := hend.resolve_right hlast
  obtain ⟨e, he⟩ : ∃ e, sg[(cursor sg result n).1]? = some e :=
    ⟨_, getElem?_eq_getElem (lt_of_le_of_ne (cursor_inList sg result n).index hlast)⟩
  have hstep : step sg result dbs = afterLoop sg { dbs with mapCalls := dbs.mapCalls + 1 } := by
    simp only [step, hphase, hindex, he, hcalls, hk]
  obtain ⟨hmoves, hsector, hiov, hiovSize, hidx, hbyte, hcalls', -, hloop⟩ :=
    afterLoop_spec sg { dbs with mapCalls := dbs.mapCalls + 1 }
  obtain ⟨hphase', hcomp'⟩ := hloop (by rwa [hindex])
  have hround : roundBytes sg result (n + 1) = 0 := roundBytes_self (start_of_none hk)
  rw [hstep]
  refine ⟨hmoves, hsector, fun heq => absurd heq hlast, fun _ => ⟨hphase', ?_, ?_, ?_, ?_, ?_⟩⟩
  · rw [hcalls', hcalls]
  · rw [hidx, hbyte, cursor_succ_of_none hk]
    exact hcursor
  · rw [hiov, hround]
    rfl
  · rw [hiovSize, hround]
    rfl
  · rw [hcomp']
    exact hcomp

end Step

/-! ## Whole transfers -/

section Runs

variable {sg : List ScatterGatherEntry} {sectorNum : ℕ} {result : ℕ → Option ℕ} {n : ℕ}

/-- The first `n` calls are made. -/
def Unfinished (sg : List ScatterGatherEntry) (result : ℕ → Option ℕ) (n : ℕ) : Prop :=
  ∀ k < n, (cursor sg result k).1 < sg.length

lemma run_succ (n : ℕ) : run sg sectorNum result (n + 1) = step sg result
    (run sg sectorNum result n) :=
  Function.iterate_succ_apply' _ _ _

lemma Unfinished.of_succ (h : Unfinished sg result (n + 1)) :
    Unfinished sg result n ∧ (cursor sg result n).1 ≠ sg.length :=
  ⟨fun k hk => h k (by omega), (h n (by omega)).ne⟩

lemma dmaBdrvIo_of_ne_nil (hne : sg ≠ []) : dmaBdrvIo sg sectorNum =
    { sectorNum := sectorNum, sgCurIndex := 0, sgCurByte := 0, iov := [], iovSize := 0
      phase := .looping, mapCalls := 0, moves := [], completions := [] } := by
  have hlen : 0 ≠ sg.length := fun h => hne (length_eq_zero_iff.mp h.symm)
  simp [dmaBdrvIo, dmaBdrvCb, dmaBdrvUnmap, hlen]

variable (sectorNum) in
/-- Before every call that is made the invariant holds. -/
theorem loopInvariant (hne : sg ≠ []) (n : ℕ) (h : Unfinished sg result n) :
    LoopInvariant sg result n (run sg sectorNum result n) := by
  induction n with
  | zero =>
    rw [run, Function.iterate_zero_apply, dmaBdrvIo_of_ne_nil hne]
    refine ⟨rfl, rfl, rfl, ?_, ?_, rfl⟩
    · simp [roundBytes, start]
    · simp [roundBytes, start]
  | succ n ih =>
    obtain ⟨hn, hlast⟩ := h.of_succ
    rw [run_succ]
    rcases hk : result n with _ | k
    · exact (step_ends (ih hn) (.inl hk)).2.2.2 hlast
    · exact (step_some (ih hn) hk (h n (by omega))).1

lemma run_of_done (hdone : (run sg sectorNum result n).phase = .done) {m : ℕ} (hm : n ≤ m) :
    run sg sectorNum result m = run sg sectorNum result n := by
  induction m, hm using Nat.le_induction with
  | base => rfl
  | succ m _ ih => rw [run_succ, ih, step, hdone]

lemma exists_last (results : MapResults) (sg : List ScatterGatherEntry) :
    ∃ n, Unfinished sg results.result n ∧ (cursor sg results.result n).1 = sg.length := by
  have hex := cursor_finishes sg results.retried
  refine ⟨Nat.find hex, fun k hk => ?_, Nat.find_spec hex⟩
  exact lt_of_le_of_ne (cursor_inList sg results.result k).index (Nat.find_min hex hk)

lemma position_last (h : (cursor sg result n).1 = sg.length) :
    position sg result n = (guestBytes sg).length := by
  rw [position, bytesBefore, (cursor_inList sg result n).atEnd h, h, take_length,
    length_guestBytes, add_zero]

/-! ## A transfer of whole sectors -/

lemma position_le (n : ℕ) : position sg result n ≤ (guestBytes sg).length := by
  rw [length_guestBytes]
  exact bytesBefore_le (cursor_inList sg result n)

lemma step_whole (hinv : LoopInvariant sg result n (run sg sectorNum result n))
    (hend : result n = none ∨ (cursor sg result n).1 = sg.length)
    (hdvd : 512 ∣ roundBytes sg result n) (hlt : roundBytes sg result n < 512 * 2 ^ 31)
    (hmoves : (run sg sectorNum result n).moves = transfer (sectorNum * 512)
      ((guestBytes sg).take (position sg result (start result n))))
    (hsector : (run sg sectorNum result n).sectorNum * 512 =
      sectorNum * 512 + position sg result (start result n)) :
    (run sg sectorNum result (n + 1)).moves =
        transfer (sectorNum * 512) ((guestBytes sg).take (position sg result n)) ∧
      (run sg sectorNum result (n + 1)).sectorNum * 512 =
        sectorNum * 512 + position sg result n := by
  obtain ⟨hmoves', hsector', -, -⟩ := step_ends hinv hend
  have hmoved : moved sg result n = roundBytes sg result n := (request_bytes _).2.mpr ⟨hdvd, hlt⟩
  have hpos := position_start_add_roundBytes sg result n
  have hlen : ((guestBytes sg).take (position sg result (start result n))).length =
      position sg result (start result n) := by
    rw [length_take, min_eq_left (position_le _)]
  rw [run_succ, hmoves', hsector', hmoves, hsector, hmoved]
  constructor
  · rw [← hpos, take_add, transfer_append, hlen]
  · rw [Nat.mod_eq_of_lt (by omega), add_mul, hsector, Nat.div_mul_cancel hdvd, ← hpos, add_assoc]

variable (sectorNum) in
lemma moved_so_far (hne : sg ≠ []) (hwhole : WholeSectors sg result) (n : ℕ)
    (h : Unfinished sg result n) :
    (run sg sectorNum result n).moves = transfer (sectorNum * 512)
        ((guestBytes sg).take (position sg result (start result n))) ∧
      (run sg sectorNum result n).sectorNum * 512 =
        sectorNum * 512 + position sg result (start result n) := by
  induction n with
  | zero =>
    rw [run, Function.iterate_zero_apply, dmaBdrvIo_of_ne_nil hne]
    simp [start, position, bytesBefore, cursor, transfer]
  | succ n ih =>
    obtain ⟨hn, -⟩ := h.of_succ
    obtain ⟨hmoves, hsector⟩ := ih hn
    have hinv := loopInvariant sectorNum hne n hn
    rcases hk : result n with _ | k
    · obtain ⟨hdvd, hlt⟩ := hwhole n ⟨hn, .inl hk⟩
      rw [position_start_of_none hk]
      exact step_whole hinv (.inl hk) hdvd hlt hmoves hsector
    · obtain ⟨-, hmoves', hsector'⟩ := step_some hinv hk (h n (by omega))
      rw [start_of_some hk, run_succ, hmoves', hsector']
      exact ⟨hmoves, hsector⟩

lemma transfer_take_isPrefix (offset m : ℕ) (l : List ℕ) :
    transfer offset (l.take m) <+: transfer offset l := by
  refine ⟨transfer (offset + (l.take m).length) (l.drop m), ?_⟩
  rw [← transfer_append, take_append_drop]

lemma transferRight_nil : TransferRight [] sectorNum result := by
  have hdone : ∀ n, run [] sectorNum result n = run [] sectorNum result 0 := fun n =>
    run_of_done rfl (Nat.zero_le n)
  refine ⟨⟨0, rfl⟩, fun n => ?_, fun n => ?_, fun n _ => ?_⟩
  · rw [hdone n]
    exact nil_prefix
  · rw [hdone n]
    exact fun h => nomatch h
  · rw [hdone n]
    exact ⟨rfl, rfl⟩

/-- Requests for whole sectors move every byte to its place. -/
lemma transferRight_of_wholeSectors {results : MapResults} (hne : sg ≠ [])
    (hwhole : WholeSectors sg results.result) : TransferRight sg sectorNum results.result := by
  obtain ⟨last, hlast, hend⟩ := exists_last results sg
  have hinv := loopInvariant sectorNum hne last hlast
  obtain ⟨hmoves, hsector⟩ := moved_so_far sectorNum hne hwhole last hlast
  obtain ⟨hdvd, hlt⟩ := hwhole last ⟨hlast, .inr hend⟩
  obtain ⟨hdone, hcomp⟩ := (step_ends hinv (.inr hend)).2.2.1 hend
  rw [← run_succ] at hdone hcomp
  have hall : (run sg sectorNum results.result (last + 1)).moves =
      transfer (sectorNum * 512) (guestBytes sg) := by
    rw [(step_whole hinv (.inr hend) hdvd hlt hmoves hsector).1, position_last hend, take_length]
  -- up to the last call the transfer is in its loop, and after it nothing changes
  have hcases : ∀ n, Unfinished sg results.result n ∨
      run sg sectorNum results.result n = run sg sectorNum results.result (last + 1) := by
    intro n
    rcases Nat.lt_or_ge last n with hn | hn
    · exact .inr (run_of_done hdone hn)
    · exact .inl fun k hk => hlast k (by omega)
  refine ⟨⟨last + 1, hdone⟩, fun n => ?_, fun n hloop => ?_, fun n hn => ?_⟩
  · rcases hcases n with hn | hn
    · rw [(moved_so_far sectorNum hne hwhole n hn).1]
      exact transfer_take_isPrefix _ _ _
    · rw [hn, hall]
  · rcases hcases n with hn | hn
    · exact (loopInvariant sectorNum hne n hn).completions
    · rw [hn, hdone] at hloop
      cases hloop
  · rcases hcases n with hn' | hn'
    · rw [(loopInvariant sectorNum hne n hn').phase] at hn
      cases hn
    · rw [hn']
      exact ⟨hall, hcomp⟩

/-! ## Bytes that are lost -/

variable (sg result) in
lemma moved_le (n : ℕ) : moved sg result n ≤ roundBytes sg result n := (request_bytes _).1

lemma step_length (hinv : LoopInvariant sg result n (run sg sectorNum result n))
    (hend : result n = none ∨ (cursor sg result n).1 = sg.length) :
    (run sg sectorNum result (n + 1)).moves.length ≤
      (run sg sectorNum result n).moves.length + moved sg result n := by
  rw [run_succ, (step_ends hinv hend).1, length_append, length_transfer]
  exact Nat.add_le_add_left (length_take_le _ _) _

variable (sectorNum) in
lemma moves_length_le (hne : sg ≠ []) (lost : ℕ) {n m : ℕ} (hnm : n ≤ m)
    (hm : Unfinished sg result m)
    (hn : (run sg sectorNum result n).moves.length + lost ≤ position sg result (start result n)) :
    (run sg sectorNum result m).moves.length + lost ≤ position sg result (start result m) := by
  induction m, hnm using Nat.le_induction with
  | base => exact hn
  | succ m _ ih =>
    obtain ⟨hm', -⟩ := hm.of_succ
    have hinv := loopInvariant sectorNum hne m hm'
    have hle := ih hm'
    rcases hk : result m with _ | k
    · have hstep := step_length hinv (.inl hk)
      have hmoved := moved_le sg result m
      have hround := position_start_add_roundBytes sg result m
      rw [position_start_of_none hk]
      omega
    · obtain ⟨-, hmoves, -⟩ := step_some hinv hk (hm m (by omega))
      rw [start_of_some hk, run_succ, hmoves]
      exact hle

/-- A transfer that is right loses nothing, so its requests are for all that is mapped. -/
lemma wholeSectors_of_transferRight {results : MapResults} (hne : sg ≠ [])
    (hright : TransferRight sg sectorNum results.result) : WholeSectors sg results.result := by
  rintro n ⟨hn, hend⟩
  refine (request_bytes _).2.mp (le_antisymm (moved_le sg results.result n)
    (not_lt.mp fun hlost => ?_))
  change moved sg results.result n < _ at hlost
  have hinv := loopInvariant sectorNum hne n hn
  have hle := moves_length_le sectorNum hne 0 (Nat.zero_le n) hn (by
    rw [run, Function.iterate_zero_apply, dmaBdrvIo_of_ne_nil hne]
    exact Nat.zero_le _)
  have hstep := step_length hinv hend
  have hround := position_start_add_roundBytes sg results.result n
  -- the bytes that the request of this round loses are missing at the end
  suffices hshort : ∃ m, (run sg sectorNum results.result m).phase = .done ∧
      (run sg sectorNum results.result m).moves.length < (guestBytes sg).length by
    obtain ⟨m, hdone, hlt⟩ := hshort
    rw [(hright.complete m hdone).1, length_transfer] at hlt
    exact lt_irrefl _ hlt
  by_cases hfinished : (cursor sg results.result n).1 = sg.length
  · refine ⟨n + 1, ?_, ?_⟩
    · rw [run_succ]
      exact ((step_ends hinv hend).2.2.1 hfinished).1
    · rw [← position_last hfinished]
      omega
  obtain ⟨last, hlast, hlastend⟩ := exists_last results sg
  have hk := hend.resolve_right hfinished
  have hnlast : n + 1 ≤ last := by
    by_contra hnot
    have hcases : last = n ∨ last < n := by omega
    rcases hcases with rfl | hlt
    · exact hfinished hlastend
    · exact absurd hlastend (hn last hlt).ne
  have hlost' := moves_length_le sectorNum hne 1 hnlast hlast (by
    rw [position_start_of_none hk]
    omega)
  have hinv' := loopInvariant sectorNum hne last hlast
  have hstep' := step_length hinv' (.inr hlastend)
  have hmoved' := moved_le sg results.result last
  have hround' := position_start_add_roundBytes sg results.result last
  refine ⟨last + 1, ?_, ?_⟩
  · rw [run_succ]
    exact ((step_ends hinv' (.inr hlastend)).2.2.1 hlastend).1
  · rw [← position_last hlastend]
    omega

end Runs

/-- A transfer is right exactly if each of its requests is for whole sectors. -/
theorem transferRight_iff (sg : List ScatterGatherEntry) (sectorNum : ℕ) (results : MapResults) :
    TransferRight sg sectorNum results.result ↔ WholeSectors sg results.result := by
  by_cases hne : sg = []
  · subst hne
    refine iff_of_true transferRight_nil ?_
    rintro (_ | n) ⟨hn, -⟩
    · simp [roundBytes, start]
    · exact absurd (hn 0 (by omega)) (by simp)
  · exact ⟨wholeSectors_of_transferRight hne, transferRight_of_wholeSectors hne⟩

/-- Two entries of half a sector.  The second one cannot be mapped at first. -/
def halfSectors : List ScatterGatherEntry := [⟨0, 256⟩, ⟨4096, 256⟩]

def secondFails : MapResults where
  result n := if n = 1 then none else some 4095
  retried n := ⟨n + 2, by omega, by simp⟩

/-- Both requests are for no sector: the transfer completes with success, and nothing was moved. -/
theorem halfSectors_lost :
    512 ∣ (guestBytes halfSectors).length ∧ ¬ TransferRight halfSectors 0 secondFails.result := by
  refine ⟨by decide +kernel, fun hright => ?_⟩
  have hdone : (run halfSectors 0 secondFails.result 4).phase = .done ∧
      (run halfSectors 0 secondFails.result 4).moves.length = 0 := by decide +kernel
  have hlen : (guestBytes halfSectors).length = 512 := by decide +kernel
  have hmoves := congrArg length (hright.complete 4 hdone.1).1
  rw [hdone.2, length_transfer, hlen] at hmoves
  cases hmoves

end Qemu.Dma
