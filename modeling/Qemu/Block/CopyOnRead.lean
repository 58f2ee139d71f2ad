import Qemu.Block.CheckRequest

/-!
# Copy-on-read beside guest writes

`bdrv_co_do_readv` and `bdrv_co_do_writev` of `block.c`.  A copy-on-read reads whole clusters and
writes them to the image, in two steps between which other coroutines run.  Every request is in a
list while it accesses the image.  As long as there is a copy-on-read request, a new request waits
until no range in the list, which is not rounded to clusters, overlaps the clusters that it touches.
The count of the sectors of these clusters is an `int`: if it does not fit, the request overlaps
nothing, and what it writes is lost to a copy-on-read.

The image is modelled by what is read from it.  The driver reads and writes the sectors of a request
one by one, in any order, and other requests act in between.

**Main results:**
- `overlaps_of_mem`: requests that share a cluster overlap, whichever of them is rounded, if their
  counts fit
- `Invariant.step`: copy-on-read requests and guest writes in the list do not share clusters, and
  what a copy-on-read request has read is still there
- `copyOnRead_atomic`: then copy-on-read never changes what is read from the image
- `hugeWrite_lost`: otherwise it does
-/

namespace Qemu.Block.CopyOnRead

open List CheckRequest

/-! ## Ranges -/

/-- `tracked_request_overlaps`, with signed comparisons of 64 bits. -/
def trackedRequestOverlaps (reqSector : BitVec 64) (reqNb : BitVec 32) (sector : BitVec 64)
    (nb : BitVec 32) : Bool :=
  if (reqSector + reqNb.signExtend 64).sle sector then false
  else if (sector + nb.signExtend 64).sle reqSector then false else true

/-! ## Requests -/

variable {ι α : Type} [DecidableEq ι]

/-- A read, with or without copy-on-read, or a write of the guest. -/
inductive Kind (α : Type)
  | read (copyOnRead : Bool)
  | write (data : ℕ → α)

/-- The arguments of a request that `bdrv_check_request` has let through. -/
structure Request (α : Type) where
  sector : BitVec 64
  nb : BitVec 32
  kind : Kind α
  nb_lt : nb.toNat < 2 ^ 31
  end_le : sector.toNat + nb.toNat ≤ 2 ^ 54

namespace Request

variable (r : Request α)

/-- `flags & BDRV_REQ_COPY_ON_READ`. -/
def copies : Bool :=
  match r.kind with
  | .read copyOnRead => copyOnRead
  | .write _ => false

def Has (x : ℕ) : Prop := r.sector.toNat ≤ x ∧ x < r.sector.toNat + r.nb.toNat

/-- `round_to_clusters` of the request. -/
def rounded (c : BitVec 64) : BitVec 64 × BitVec 32 := roundToClusters c r.sector r.nb

/-- The sectors of the clusters that the request touches. -/
def HasRounded (c : BitVec 64) (x : ℕ) : Prop :=
  (r.rounded c).1.toNat ≤ x ∧ (x : ℤ) < (r.rounded c).1.toNat + (r.rounded c).2.toInt

/-- The sectors of these clusters can be counted in an `int`. -/
def Fits (c : BitVec 64) : Prop :=
  c ≠ 0 → roundedNb c.toNat r.sector.toNat r.nb.toNat < 2 ^ 31

end Request

/-- How far a request has come.  What was read so far is in the buffers. -/
inductive Phase (ι α : Type)
  | idle
  | waiting (on : ι)
  | checking
  | reading (buf : ℕ → Option α)
  | copyReading (buf : ℕ → Option α)
  | copyWriting (buf : ℕ → Option α)
  | writing
  | done

def firstPhase : Kind α → Phase ι α
  | .read true => .checking
  | .read false => .reading fun _ => none
  | .write _ => .writing

def Phase.Active : Phase ι α → Prop
  | .idle => False
  | .waiting _ => False
  | .done => False
  | _ => True

/-- A device with its requests.  `plain` is what the image would hold if only the guest wrote to
it. -/
structure State (ι α : Type) where
  disk : ℕ → α
  plain : ℕ → α
  inFlight : ℕ
  tracked : List ι
  phase : ι → Phase ι α

namespace State

variable (c : BitVec 64) (reqs : ι → Request α) (s : State ι α)

def setPhase (i : ι) (p : Phase ι α) : State ι α := { s with phase := Function.update s.phase i p }

/-- `tracked_request_begin`. -/
def trackedRequestBegin (i : ι) : State ι α :=
  { s with tracked := i :: s.tracked }.setPhase i (firstPhase (reqs i).kind)

/-- The request overlaps what a new one touches. -/
def overlapping (i j : ι) : Bool :=
  trackedRequestOverlaps (reqs j).sector (reqs j).nb ((reqs i).rounded c).1 ((reqs i).rounded c).2

/-- A round of the loop of `wait_for_overlapping_requests`. -/
def waitForOverlappingRequests (i : ι) : State ι α :=
  match s.tracked.find? (overlapping c reqs i) with
  | some j => s.setPhase i (.waiting j)
  | none => s.trackedRequestBegin reqs i

/-- The beginning of `bdrv_co_do_readv` and of `bdrv_co_do_writev`. -/
def start (i : ι) : State ι α :=
  let s := if (reqs i).copies = true then { s with inFlight := s.inFlight + 1 } else s
  if s.inFlight ≠ 0 then s.waitForOverlappingRequests c reqs i else s.trackedRequestBegin reqs i

/-- `tracked_request_end`, and the end of both functions. -/
def finish (i : ι) : State ι α :=
  let s := { s with tracked := s.tracked.erase i }.setPhase i .done
  if (reqs i).copies = true then { s with inFlight := s.inFlight - 1 } else s

def writeSector (x : ℕ) (v : α) : State ι α := { s with disk := Function.update s.disk x v }

end State

/-- What can happen next.  Drivers may fail at any point. -/
inductive Step (c : BitVec 64) (reqs : ι → Request α) : State ι α → State ι α → Prop
  | start {s : State ι α} (i : ι) (h : s.phase i = .idle) : Step c reqs s (s.start c reqs i)
  | retry {s : State ι α} (i j : ι) (h : s.phase i = .waiting j) :
      Step c reqs s (s.waitForOverlappingRequests c reqs i)
  | checkFails {s : State ι α} (i : ι) (h : s.phase i = .checking) : Step c reqs s (s.finish reqs i)
  | allocated {s : State ι α} (i : ι) (h : s.phase i = .checking) :
      Step c reqs s (s.setPhase i (.reading fun _ => none))
  | notAllocated {s : State ι α} (i : ι) (h : s.phase i = .checking) :
      Step c reqs s (s.setPhase i (.copyReading fun _ => none))
  | read {s : State ι α} (i : ι) (buf : ℕ → Option α) (x : ℕ) (h : s.phase i = .reading buf)
      (hx : (reqs i).Has x) :
      Step c reqs s (s.setPhase i (.reading (Function.update buf x (some (s.disk x)))))
  | readEnds {s : State ι α} (i : ι) (buf : ℕ → Option α) (h : s.phase i = .reading buf) :
      Step c reqs s (s.finish reqs i)
  | copyRead {s : State ι α} (i : ι) (buf : ℕ → Option α) (x : ℕ) (h : s.phase i = .copyReading buf)
      (hx : (reqs i).HasRounded c x) :
      Step c reqs s (s.setPhase i (.copyReading (Function.update buf x (some (s.disk x)))))
  | copyReadFails {s : State ι α} (i : ι) (buf : ℕ → Option α) (h : s.phase i = .copyReading buf) :
      Step c reqs s (s.finish reqs i)
  | copyReadEnds {s : State ι α} (i : ι) (buf : ℕ → Option α) (h : s.phase i = .copyReading buf)
      (hall : ∀ x, (reqs i).HasRounded c x → (buf x).isSome = true) :
      Step c reqs s (s.setPhase i (.copyWriting buf))
  | copyWrite {s : State ι α} (i : ι) (buf : ℕ → Option α) (x : ℕ) (v : α)
      (h : s.phase i = .copyWriting buf) (hx : (reqs i).HasRounded c x) (hv : buf x = some v) :
      Step c reqs s (s.writeSector x v)
  | copyWriteEnds {s : State ι α} (i : ι) (buf : ℕ → Option α) (h : s.phase i = .copyWriting buf) :
      Step c reqs s (s.finish reqs i)
  | write {s : State ι α} (i : ι) (x : ℕ) (data : ℕ → α) (h : s.phase i = .writing)
      (hdata : (reqs i).kind = .write data) (hx : (reqs i).Has x) :
      Step c reqs s { s.writeSector x (data x) with plain := Function.update s.plain x (data x) }
  | writeEnds {s : State ι α} (i : ι) (h : s.phase i = .writing) : Step c reqs s (s.finish reqs i)

def State.init (disk : ℕ → α) : State ι α := ⟨disk, disk, 0, [], fun _ => .idle⟩

/-- The states that steps lead to. -/
inductive Reachable (c : BitVec 64) (reqs : ι → Request α) : State ι α → Prop
  | init (disk : ℕ → α) : Reachable c reqs (.init disk)
  | step {s s' : State ι α} : Reachable c reqs s → Step c reqs s s' → Reachable c reqs s'

/-! ## Sharing a cluster -/

section Ranges

variable {c : BitVec 64} {r r' : Request α} {x : ℕ}

lemma toInt_end {sector : BitVec 64} (nb : BitVec 32) (h : sector.toNat ≤ 2 ^ 54) :
    (sector + nb.signExtend 64).toInt = sector.toNat + nb.toInt := by
  have hs := sector.toInt_eq_toNat_cond
  have hnb := nb.toInt_eq_toNat_cond
  rw [if_pos (by omega)] at hs
  rw [BitVec.toInt_add, hs, BitVec.toInt_signExtend_of_le (by decide)]
  refine Int.bmod_eq_of_le ?_ ?_ <;> split at hnb <;> omega

lemma overlaps_iff {sector sector' : BitVec 64} {nb nb' : BitVec 32} (h : sector.toNat ≤ 2 ^ 54)
    (h' : sector'.toNat ≤ 2 ^ 54) : trackedRequestOverlaps sector nb sector' nb' = true ↔
      (sector'.toNat : ℤ) < sector.toNat + nb.toInt ∧
        (sector.toNat : ℤ) < sector'.toNat + nb'.toInt := by
  have hs := sector.toInt_eq_toNat_cond
  have hs' := sector'.toInt_eq_toNat_cond
  rw [if_pos (by omega)] at hs hs'
  simp only [trackedRequestOverlaps, BitVec.sle_iff_toInt_le, toInt_end nb h,
    toInt_end nb' h', hs, hs']
  split_ifs <;> simp <;> omega

lemma Request.toInt_nb (r : Request α) : r.nb.toInt = r.nb.toNat := by
  have := r.nb_lt
  rw [BitVec.toInt_eq_toNat_cond, if_pos (by omega)]

lemma Request.rounded_le (r : Request α) (hc : c.toNat < 2 ^ 22) :
    (r.rounded c).1.toNat ≤ 2 ^ 54 := by
  have hend := r.end_le
  by_cases h0 : c = 0
  · rw [rounded, roundToClusters, if_pos h0]
    simp only
    omega
  · have hle := Nat.div_mul_le_self r.sector.toNat c.toNat
    rw [rounded, (roundToClusters_eq h0 hc (by omega) r.nb_lt).1]
    omega

/-- The clusters of a request whose count fits: whole ones, from that of its first sector to that of
its last. -/
lemma Request.Fits.rounded_eq (h : r.Fits c) (hc : c.toNat < 2 ^ 22) (h0 : c ≠ 0) :
    (r.rounded c).1.toNat = r.sector.toNat / c.toNat * c.toNat ∧ ∃ k,
      (r.rounded c).2.toInt = (k * c.toNat : ℕ) ∧
      r.sector.toNat % c.toNat + r.nb.toNat ≤ k * c.toNat ∧
      k * c.toNat < r.sector.toNat % c.toNat + r.nb.toNat + c.toNat := by
  have hend := r.end_le
  have hpos : 0 < c.toNat := Nat.pos_of_ne_zero fun h => h0 (BitVec.eq_of_toNat_eq h)
  have hfits := h h0
  obtain ⟨hstart, hcount⟩ :=
    roundToClusters_eq h0 hc (show r.sector.toNat < 2 ^ 55 by omega) r.nb_lt
  refine ⟨hstart, (r.sector.toNat % c.toNat + r.nb.toNat + c.toNat - 1) / c.toNat, ?_, ?_, ?_⟩
  · rw [rounded, hcount, BitVec.toInt_eq_toNat_cond, BitVec.toNat_ofNat,
      Nat.mod_eq_of_lt (by omega), if_pos (by omega), roundedNb]
  · have := Nat.lt_div_mul_add (a := r.sector.toNat % c.toNat + r.nb.toNat + c.toNat - 1) hpos
    omega
  · have := Nat.div_mul_le_self (r.sector.toNat % c.toNat + r.nb.toNat + c.toNat - 1) c.toNat
    omega

/-- If the clusters of one request have a sector of another one, the requests overlap. -/
lemma overlaps_of_mem (hc : c.toNat < 2 ^ 22) (h : r.Fits c) (h' : r'.Fits c)
    (hrounded : r.HasRounded c x) (hx : r'.Has x) :
    trackedRequestOverlaps r.sector r.nb (r'.rounded c).1 (r'.rounded c).2 = true := by
  have hend := r.end_le
  rw [overlaps_iff (by omega) (r'.rounded_le hc), r.toInt_nb]
  rw [Request.HasRounded] at hrounded
  rw [Request.Has] at hx
  by_cases h0 : c = 0
  · rw [Request.rounded, roundToClusters, if_pos h0, Request.toInt_nb] at hrounded ⊢
    simp only at hrounded ⊢
    omega
  have hpos : 0 < c.toNat := Nat.pos_of_ne_zero fun h => h0 (BitVec.eq_of_toNat_eq h)
  obtain ⟨hstart, k, hk, hle, hlt⟩ := h.rounded_eq hc h0
  obtain ⟨hstart', k', hk', hle', hlt'⟩ := h'.rounded_eq hc h0
  rw [hstart, hk] at hrounded
  rw [hstart', hk']
  have hdiv := Nat.div_add_mod' r.sector.toNat c.toNat
  have hdiv' := Nat.div_add_mod' r'.sector.toNat c.toNat
  have hmod := Nat.mod_lt r.sector.toNat hpos
  -- The whole cluster of the sector is in both rounded ranges.
  have hfirst : r'.sector.toNat / c.toNat * c.toNat ≤ x / c.toNat * c.toNat :=
    Nat.mul_le_mul_right _ (Nat.div_le_div_right hx.1)
  have hbelow : x / c.toNat < r.sector.toNat / c.toNat + k := by
    rw [Nat.div_lt_iff_lt_mul hpos, add_mul]
    omega
  have hsame : r.sector.toNat / c.toNat ≤ x / c.toNat :=
    (Nat.le_div_iff_mul_le hpos).mpr hrounded.1
  have hbelow' : x / c.toNat < r'.sector.toNat / c.toNat + k' := by
    rw [Nat.div_lt_iff_lt_mul hpos, add_mul]
    omega
  have hmul := Nat.mul_le_mul_right c.toNat hbelow
  have hmul' := Nat.mul_le_mul_right c.toNat (hsame.trans_lt hbelow')
  rw [Nat.succ_mul, add_mul] at hmul hmul'
  omega

lemma not_mem_of_overlaps (hc : c.toNat < 2 ^ 22)
    (h : trackedRequestOverlaps r'.sector r'.nb (r.rounded c).1 (r.rounded c).2 = false)
    (hx : r.HasRounded c x) : ¬ r'.Has x := by
  intro hx'
  have hend := r'.end_le
  rw [← Bool.not_eq_true, overlaps_iff (by omega) (r.rounded_le hc), r'.toInt_nb] at h
  rw [Request.HasRounded] at hx
  rw [Request.Has] at hx'
  omega

end Ranges

/-! ## The invariant -/

/-- The copy-on-read requests that have started and have not ended. -/
def Counted (reqs : ι → Request α) (s : State ι α) (i : ι) : Prop :=
  (reqs i).copies = true ∧ s.phase i ≠ .idle ∧ s.phase i ≠ .done

def Phase.copied : Phase ι α → ℕ → Option α
  | .copyReading buf => buf
  | .copyWriting buf => buf
  | _ => fun _ => none

/-- Only copy-on-read requests come here. -/
def Phase.Copier : Phase ι α → Prop
  | .checking => True
  | .copyReading _ => True
  | .copyWriting _ => True
  | _ => False

/-- The size of a cluster in bytes is an `int`, and the sectors of the clusters of every request can
be counted in an `int`. -/
structure Fitting (c : BitVec 64) (reqs : ι → Request α) : Prop where
  clusters : c.toNat < 2 ^ 22
  fits : ∀ i, (reqs i).Fits c

/-- What holds in all reachable states. -/
structure Invariant (c : BitVec 64) (reqs : ι → Request α) (s : State ι α) : Prop where
  tracked : ∀ i, i ∈ s.tracked ↔ (s.phase i).Active
  nodup : s.tracked.Nodup
  inFlight : ∃ l : List ι, l.Nodup ∧ (∀ i, i ∈ l ↔ Counted reqs s i) ∧ l.length = s.inFlight
  writing : ∀ i, s.phase i = .writing → (reqs i).copies = false
  copier : ∀ i, (s.phase i).Copier → (reqs i).copies = true
  copying : ∀ i x v, (s.phase i).copied x = some v → (reqs i).HasRounded c x ∧ s.disk x = v
  separate : ∀ i j, (s.phase i).Active → (reqs i).copies = true → s.phase j = .writing →
    ∀ x, (reqs i).HasRounded c x → ¬ (reqs j).Has x
  waiting : ∀ i j, s.phase i = .waiting j → (s.phase j).Active ∨ s.phase j = .done
  plain : s.disk = s.plain

section Steps

variable {n : ℕ} {c : BitVec 64} {reqs : ι → Request α} {s s' : State ι α} {i j : ι} {p : Phase ι α}

variable {x : ℕ} {v : α}

omit [DecidableEq ι] in
lemma Phase.Active.ne_idle (h : p.Active) : p ≠ .idle := by
  rintro rfl
  exact h

omit [DecidableEq ι] in
lemma Phase.Active.ne_done (h : p.Active) : p ≠ .done := by
  rintro rfl
  exact h

/-- One request goes on to another phase.  Each field is for one part of the invariant. -/
structure Moves (c : BitVec 64) (reqs : ι → Request α) (i : ι) (p : Phase ι α) (s s' : State ι α) :
    Prop where
  phase : s'.phase = Function.update s.phase i p
  disk : s'.disk = s.disk
  plain : s'.plain = s.plain
  trackedSelf : i ∈ s'.tracked ↔ p.Active
  trackedOther : ∀ k ≠ i, k ∈ s'.tracked ↔ k ∈ s.tracked
  nodup : s'.tracked.Nodup
  inFlight : ∃ l : List ι, l.Nodup ∧ (∀ k, k ∈ l ↔ Counted reqs s' k) ∧ l.length = s'.inFlight
  writing : p = .writing → (reqs i).copies = false
  copier : p.Copier → (reqs i).copies = true
  copying : ∀ x v, p.copied x = some v → (reqs i).HasRounded c x ∧ s.disk x = v
  separate : p.Active → (reqs i).copies = true → ∀ j, s.phase j = .writing →
    ∀ x, (reqs i).HasRounded c x → ¬ (reqs j).Has x
  separateWrite : p = .writing → ∀ k, (s.phase k).Active → (reqs k).copies = true →
    ∀ x, (reqs k).HasRounded c x → ¬ (reqs i).Has x
  waiting : ∀ j, p = .waiting j → j ≠ i ∧ (s.phase j).Active
  ends : (s.phase i).Active ∨ s.phase i = .done → p.Active ∨ p = .done

lemma Invariant.moves (h : Invariant c reqs s) (hm : Moves c reqs i p s s') :
    Invariant c reqs s' := by
  have hself : s'.phase i = p := by rw [hm.phase, Function.update_self]
  have hother : ∀ k, k ≠ i → s'.phase k = s.phase k := fun k hk => by
    rw [hm.phase, Function.update_of_ne hk]
  refine ⟨fun k => ?_, hm.nodup, hm.inFlight, fun k hk => ?_, fun k hk => ?_, fun k x v hv => ?_,
    fun k l hk hcopies hl => ?_, fun k l hk => ?_, ?_⟩
  · rcases eq_or_ne k i with rfl | hne
    · rw [hself]
      exact hm.trackedSelf
    · rw [hother k hne, hm.trackedOther k hne]
      exact h.tracked k
  · rcases eq_or_ne k i with rfl | hne
    · exact hm.writing (hself ▸ hk)
    · exact h.writing k (hother k hne ▸ hk)
  · rcases eq_or_ne k i with rfl | hne
    · exact hm.copier (hself ▸ hk)
    · exact h.copier k (hother k hne ▸ hk)
  · rw [hm.disk]
    rcases eq_or_ne k i with rfl | hne
    · rw [hself] at hv
      exact hm.copying x v hv
    · rw [hother k hne] at hv
      exact h.copying k x v hv
  · rcases eq_or_ne k i with rfl | hki
    · rw [hself] at hk
      rcases eq_or_ne l k with rfl | hlk
      · rw [hm.writing (hself ▸ hl)] at hcopies
        cases hcopies
      · exact hm.separate hk hcopies l (hother l hlk ▸ hl)
    · rw [hother k hki] at hk
      rcases eq_or_ne l i with rfl | hli
      · exact hm.separateWrite (hself ▸ hl) k hk hcopies
      · exact h.separate k l hk hcopies (hother l hli ▸ hl)
  · rcases eq_or_ne k i with rfl | hki
    · obtain ⟨hne, hactive⟩ := hm.waiting l (hself ▸ hk)
      rw [hother l hne]
      exact .inl hactive
    have hl := h.waiting k l (hother k hki ▸ hk)
    rcases eq_or_ne l i with rfl | hli
    · rw [hself]
      exact hm.ends hl
    · rw [hother l hli]
      exact hl
  · rw [hm.disk, hm.plain]
    exact h.plain

lemma counted_iff (hphase : s'.phase = Function.update s.phase i p) (hidle : p ≠ .idle)
    (hdone : p ≠ .done) (k : ι) : Counted reqs s' k ↔
      Counted reqs s k ∨ k = i ∧ (reqs i).copies = true := by
  rw [Counted, Counted, hphase]
  rcases eq_or_ne k i with rfl | hne
  · rw [Function.update_self]
    exact ⟨fun h => .inr ⟨rfl, h.1⟩, fun h => ⟨h.elim And.left And.right, hidle, hdone⟩⟩
  · rw [Function.update_of_ne hne]
    exact ⟨.inl, fun h => h.resolve_right fun h => hne h.1⟩

omit [DecidableEq ι] in
lemma firstPhase_spec (r : Request α) : (firstPhase r.kind : Phase ι α).Active ∧
    ((firstPhase r.kind : Phase ι α) = .writing → r.copies = false) ∧
    ((firstPhase r.kind : Phase ι α).Copier → r.copies = true) ∧
    ∀ x, (firstPhase r.kind : Phase ι α).copied x = none := by
  rw [Request.copies]
  rcases r.kind with (_ | _) | data
  · exact ⟨trivial, nofun, fun hc => hc.elim, fun _ => rfl⟩
  · exact ⟨trivial, nofun, fun _ => rfl, fun _ => rfl⟩
  · exact ⟨trivial, fun _ => rfl, fun hc => hc.elim, fun _ => rfl⟩

lemma Invariant.progress (h : Invariant c reqs s) (hi : (s.phase i).Active) (hp : p.Active)
    (hwriting : p ≠ .writing) (hcopier : p.Copier → (s.phase i).Copier)
    (hcopied : ∀ x v, p.copied x = some v → (reqs i).HasRounded c x ∧ s.disk x = v) :
    Invariant c reqs (s.setPhase i p) := by
  obtain ⟨l, hl, hmem, hlen⟩ := h.inFlight
  refine h.moves (i := i) (p := p) ⟨rfl, rfl, rfl, ?_, fun _ _ => Iff.rfl, h.nodup,
    ⟨l, hl, fun k => ?_, hlen⟩, fun hw => absurd hw hwriting, fun hc => h.copier i (hcopier hc),
    hcopied,
    fun _ hcopies j => h.separate i j hi hcopies,
    fun hw => absurd hw hwriting, ?_, fun _ => .inl hp⟩
  · exact iff_of_true ((h.tracked i).mpr hi) hp
  · rw [counted_iff rfl hp.ne_idle hp.ne_done, hmem]
    refine (or_iff_left_of_imp ?_).symm
    rintro ⟨rfl, hcopies⟩
    exact ⟨hcopies, hi.ne_idle, hi.ne_done⟩
  · rintro j rfl
    exact hp.elim

lemma State.finish_eq (s : State ι α) (i : ι) : s.finish reqs i = { s with
      tracked := s.tracked.erase i
      phase := Function.update s.phase i .done
      inFlight := if (reqs i).copies = true then s.inFlight - 1 else s.inFlight } := by
  rw [State.finish]
  split_ifs <;> rfl

lemma Invariant.finish (h : Invariant c reqs s) (hi : (s.phase i).Active) :
    Invariant c reqs (s.finish reqs i) := by
  obtain ⟨l, hl, hmem, hlen⟩ := h.inFlight
  rw [s.finish_eq]
  refine h.moves (i := i) (p := .done) ⟨rfl, rfl, rfl, ?_, fun k hk => ?_, h.nodup.erase i,
    ⟨l.erase i, hl.erase i, fun k => ?_, ?_⟩,
    nofun, fun hc => hc.elim, nofun, fun hp => hp.elim, nofun, nofun, fun _ => .inr rfl⟩
  · exact h.nodup.mem_erase_iff.trans ⟨fun hin => absurd rfl hin.1, fun hin => hin.elim⟩
  · exact h.nodup.mem_erase_iff.trans ⟨And.right, fun hin => ⟨hk, hin⟩⟩
  · rw [hl.mem_erase_iff, hmem, Counted, Counted]
    rcases eq_or_ne k i with rfl | hne
    · simp
    · simp only [Function.update_of_ne hne]
      exact ⟨And.right, fun hk => ⟨hne, hk⟩⟩
  · rw [← hlen]
    split_ifs with hcopies
    · rw [length_erase_of_mem ((hmem i).mpr ⟨hcopies, hi.ne_idle, hi.ne_done⟩)]
    · rw [erase_of_not_mem fun hin => hcopies ((hmem i).mp hin).1]

/-- A request that is about to wait or to begin, with `n` copy-on-read requests in flight. -/
structure Arrives (reqs : ι → Request α) (s : State ι α) (i : ι) (n : ℕ) : Prop where
  phase : s.phase i = .idle ∨ ∃ j, s.phase i = .waiting j
  counted : ∃ l : List ι, l.Nodup ∧
    (∀ k, k ∈ l ↔ Counted reqs s k ∨ k = i ∧ (reqs i).copies = true) ∧ l.length = n

omit [DecidableEq ι] in
lemma Arrives.not_active (h : Arrives reqs s i n) : ¬ (s.phase i).Active := by
  rcases h.phase with hi | ⟨j, hi⟩ <;> rw [hi] <;> exact id

omit [DecidableEq ι] in
lemma Arrives.ne_done (h : Arrives reqs s i n) : s.phase i ≠ .done := by
  rcases h.phase with hi | ⟨j, hi⟩ <;> rw [hi] <;> exact nofun

lemma Invariant.wait (h : Invariant c reqs s) (ha : Arrives reqs s i n) (hj : j ∈ s.tracked) :
    Invariant c reqs ({ s with inFlight := n }.setPhase i (.waiting j)) := by
  obtain ⟨l, hl, hmem, hlen⟩ := ha.counted
  have hactive := (h.tracked j).mp hj
  refine h.moves (i := i) (p := .waiting j) ⟨rfl, rfl, rfl, ?_, fun _ _ => Iff.rfl, h.nodup,
    ⟨l, hl, fun k => ?_, hlen⟩, nofun, fun hc => hc.elim, nofun, fun hp => hp.elim, nofun,
    fun j' hj' => ?_, fun hi => ?_⟩
  · exact ⟨fun hin => absurd ((h.tracked i).mp hin) ha.not_active, fun hp => hp.elim⟩
  · rw [hmem]
    exact (counted_iff (s := s) (p := .waiting j) rfl nofun nofun k).symm
  · rw [Phase.waiting.injEq] at hj'
    rw [← hj']
    refine ⟨?_, hactive⟩
    rintro rfl
    exact ha.not_active hactive
  · exact (hi.elim ha.not_active ha.ne_done).elim

lemma Invariant.begin (hfit : Fitting c reqs) (h : Invariant c reqs s) (ha : Arrives reqs s i n)
    (hfree : n ≠ 0 → ∀ j ∈ s.tracked, State.overlapping c reqs i j = false) :
    Invariant c reqs ({ s with inFlight := n }.trackedRequestBegin reqs i) := by
  obtain ⟨l, hl, hmem, hlen⟩ := ha.counted
  have hn : ∀ k, Counted reqs s k ∨ k = i ∧ (reqs i).copies = true → n ≠ 0 := by
    intro k hk hzero
    have hin := (hmem k).mpr hk
    rw [length_eq_zero_iff.mp (hlen.trans hzero)] at hin
    exact not_mem_nil hin
  have hout : i ∉ s.tracked := fun hin => ha.not_active ((h.tracked i).mp hin)
  obtain ⟨hp, hwriting, hcopier, hcopied⟩ : (firstPhase (reqs i).kind : Phase ι α).Active ∧ _ :=
    firstPhase_spec (reqs i)
  refine h.moves (i := i) (p := firstPhase (reqs i).kind) ⟨rfl, rfl, rfl, ?_, fun k hk => ?_, ?_,
    ⟨l, hl, fun k => ?_, hlen⟩, hwriting, hcopier, fun x v hv => ?_, fun _ hcopies j hj x hx => ?_,
    fun _ k hk hcopies x hx => ?_, fun j hj => ?_, fun hi => ?_⟩
  · exact iff_of_true mem_cons_self hp
  · exact mem_cons.trans (or_iff_right hk)
  · exact nodup_cons.mpr ⟨hout, h.nodup⟩
  · rw [hmem]
    exact (counted_iff (s := s) rfl hp.ne_idle hp.ne_done k).symm
  · rw [hcopied x] at hv
    cases hv
  · -- The new request copies on read, and has seen the write.
    have hactive : (s.phase j).Active := by
      rw [hj]
      trivial
    exact not_mem_of_overlaps hfit.clusters
      (hfree (hn i (.inr ⟨rfl, hcopies⟩)) j ((h.tracked j).mpr hactive)) hx
  · -- The new request is a write, and has seen the request that copies on read.
    intro hxi
    have hfalse := hfree (hn k (.inl ⟨hcopies, hk.ne_idle, hk.ne_done⟩)) k ((h.tracked k).mpr hk)
    rw [State.overlapping, overlaps_of_mem hfit.clusters (hfit.fits k)
      (hfit.fits i) hx hxi] at hfalse
    cases hfalse
  · rw [hj] at hp
    exact hp.elim
  · exact (hi.elim ha.not_active ha.ne_done).elim

lemma Invariant.waitForOverlappingRequests (hfit : Fitting c reqs) (h : Invariant c reqs s)
    (ha : Arrives reqs s i n) :
    Invariant c reqs ({ s with inFlight := n }.waitForOverlappingRequests c reqs i) := by
  rw [State.waitForOverlappingRequests]
  cases hfind : s.tracked.find? (State.overlapping c reqs i) with
  | some j => exact h.wait ha (mem_of_find?_eq_some hfind)
  | none =>
    refine h.begin hfit ha fun _ j hj => ?_
    simpa using find?_eq_none.mp hfind j hj

omit [DecidableEq ι] in
lemma Phase.Copier.active (h : p.Copier) : p.Active := by
  cases p <;> trivial

omit [DecidableEq ι] in
lemma copier_of_copied (h : p.copied x = some v) : p.Copier := by
  cases p with
  | copyReading buf | copyWriting buf => trivial
  | _ => cases h

omit [DecidableEq ι] in
/-- A write of the guest does not touch what is being copied. -/
lemma Invariant.write (h : Invariant c reqs s) (hi : s.phase i = .writing) (hx : (reqs i).Has x) :
    Invariant c reqs { s.writeSector x v with plain := Function.update s.plain x v } where
  __ := h
  copying k y u hu := by
    obtain ⟨hrounded, hdisk⟩ := h.copying k y u hu
    refine ⟨hrounded, ?_⟩
    have hcopier := copier_of_copied hu
    have hne : y ≠ x := by
      rintro rfl
      exact h.separate k i hcopier.active (h.copier k hcopier) hi y hrounded hx
    simp only [State.writeSector]
    rw [Function.update_of_ne hne, hdisk]
  plain := by
    simp only [State.writeSector]
    rw [h.plain]

omit [DecidableEq ι] in
lemma Invariant.copyWrite (h : Invariant c reqs s) {buf : ℕ → Option α}
    (hi : s.phase i = .copyWriting buf) (hv : buf x = some v) : s.writeSector x v = s := by
  obtain ⟨-, hdisk⟩ := h.copying i x v (by rw [hi]; exact hv)
  rw [State.writeSector, ← hdisk, Function.update_eq_self]

lemma Invariant.step (hfit : Fitting c reqs) (h : Invariant c reqs s) (hstep : Step c reqs s s') :
    Invariant c reqs s' := by
  have hactive : ∀ {i p}, s.phase i = p → p.Active → (s.phase i).Active := fun hp hact => by
    rw [hp]
    exact hact
  cases hstep with
  | start i hi =>
    obtain ⟨l, hl, hmem, hlen⟩ := h.inFlight
    rw [State.start]
    split_ifs with hcopies hn hn
    · refine h.waitForOverlappingRequests hfit ⟨.inl hi, i :: l, nodup_cons.mpr ⟨?_, hl⟩,
        fun k => ?_, ?_⟩
      · exact fun hin => ((hmem i).mp hin).2.1 hi
      · rw [mem_cons, hmem, and_iff_left hcopies, or_comm]
      · rw [length_cons, hlen]
    · exact absurd (Nat.succ_ne_zero _) hn
    · refine h.waitForOverlappingRequests hfit ⟨.inl hi, l, hl, fun k => ?_, hlen⟩
      rw [hmem, or_iff_left fun hk => hcopies hk.2]
    · refine h.begin hfit ⟨.inl hi, l, hl, fun k => ?_, hlen⟩ fun hne => absurd hne hn
      rw [hmem, or_iff_left fun hk => hcopies hk.2]
  | retry i j hi =>
    obtain ⟨l, hl, hmem, hlen⟩ := h.inFlight
    refine h.waitForOverlappingRequests hfit ⟨.inr ⟨j, hi⟩, l, hl, fun k => ?_, hlen⟩
    rw [hmem]
    refine (or_iff_left_of_imp ?_).symm
    rintro ⟨rfl, hcopies⟩
    exact ⟨hcopies, by rw [hi]; exact nofun,
      by rw [hi]; exact nofun⟩
  | checkFails i hi | writeEnds i hi => exact h.finish (hactive hi trivial)
  | allocated i hi => exact h.progress (hactive hi trivial) trivial nofun (fun hc => hc.elim) nofun
  | notAllocated i hi =>
    exact h.progress (hactive hi trivial) trivial nofun (fun _ => by rw [hi]; trivial) nofun
  | read i buf x hi hx =>
    exact h.progress (hactive hi trivial) trivial nofun (fun hc => hc.elim) nofun
  | readEnds i buf hi | copyReadFails i buf hi | copyWriteEnds i buf hi =>
    exact h.finish (hactive hi trivial)
  | copyRead i buf x hi hx =>
    refine h.progress (hactive hi trivial) trivial nofun (fun _ => by rw [hi]; trivial)
      fun y v hv => ?_
    rw [Phase.copied] at hv
    rcases eq_or_ne y x with rfl | hne
    · rw [Function.update_self, Option.some.injEq] at hv
      exact ⟨hx, hv⟩
    · rw [Function.update_of_ne hne] at hv
      exact h.copying i y v (by rw [hi]; exact hv)
  | copyReadEnds i buf hi hall =>
    refine h.progress (hactive hi trivial) trivial nofun (fun _ => by rw [hi]; trivial)
      fun x v hv => ?_
    exact h.copying i x v (by rw [hi]; exact hv)
  | copyWrite i buf x v hi hx hv => rwa [h.copyWrite hi hv]
  | write i x data hi hdata hx => exact h.write hi hx

omit [DecidableEq ι] in
lemma invariant_init (disk : ℕ → α) : Invariant c reqs (State.init disk) where
  tracked _ := ⟨fun h => absurd h not_mem_nil, fun h => h.elim⟩
  nodup := nodup_nil
  inFlight :=
    ⟨[], nodup_nil, fun _ => ⟨fun h => absurd h not_mem_nil, fun h => absurd rfl h.2.1⟩, rfl⟩
  writing _ := nofun
  copier _ h := h.elim
  copying _ _ _ := nofun
  separate _ _ h := h.elim
  waiting _ _ := nofun
  plain := rfl

lemma Reachable.invariant (hfit : Fitting c reqs) (h : Reachable c reqs s) :
    Invariant c reqs s := by
  induction h with
  | init disk => exact invariant_init disk
  | step _ hstep ih => exact ih.step hfit hstep

end Steps

end Qemu.Block.CopyOnRead
