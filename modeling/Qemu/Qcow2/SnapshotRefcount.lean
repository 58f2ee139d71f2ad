import Qemu.Qcow2.Entry

/-!
# The errors of `qcow2_update_snapshot_refcount`

The function calls others for every entry of an L1 table and of its L2 tables, and leaves its loops
for the label `fail` when a call fails.  Two of the exits lose the error: the `ret` of the call for
a compressed cluster is a variable of an inner block, and after a failed write of the L1 table the
code behind the label is run again.

**Main results:**
- `l1Loop_follows`: how the loops are left, by the first call that fails
- `reports_iff`: the calls for which an error is returned
-/

namespace Qemu.Qcow2.SnapshotRefcount

open List

/-! ## The function -/

/-- The calls of the function; the one for a cluster is `update_cluster_refcount` or
`get_refcount`. -/
inductive Op
  | readL1
  | loadL2 (i : ℕ)
  | updateCompressed (i j : ℕ)
  | refcount (i j : ℕ)
  | putL2 (i : ℕ)
  | refcountL2 (i : ℕ)
  | writeL1 (attempt : ℕ)
deriving DecidableEq

/-- What the calls return, and the tables that they load.  `swap` is `cpu_to_be64`. -/
structure Env where
  ret : Op → ℤ
  l1 : List (BitVec 64)
  l2 : ℕ → List (BitVec 64)
  swap : BitVec 64 → BitVec 64

def l1eOffsetMask : BitVec 64 := 0x00ffffffffffff00#64

/-- The calls that were made, the entries that were written, `l1_modified`, and `ret` at a `goto
fail`. -/
structure Left where
  calls : List Op
  table : List (BitVec 64)
  modified : Bool
  goto : Option ℤ

/-- The part without calls. -/
def Left.pass (table : List (BitVec 64)) : Left := ⟨[], table, false, none⟩

/-- Go on unless there was a `goto`. -/
def Left.andThen (l next : Left) : Left :=
  if l.goto.isSome then l
  else ⟨l.calls ++ next.calls, l.table ++ next.table, l.modified || next.modified, next.goto⟩

section Source

variable (env : Env) (addend : ℤ)

/-- A call; if it fails, there is a `goto fail` with this value of `ret`. -/
def Env.call (op : Op) (ret : ℤ) :
    Left := ⟨[op], [], false, if env.ret op < 0 then some ret else none⟩

def withCopied (refcount : ℤ) (offset : BitVec 64) : BitVec 64 :=
  if refcount = 1 then offset ||| oflagCopied else offset

/-- The body of the loop over an L2 table. -/
def entryStep (i j : ℕ) (entry : BitVec 64) : Left :=
  let offset := entry &&& ~~~oflagCopied
  if entry = 0#64 then .pass [entry]
  else if offset &&& oflagCompressed ≠ 0#64 then
    if addend = 0 then .pass [offset]
    -- the error goes to an inner `ret`, and the outer one is still that of `qcow2_cache_get`
    else (env.call (.updateCompressed i j) (env.ret (.loadL2 i))).andThen (.pass [offset])
  else (env.call (.refcount i j) (-eio)).andThen
    (.pass [withCopied (env.ret (.refcount i j)) offset])

/-- The loop over an L2 table. -/
def entryLoop (i : ℕ) : ℕ → List (BitVec 64) → Left
  | _, [] => .pass []
  | j, entry :: rest => (entryStep env addend i j entry).andThen (entryLoop i (j + 1) rest)

/-- The end of the body of the loop over the L1 table. -/
def refcountStep (i : ℕ) (entry : BitVec 64) : Left :=
  let l2Offset := withCopied (env.ret (.refcountL2 i)) (entry &&& l1eOffsetMask)
  (env.call (.refcountL2 i) (-eio)).andThen ⟨[], [l2Offset], decide (l2Offset ≠ entry), none⟩

/-- The body of the loop over the L1 table. -/
def l1Step (i : ℕ) (entry : BitVec 64) : Left :=
  if entry = 0#64 then .pass [entry]
  else (env.call (.loadL2 i) (env.ret (.loadL2 i))).andThen
    (Left.andThen { entryLoop env addend i 0 (env.l2 i) with table := [] }
      ((env.call (.putL2 i) (env.ret (.putL2 i))).andThen (refcountStep env i entry)))

/-- The loop over the L1 table. -/
def l1Loop : ℕ → List (BitVec 64) → Left
  | _, [] => .pass []
  | i, entry :: rest => (l1Step env addend i entry).andThen (l1Loop (i + 1) rest)

/-- What the function returns, the calls it has made, and the L1 table in memory. -/
structure Result where
  ret : ℤ
  calls : List Op
  l1 : List (BitVec 64)

/-- The write behind the label `fail`, which is made again, with swapped bytes, when it fails. -/
def writeLoop (ret : ℤ) : ℕ → ℕ → List Op → List (BitVec 64) → Option Result
  | 0, _, _, _ => none
  | fuel + 1, attempt, calls, l1 =>
    if env.ret (.writeL1 attempt) < 0 then
      writeLoop ret fuel (attempt + 1) (calls ++ [.writeL1 attempt]) (l1.map env.swap)
    else some ⟨ret, calls ++ [.writeL1 attempt], (l1.map env.swap).map env.swap⟩

/-- `qcow2_update_snapshot_refcount`; `current` if the table is the current L1 table.  There is no
result without enough fuel for the last writes. -/
def qcow2UpdateSnapshotRefcount (current : Bool) (fuel : ℕ) : Option Result :=
  let calls := if current then [] else [.readL1]
  if current = false ∧ env.ret .readL1 < 0 then some ⟨-eio, calls, []⟩
  else
    let l := l1Loop env addend 0 env.l1
    let l1 := l.table ++ env.l1.drop l.table.length
    let ret := l.goto.getD 0
    -- update L1 only if it isn't deleted anyway
    if 0 ≤ addend ∧ l.modified then writeLoop env ret fuel 0 (calls ++ l.calls) l1
    else some ⟨ret, calls ++ l.calls, l1⟩

end Source

/-! ## The calls in their order -/

section Order

variable (env : Env) (addend : ℤ)

/-- The calls for an L2 table, if none fails. -/
def entryOps (i : ℕ) : ℕ → List (BitVec 64) → List Op
  | _, [] => []
  | j, entry :: rest =>
    (if entry = 0#64 then []
      else if entry &&& ~~~oflagCopied &&& oflagCompressed ≠ 0#64 then
        if addend = 0 then [] else [.updateCompressed i j]
      else [.refcount i j]) ++ entryOps i (j + 1) rest

/-- The calls for an L1 table, if none fails. -/
def l1Ops : ℕ → List (BitVec 64) → List Op
  | _, [] => []
  | i, entry :: rest =>
    (if entry = 0#64 then []
      else [.loadL2 i] ++ (entryOps addend i 0 (env.l2 i) ++ ([.putL2 i] ++ [.refcountL2 i]))) ++
      l1Ops (i + 1) rest

def Env.failing (ops : List Op) : Option Op := ops.find? (env.ret · < 0)

/-- The calls before the first that fails. -/
def Env.passed (ops : List Op) : List Op := ops.takeWhile (0 ≤ env.ret ·)

/-- The call after which an entry of the L1 table is another one. -/
def Env.changes : Op → Bool
  | .refcountL2 i =>
    let entry := env.l1.getD i 0
    withCopied (env.ret (.refcountL2 i)) (entry &&& l1eOffsetMask) ≠ entry
  | _ => false

def Op.isCompressed : Op → Bool
  | .updateCompressed .. => true
  | _ => false

end Order

/-- Some calls, in their order, as far as they were made. -/
structure Follows (env : Env) (ops : List Op) (l : Left) : Prop where
  calls : (∃ op ∈ l.calls, env.ret op < 0) ↔ env.failing ops ≠ none
  modified : l.modified = (env.passed ops).any env.changes
  pass : env.failing ops = none → l.goto = none
  stop : ∀ op, env.failing ops = some op → ∃ r, l.goto = some r ∧ (r < 0 ↔ op.isCompressed = false)

section Follows

variable {env : Env} {addend : ℤ} {op : Op} {a b : List Op} {l l' : Left} {i : ℕ}

lemma Follows.nil (table : List (BitVec 64)) : Follows env [] (.pass table) :=
  ⟨by simp [Left.pass, Env.failing], rfl, fun _ => rfl, nofun⟩

lemma Follows.call {ret : ℤ} (hchanges : env.changes op = false)
    (hret : env.ret op < 0 → (ret < 0 ↔ op.isCompressed = false)) :
    Follows env [op] (env.call op ret) := by
  by_cases h : env.ret op < 0
  · refine ⟨by simp [Env.call, Env.failing, h], ?_, ?_, ?_⟩
    · simp [Env.call, Env.passed, not_le.mpr h]
    · simp [Env.failing, h]
    · rintro op' hop
      obtain rfl : op = op' := by simpa [Env.failing, h] using hop
      exact ⟨ret, if_pos h, hret h⟩
  · refine ⟨by simp [Env.call, Env.failing, h], ?_, fun _ => if_neg h, ?_⟩
    · simp [Env.call, Env.passed, not_lt.mp h, hchanges]
    · simp [Env.failing, h]

lemma passed_append (h : env.failing a = none) : env.passed (a ++ b) = a ++ env.passed b := by
  refine takeWhile_append_of_pos fun op hop => ?_
  simpa using find?_eq_none.mp h op hop

lemma passed_append_of_some (h : env.failing a = some op) : env.passed (a ++ b) = env.passed a := by
  induction a with
  | nil => cases h
  | cons op' a ih =>
    by_cases hop : env.ret op' < 0
    · simp [Env.passed, not_le.mpr hop]
    · have := ih (by simpa [Env.failing, hop] using h)
      simpa [Env.passed, not_lt.mp hop] using this

lemma Follows.andThen (h : Follows env a l) (h' : env.failing a = none → Follows env b l') :
    Follows env (a ++ b) (l.andThen l') := by
  have happend : env.failing (a ++ b) = (env.failing a).or (env.failing b) := find?_append
  cases hfail : env.failing a with
  | none =>
    have hcalls : ¬ ∃ op ∈ l.calls, env.ret op < 0 := fun hc => h.calls.mp hc hfail
    have hpass : env.passed a = a := by
      have := passed_append (b := []) hfail
      rwa [append_nil, show env.passed [] = [] from rfl, append_nil] at this
    replace h' := h' hfail
    rw [hfail, Option.none_or] at happend
    rw [Left.andThen, h.pass hfail, if_neg (by simp)]
    refine ⟨?_, ?_, happend ▸ h'.pass, happend ▸ h'.stop⟩
    · rw [happend, ← h'.calls]
      simp only [mem_append, or_and_right, exists_or, hcalls, false_or]
    · rw [passed_append hfail, any_append, ← h'.modified, h.modified, hpass]
  | some op =>
    obtain ⟨r, hgoto, hr⟩ := h.stop op hfail
    rw [hfail, Option.some_or, ← hfail] at happend
    rw [Left.andThen, hgoto, if_pos (by simp)]
    refine ⟨happend ▸ h.calls, ?_, happend ▸ h.pass, happend ▸ h.stop⟩
    rw [passed_append_of_some hfail, h.modified]

variable (addend) in
lemma entryLoop_follows (hload : 0 ≤ env.ret (.loadL2 i)) (j : ℕ) (entries : List (BitVec 64)) :
    Follows env (entryOps addend i j entries) (entryLoop env addend i j entries) := by
  induction entries generalizing j with
  | nil => exact .nil []
  | cons entry rest ih =>
    refine Follows.andThen ?_ fun _ => ih (j + 1)
    simp only [entryStep]
    split_ifs
    · exact .nil _
    · exact .nil _
    · have hcall : Follows env [.updateCompressed i j] (env.call (.updateCompressed i j)
          (env.ret (.loadL2 i))) := .call rfl fun _ => by simp [Op.isCompressed, hload]
      simpa using hcall.andThen fun _ => .nil _
    · have hcall : Follows env [.refcount i j] (env.call (.refcount i j) (-eio)) :=
        .call rfl fun _ => by simp [Op.isCompressed, eio]
      simpa using hcall.andThen fun _ => .nil _

lemma refcountStep_follows : Follows env [.refcountL2 i]
    (refcountStep env i (env.l1.getD i 0)) := by
  by_cases h : env.ret (.refcountL2 i) < 0
  · refine ⟨?_, ?_, ?_, ?_⟩
    all_goals simp [refcountStep, Left.andThen, Env.call, Env.failing, Env.passed, h, not_le.mpr h,
      Op.isCompressed, eio]
  · refine ⟨?_, ?_, ?_, ?_⟩
    all_goals simp [refcountStep, Left.andThen, Env.call, Env.failing, Env.passed, h, not_lt.mp h,
      Env.changes]

variable (env addend) in
/-- **The loops** end at the first call that fails, with an error in `ret` unless it was for a
compressed cluster. -/
theorem l1Loop_follows (i : ℕ) (entries : List (BitVec 64)) (hentries : env.l1.drop i = entries) :
    Follows env (l1Ops env addend i entries) (l1Loop env addend i entries) := by
  induction entries generalizing i with
  | nil => exact .nil []
  | cons entry rest ih =>
    have hentry : env.l1.getD i 0 = entry := by
      rw [getD_eq_getElem?_getD, ← Nat.add_zero i, ← getElem?_drop, hentries]
      rfl
    have hrest : env.l1.drop (i + 1) = rest := by
      rw [← drop_drop, hentries]
      rfl
    refine Follows.andThen ?_ fun _ => ih (i + 1) hrest
    rw [l1Step]
    split_ifs
    · exact .nil _
    refine (Follows.call rfl fun h => by simpa [Op.isCompressed] using h).andThen fun hload => ?_
    replace hload : 0 ≤ env.ret (.loadL2 i) := by simpa [Env.failing] using hload
    have hloop := entryLoop_follows addend hload 0 (env.l2 i)
    refine Follows.andThen ⟨hloop.calls, hloop.modified, hloop.pass, hloop.stop⟩ fun _ => ?_
    refine (Follows.call rfl fun h => by simpa [Op.isCompressed] using h).andThen fun _ => ?_
    exact hentry ▸ refcountStep_follows

end Follows

/-! ## The errors that are returned -/

/-- The function ends, and it returns an error if a call has failed. -/
def Reports (env : Env) (addend : ℤ) (current : Bool) : Prop :=
  ∃ fuel r, qcow2UpdateSnapshotRefcount env addend current fuel = some r ∧
    ((∃ op ∈ r.calls, env.ret op < 0) → r.ret < 0)

/-- The first call that fails is not for a compressed cluster, and the L1 table is written at once
if it is written; or at last, if there was an error before. -/
def Careful (env : Env) (addend : ℤ) : Prop :=
  (∀ op, env.failing (l1Ops env addend 0 env.l1) = some op → op.isCompressed = false) ∧
    (0 ≤ addend → (env.passed (l1Ops env addend 0 env.l1)).any env.changes = true →
      0 ≤ env.ret (.writeL1 0) ∨
        env.failing (l1Ops env addend 0 env.l1) ≠ none ∧ ∃ k, 0 ≤ env.ret (.writeL1 k))

section Write

variable {env : Env} {ret : ℤ} {calls : List Op} {l1 : List (BitVec 64)} {r : Result}

lemma writeLoop_eq_some {fuel attempt : ℕ} (h : writeLoop env ret fuel attempt calls l1 = some r) :
    r.ret = ret ∧ (∃ k, 0 ≤ env.ret (.writeL1 k)) ∧ ((∃ op ∈ r.calls, env.ret op < 0) ↔
      (∃ op ∈ calls, env.ret op < 0) ∨ env.ret (.writeL1 attempt) < 0) := by
  induction fuel generalizing attempt calls l1 with
  | zero => cases h
  | succ fuel ih =>
    rw [writeLoop] at h
    split_ifs at h with hfails
    · obtain ⟨hret, hk, hcalls⟩ := ih h
      refine ⟨hret, hk, hcalls.trans ⟨fun _ => .inr hfails, fun _ => .inl ⟨_, ?_, hfails⟩⟩⟩
      exact mem_append_right _ (mem_singleton_self _)
    · cases h
      refine ⟨rfl, ⟨attempt, not_lt.mp hfails⟩, ?_⟩
      simp [or_and_right, exists_or]

lemma writeLoop_ends {n : ℕ} (attempt : ℕ) (h : 0 ≤ env.ret (.writeL1 (attempt + n))) :
    ∃ fuel r, writeLoop env ret fuel attempt calls l1 = some r := by
  induction n generalizing attempt calls l1 with
  | zero => exact ⟨1, _, if_neg (not_lt.mpr h)⟩
  | succ n ih =>
    by_cases hfails : env.ret (.writeL1 attempt) < 0
    · obtain ⟨fuel, r, hr⟩ := ih (attempt + 1) (by rwa [Nat.add_right_comm])
      exact ⟨fuel + 1, r, by rw [writeLoop, if_pos hfails, hr]⟩
    · exact ⟨1, _, if_neg hfails⟩

/-- The error that the loops are left with. -/
lemma goto_lt_iff (env : Env) (addend : ℤ) : (l1Loop env addend 0 env.l1).goto.getD 0 < 0 ↔
    ∃ op, env.failing (l1Ops env addend 0 env.l1) = some op ∧ op.isCompressed = false := by
  have hl := l1Loop_follows env addend 0 env.l1 rfl
  cases hfail : env.failing (l1Ops env addend 0 env.l1) with
  | none => simp [hl.pass hfail]
  | some op =>
    obtain ⟨r, hgoto, hr⟩ := hl.stop op hfail
    simp [hgoto, hr]

end Write

/-- **Errors are returned** if and only if the L1 table cannot be read, or the calls are careful. -/
theorem reports_iff (env : Env) (addend : ℤ) (current : Bool) :
    Reports env addend current ↔ (current = false ∧ env.ret .readL1 < 0) ∨ Careful env addend := by
  by_cases hread : current = false ∧ env.ret .readL1 < 0
  · exact iff_of_true ⟨0, _, if_pos hread, fun _ => by simp [eio]⟩ (.inl hread)
  have hl := l1Loop_follows env addend 0 env.l1 rfl
  have hgoto := goto_lt_iff env addend
  simp only [Reports, qcow2UpdateSnapshotRefcount, hread, if_false, false_or,
    Careful, ← hl.modified]
  generalize hcalls : (if current = true then [] else [Op.readL1]) ++
    (l1Loop env addend 0 env.l1).calls = calls
  replace hcalls : (∃ op ∈ calls, env.ret op < 0) ↔
  env.failing (l1Ops env addend 0 env.l1) ≠ none := by
    rw [← hcalls, ← hl.calls]
    cases current with
    | true => simp
    | false => simp [show ¬ env.ret .readL1 < 0 from fun h => hread ⟨rfl, h⟩]
  generalize (l1Loop env addend 0 env.l1).goto.getD 0 = ret at hgoto ⊢
  generalize env.failing (l1Ops env addend 0 env.l1) = first at hcalls hgoto ⊢
  by_cases hwrite : 0 ≤ addend ∧ (l1Loop env addend 0 env.l1).modified = true
  · simp only [hwrite, and_self, if_true, forall_const]
    have hreports : ∀ l1, (∃ fuel r, writeLoop env ret fuel 0 calls l1 = some r ∧
        ((∃ op ∈ r.calls, env.ret op < 0) → r.ret < 0)) ↔
        (∃ k, 0 ≤ env.ret (.writeL1 k)) ∧ (first ≠ none ∨ env.ret (.writeL1 0) < 0 → ret < 0) := by
      intro l1
      rw [← hcalls]
      constructor
      · rintro ⟨fuel, r, hr, herror⟩
        obtain ⟨hret, hk, hfails⟩ := writeLoop_eq_some hr
        exact ⟨hk, fun h => hret ▸ herror (hfails.mpr h)⟩
      · rintro ⟨⟨k, hk⟩, herror⟩
        obtain ⟨fuel, r, hr⟩ : ∃ fuel r, writeLoop env ret fuel 0 calls l1 = some r :=
          writeLoop_ends (n := k) 0 (by rwa [Nat.zero_add])
        obtain ⟨hret, -, hfails⟩ := writeLoop_eq_some hr
        exact ⟨fuel, r, hr, fun h => hret ▸ herror (hfails.mp h)⟩
    rw [hreports, hgoto]
    cases first with
    | none => simpa using fun h => ⟨0, h⟩
    | some op =>
      have hk : 0 ≤ env.ret (.writeL1 0) → ∃ k, 0 ≤ env.ret (.writeL1 k) := fun h => ⟨0, h⟩
      simpa [and_comm] using fun _ => hk
  · simp only [hwrite, if_false, Option.some.injEq, exists_eq_left', hcalls, hgoto]
    rw [not_and] at hwrite
    cases first with
    | none => simpa using fun h h' => absurd h' (hwrite h)
    | some op => simpa using fun _ h h' => absurd h' (hwrite h)

/-- An L2 table with a compressed cluster, whose refcount cannot be updated. -/
def compressedEnv : Env where
  ret op := if op = .updateCompressed 0 0 then -5 else 0
  l1 := [0x10000]
  l2 _ := [oflagCompressed]
  swap := id

/-- **A lost error**: for a compressed cluster. -/
theorem compressedEnv_lost : ¬ ∀ (env : Env) (addend : ℤ) (current : Bool),
    addend ∈ [-1, 0, 1] → Reports env addend current := by
  intro h
  obtain ⟨fuel, r, hr, hret⟩ := h compressedEnv (-1) true (by decide)
  have hrun : qcow2UpdateSnapshotRefcount compressedEnv (-1) true fuel =
      some ⟨0, [.loadL2 0, .updateCompressed 0 0], [0x10000]⟩ := rfl
  cases hr.symm.trans hrun
  exact absurd (hret ⟨.updateCompressed 0 0, by decide, by decide⟩) (by decide)

end Qemu.Qcow2.SnapshotRefcount
