import Mathlib
import Qemu.Tcg.OptimizeCorrect

/-!
# Runs of the optimised stream

The stream that `tcg_constant_folding` leaves has as many ops as the one it found, with the same
labels, so the two run in lock step: in each of their states the temps, the memory and the trace are
the same.

This takes a condition.  A class may hold temps of both types, since `tcg_gen_trunc_i64_i32` is a
`mov_i32` from an I64 temp, and a temp of either type may become its representative.  A 64-bit op
that then reads an I64 temp of the class is made to read an I32 temp.

**Main results:**
- `tcgConstantFolding_total`, `tableAfter_wellFormed`: on every stream that is emitted the pass
  succeeds, and keeps its table well formed
- `folding_preserves_careful`: a stream of careful ops runs as before
- `reads_preserved_iff`: the condition on the reads of an op is the exact one
- `truncated_copy_not_preserved`: a stream of four moves that does not run as before
-/

namespace Qemu.Tcg

open TempTable

/-! ## The pass over a stream -/

section Stream

variable {host : Host} {ctx : TcgContext} {T : TempTable} {prog prog' code code' : List Insn}

def tableAfter (host : Host) (ctx : TcgContext) (T : TempTable) (prog : List Insn) :
    Option TempTable :=
  prog.foldlM (fun T insn => (optimizeInsn host ctx T insn).map Prod.snd) T

lemma foldingFrom_spec (host : Host) (hok : ∀ insn ∈ prog, insn.Ok ctx) (hT : TableOk ctx T) :
    ∃ prog' T', foldingFrom host ctx T prog = some prog' ∧ tableAfter host ctx T prog = some T' ∧
      TableOk ctx T' := by
  induction prog generalizing T with
  | nil => exact ⟨[], T, rfl, rfl, hT⟩
  | cons insn rest ih =>
    obtain ⟨new, T₁, heq, hT₁, -⟩ := optimizeInsn_spec host hT (hok insn (by simp))
    obtain ⟨rest', T', hrest, hafter, hT'⟩ := ih (fun i hi => hok i (by simp [hi])) hT₁
    refine ⟨new :: rest', T', by simp [foldingFrom, heq, hrest], ?_, hT'⟩
    rw [tableAfter, List.foldlM_cons, heq]
    exact hafter

/-- **The pass succeeds**: no assertion fails and no ring is broken. -/
theorem tcgConstantFolding_total (host : Host) (hok : ∀ insn ∈ prog, insn.Ok ctx) :
    ∃ prog', tcgConstantFolding host ctx prog = some prog' := by
  obtain ⟨prog', -, h, -⟩ := foldingFrom_spec host hok tableOk_cleared
  exact ⟨prog', h⟩

/-- Every temp that is linked is in a class, and classes with a common temp are the same. -/
def WellFormed (ctx : TcgContext) (T : TempTable) : Prop :=
  TableOk ctx T ∧ ∀ r l r' l' t, CopyClass ctx T r l → CopyClass ctx T r' l' →
    t ∈ r :: l → t ∈ r' :: l' →
    r = r' ∧ l = l'

/-- **The table stays well formed.**  A part of a stream is a stream too, and so is one whose last
op has fewer outputs, so this is what holds after each call that the pass makes. -/
theorem tableAfter_wellFormed (host : Host) (hok : ∀ insn ∈ prog, insn.Ok ctx) :
    ∃ T, tableAfter host ctx .cleared prog = some T ∧ WellFormed ctx T := by
  obtain ⟨-, T, -, hafter, hT⟩ := foldingFrom_spec host hok tableOk_cleared
  refine ⟨T, hafter, hT, fun r l r' l' t hc hc' ht ht' => ?_⟩
  obtain rfl := hc.rep_unique hc' ht ht'
  exact ⟨rfl, hc.ring.unique hc'.ring⟩

/-- The pass turns `code` into `code'`, from the table `T` on, and all ops are careful. -/
structure Optimized (host : Host) (ctx : TcgContext) (T : TempTable) (code code' : List Insn) :
    Prop where
  table : TableOk ctx T
  folding : foldingFrom host ctx T code = some code'
  careful : CarefulFrom host ctx T code
  ok : ∀ insn ∈ code, insn.Ok ctx

lemma Optimized.nil (h : Optimized host ctx T [] code') : code' = [] :=
  (Option.some.inj h.folding).symm

/-- The first op of a stream and the rest of it. -/
lemma Optimized.cons {insn : Insn} {rest : List Insn}
    (h : Optimized host ctx T (insn :: rest) code') :
    ∃ new T' rest', code' = new :: rest' ∧ TurnOk ctx T insn new T' ∧
      Optimized host ctx T' rest rest' := by
  obtain ⟨new, T', heq, hT', hturn⟩ := optimizeInsn_spec host h.table (h.ok insn (by simp))
  have hfold := h.folding
  simp only [foldingFrom, heq, Option.bind_eq_bind, Option.bind_some, Option.bind_eq_some_iff,
    Option.some.injEq] at hfold
  obtain ⟨rest', hrest, rfl⟩ := hfold
  exact ⟨new, T', rest', rfl, hturn h.careful.1, hT', hrest, h.careful.2 _ heq,
    fun i hi => h.ok i (by simp [hi])⟩

lemma label_eq_some {insn : Insn} {label : ℕ} :
    insn.label = some label ↔ insn = .setLabel label := by
  cases insn <;> simp [Insn.label]

/-- Labels are where they were, and after a label nothing is known. -/
lemma Optimized.afterLabel {label : ℕ} (h : Optimized host ctx T prog prog')
    (hcode : Tcg.afterLabel label prog = some code) :
    ∃ code', Tcg.afterLabel label prog' = some code' ∧ Optimized host ctx .cleared code code' := by
  induction prog generalizing T prog' with
  | nil => simp [Tcg.afterLabel] at hcode
  | cons insn rest ih =>
    obtain ⟨new, T', rest', rfl, hturn, hrest⟩ := h.cons
    by_cases hlabel : insn = .setLabel label
    · subst hlabel
      have hnew : new = .setLabel label := label_eq_some.mp hturn.label
      rw [Tcg.afterLabel, if_pos rfl] at hcode
      cases hcode
      rw [hturn.cleared (by simp [Insn.label])] at hrest
      exact ⟨rest', by rw [Tcg.afterLabel, if_pos hnew], hrest⟩
    · have hnew : new ≠ .setLabel label := by
        intro hnew
        have := hturn.label
        rw [hnew, eq_comm] at this
        exact hlabel (label_eq_some.mp this)
      rw [Tcg.afterLabel, if_neg hlabel] at hcode
      obtain ⟨code', hcode', hopt⟩ := ih hrest hcode
      exact ⟨code', by rw [Tcg.afterLabel, if_neg hnew, hcode'], hopt⟩

end Stream

/-! ## Lock step -/

section Run

variable {Mem : Type} {env : Env Mem} {host : Host} {ctx : TcgContext} {prog prog' : List Insn}
  {s s' t : Status Mem}

/-- What can be seen of a run: the globals, the temps, the memory, the trace, and how it ended. -/
def Status.outcome : Status Mem → Option Exit × State Mem
  | .running _ m => (none, m)
  | .halted e m => (some e, m)

/-- Two runs in lock step. -/
inductive LockStep (host : Host) (ctx : TcgContext) : Status Mem → Status Mem → Prop where
  | running (T : TempTable) (code code' : List Insn) (m : State Mem)
      (hopt : Optimized host ctx T code code') (hs : Sound ctx T m.temps) :
      LockStep host ctx (.running code m) (.running code' m)
  | halted (e : Exit) (m : State Mem) : LockStep host ctx (.halted e m) (.halted e m)

lemma LockStep.outcome_eq (h : LockStep host ctx s s') : s'.outcome = s.outcome := by
  cases h <;> rfl

lemma LockStep.step (hprog : Optimized host ctx .cleared prog prog') (h : LockStep host ctx s s')
    (hstep : s.step env ctx prog = some t) :
    ∃ t', s'.step env ctx prog' = some t' ∧ LockStep host ctx t t' := by
  have hlabels : SameLabels prog prog' := fun label code hcode =>
    (hprog.afterLabel hcode).imp fun code' h => h.1
  cases h with
  | halted e m =>
    cases hstep
    exact ⟨_, rfl, .halted e m⟩
  | running T code code' m hopt hs =>
    cases code with
    | nil =>
      obtain rfl := hopt.nil
      cases hstep
      exact ⟨_, rfl, .halted _ m⟩
    | cons insn rest =>
      obtain ⟨new, T', rest', rfl, hturn, hrest⟩ := hopt.cons
      obtain ⟨t', ht', hfollows⟩ :=
        hturn.simulates env prog prog' rest rest' m t hlabels hs hstep
      refine ⟨t', ht', ?_⟩
      cases hfollows with
      | next m h => exact .running T' rest rest' m hrest h
      | halt e m => exact .halted e m
      | jump label code code' m hcode hcode' h =>
        obtain ⟨code2, hcode2, hopt2⟩ := hprog.afterLabel hcode
        cases hcode'.symm.trans hcode2
        exact .running .cleared code code' m hopt2 h

lemma LockStep.run (hprog : Optimized host ctx .cleared prog prog') (n : ℕ)
    (h : LockStep host ctx s s') (hrun : run env ctx prog n s = some t) :
    ∃ t', Tcg.run env ctx prog' n s' = some t' ∧ LockStep host ctx t t' := by
  induction n generalizing s s' with
  | zero =>
    cases hrun
    exact ⟨s', rfl, h⟩
  | succ n ih =>
    obtain ⟨u, hu, hrun⟩ := Option.bind_eq_some_iff.mp hrun
    obtain ⟨u', hu', h'⟩ := h.step hprog hu
    obtain ⟨t', ht', hlock⟩ := ih h' hrun
    exact ⟨t', by rw [Tcg.run, hu', Option.bind_some, ht'], hlock⟩

end Run

/-- From all values of the globals, the temps and the memory, and with all helpers, the optimised
stream has the same outcome after every number of steps. -/
def PreservedByFolding (host : Host) (ctx : TcgContext) (prog : List Insn) : Prop :=
  ∃ prog', tcgConstantFolding host ctx prog = some prog' ∧
    ∀ {Mem : Type} (env : Env Mem) (m : State Mem),
      (∀ t v, m.temps t = some v → v.type = ctx.type t) →
      ∀ n s, run env ctx prog n (.running prog m) = some s →
        ∃ s', run env ctx prog' n (.running prog' m) = some s' ∧ s'.outcome = s.outcome

/-- **A stream of careful ops runs as before.** -/
theorem folding_preserves_careful (host : Host) (ctx : TcgContext) (prog : List Insn)
    (hok : ∀ insn ∈ prog, insn.Ok ctx) (hcareful : CarefulFrom host ctx .cleared prog) :
    PreservedByFolding host ctx prog := by
  obtain ⟨prog', hprog⟩ := tcgConstantFolding_total host hok
  refine ⟨prog', hprog, fun env m hm n s hrun => ?_⟩
  have hopt : Optimized host ctx .cleared prog prog' := ⟨tableOk_cleared, hprog, hcareful, hok⟩
  obtain ⟨s', hs', hlock⟩ := LockStep.run hopt n (.running _ _ _ m hopt (sound_cleared hm)) hrun
  exact ⟨s', hs', hlock.outcome_eq⟩

/-! ## The condition on reads -/

section Reads

variable {ctx : TcgContext} {T : TempTable} {σ : ℕ → Option Value} {insn : Insn}

def tableValues (ctx : TcgContext) (T : TempTable) : ℕ → Option Value :=
  fun t => some (.ofBits (ctx.type t) ((T.constOf t).getD 0#64))

lemma sound_tableValues (h : Sound ctx T σ) : Sound ctx T (tableValues ctx T) := by
  refine ⟨h.table, fun t v hv => ?_, fun t c v hc hv => ?_, fun t u v heq hv => ?_⟩
  · rw [← Option.some.inj hv, Value.type_ofBits]
  · rw [← Option.some.inj hv, hc]
    exact Value.agrees_ofBits c
  · rcases eq_or_ne t u with rfl | hne
    · exact ⟨v, hv, rfl, fun _ _ => rfl⟩
    have hnone : ∀ {t u}, t ≠ u → T.repOf t = T.repOf u → T.constOf t = none := by
      intro t u hne heq
      refine if_neg fun hconst => ?_
      have hself : T.repOf t = t := repOf_of_ne_copy (by rw [hconst]; simp)
      exact h.table.shared_ne_const hne heq (by rw [hself, hconst])
    obtain rfl : v = .ofBits (ctx.type t) 0#64 := by
      rw [← Option.some.inj hv, hnone hne heq]
      rfl
    refine ⟨.ofBits (ctx.type u) 0#64, by rw [tableValues, hnone hne.symm heq.symm]; rfl, ?_, ?_⟩
    · cases ctx.type t <;> cases ctx.type u <;> rfl
    · intro h1 h2
      rw [Value.type_ofBits] at h1 h2
      rw [h1, h2]

/-- **The condition is the exact one**: the inputs of an op are replaced by temps from which it
reads the same, whatever values the table allows, if and only if no I64 temp of which the op reads
all 64 bits is represented by an I32 temp. -/
theorem reads_preserved_iff (h : Sound ctx T σ) :
    (∀ σ, Sound ctx T σ → ∀ p ∈ insn.reads, ∀ v, σ p.1 = some v →
        ∃ v', σ (T.repOf p.1) = some v' ∧ v.Agrees p.2 v')
      ↔ ∀ p ∈ insn.reads, p.2 = .i64 → ctx.type p.1 = .i64 → ctx.type (T.repOf p.1) = .i64 := by
  constructor
  · intro hreads p hp hw hty
    obtain ⟨v', hv', hag⟩ := hreads _ (sound_tableValues h) p hp _ rfl
    rw [hw, hty] at hag
    have hv := hag.2 rfl _ rfl
    rw [← (sound_tableValues h).typed _ _ hv', hv]
    rfl
  · intro hcond σ' h' p hp v hv
    exact h'.read (hcond p hp) hv

end Reads

/-! ## Temps of both types in one class -/

lemma blockTemps_globals : 1 ≤ 4 := by decide

lemma blockTemps_temps : 4 ≤ 512 := by decide

def blockTemps : TcgContext where
  nbGlobals := 1
  nbTemps := 4
  type t := if t = 3 then .i32 else .i64
  isLocal _ := false
  globals_le := blockTemps_globals
  temps_le := blockTemps_temps

def keptCopy : List Insn := [.mov .i64 2 1, .mov .i32 3 1, .mov .i64 0 2, .exitTb 0]

def truncatedCopy : List Insn :=
  [.mov .i64 2 1, .mov .i32 3 1, .movi .i64 1 0, .mov .i64 0 2, .exitTb 0]

/-- A host that does not shift at all when it should shift too far. -/
def stillHost : Host := ⟨fun _ _ x _ => x⟩

/-- A class with temps of both types is harmless as long as an I64 temp represents it. -/
theorem keptCopy_preserved : PreservedByFolding stillHost blockTemps keptCopy :=
  folding_preserves_careful stillHost blockTemps keptCopy (by decide) (by decide)

theorem keptCopy_wellFormed : ∃ T, tableAfter stillHost blockTemps .cleared keptCopy = some T ∧
    WellFormed blockTemps T :=
  tableAfter_wellFormed stillHost (by decide)

/-- An environment in which nothing happens. -/
def emptyEnv : Env Unit where
  load _ _ _ := none
  store _ _ _ _ := none
  qemuLd _ _ _ _ := (none, ())
  qemuSt _ _ _ _ _ := (false, ())
  helper _ _ _ := (none, fun _ => 0, ())
  linked _ _ := false

def fullState : State Unit where
  temps t := some (.ofBits (blockTemps.type t) 0x100000000#64)
  mem := ()
  trace := []

/-- The table after `mov_i64 2, 1` and `mov_i32 3, 1`: the I64 temp 1 represents both copies. -/
def copiedTable : TempTable := fun t =>
  if t = 1 then ⟨.hasCopy, 2, 3, 0#64⟩ else if t = 2 then ⟨.copy, 3, 1, 1#64⟩
  else if t = 3 then ⟨.copy, 1, 2, 1#64⟩ else ⟨.undef, 0, 0, 0#64⟩

lemma tableAfter_copies :
    tableAfter stillHost blockTemps .cleared [.mov .i64 2 1, .mov .i32 3 1] = some copiedTable := by
  have hrep : (linkCopy (forgetTemp cleared 2 none) 2 1).repOf 1 = 1 := by decide
  have htable : tableAfter stillHost blockTemps .cleared [.mov .i64 2 1, .mov .i32 3 1] =
      some (linkCopy (forgetTemp (linkCopy (forgetTemp cleared 2 none) 2 1) 3 none) 3 1) := by
    conv_rhs => rw [← hrep]
    rfl
  rw [htable]
  refine congrArg some (funext fun t => ?_)
  by_cases ht : t < 4
  · interval_cases t <;> decide
  have h1 : t ≠ 1 := by omega
  have h2 : t ≠ 2 := by omega
  have h3 : t ≠ 3 := by omega
  simp [copiedTable, linkCopy, linkBehind, makeRep, forgetTemp, modify_apply, cleared, h1, h2, h3]

lemma sound_copiedTable : Sound blockTemps copiedTable fullState.temps := by
  obtain ⟨-, T, -, hafter, hT⟩ := @foldingFrom_spec blockTemps cleared
    [.mov .i64 2 1, .mov .i32 3 1] stillHost (by decide) tableOk_cleared
  cases tableAfter_copies.symm.trans hafter
  refine ⟨hT, fun t v hv => ?_, fun t c v hc _ => ?_, fun t u v _ hv => ?_⟩
  · rw [← Option.some.inj hv, Value.type_ofBits]
  · refine absurd (constOf_eq_some.mp hc).1 ?_
    unfold copiedTable
    split_ifs <;> simp
  · obtain rfl : _ = v := Option.some.inj hv
    refine ⟨_, rfl, ?_, fun h1 h2 => ?_⟩
    · cases blockTemps.type t <;> cases blockTemps.type u <;> rfl
    · rw [Value.type_ofBits] at h1 h2
      rw [h1, h2]

/-- A 64-bit move from the copy 2 reads the same from the temp 1 that represents it. -/
theorem copiedTable_reads_preserved :
    tableAfter stillHost blockTemps .cleared [.mov .i64 2 1, .mov .i32 3 1] = some copiedTable ∧
      copiedTable.repOf 2 = 1 ∧ copiedTable.repOf 3 = 1 ∧
      ∃ v, fullState.temps 1 = some v ∧ (Value.ofBits .i64 0x100000000#64).Agrees .i64 v := by
  have hreads :=
    (@reads_preserved_iff blockTemps copiedTable _ (.mov .i64 0 2) sound_copiedTable).mpr
      (by decide)
  exact ⟨tableAfter_copies, by decide, by decide,
    hreads _ sound_copiedTable (2, .i64) (by decide) _ rfl⟩

/-- **A stream of four moves that does not run as before**: the last one is made to read the I32
temp 3, so the upper half of the global is lost. -/
theorem truncated_copy_not_preserved : (∀ insn ∈ truncatedCopy, insn.Ok blockTemps)
      ∧ tcgConstantFolding stillHost blockTemps truncatedCopy
        = some [.mov .i64 2 1, .mov .i32 3 1, .movi .i64 1 0, .mov .i64 0 3, .exitTb 0]
      ∧ ¬ PreservedByFolding stillHost blockTemps truncatedCopy := by
  have hfold : tcgConstantFolding stillHost blockTemps truncatedCopy
      = some [.mov .i64 2 1, .mov .i32 3 1, .movi .i64 1 0, .mov .i64 0 3, .exitTb 0] := by
    decide
  refine ⟨by decide, hfold, ?_⟩
  rintro ⟨prog', hprog, hrun⟩
  cases hfold.symm.trans hprog
  obtain ⟨s', hs', -⟩ := hrun emptyEnv fullState
    (fun t v hv => by rw [← Option.some.inj hv, Value.type_ofBits]) 5 _ rfl
  have hnone : run emptyEnv blockTemps
      [.mov .i64 2 1, .mov .i32 3 1, .movi .i64 1 0, .mov .i64 0 3, .exitTb 0] 5
      (.running [.mov .i64 2 1, .mov .i32 3 1, .movi .i64 1 0, .mov .i64 0 3, .exitTb 0] fullState)
      = none := rfl
  rw [hnone] at hs'
  simp at hs'

end Qemu.Tcg
