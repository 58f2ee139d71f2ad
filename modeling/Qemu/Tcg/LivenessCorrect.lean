import Qemu.Tcg.Liveness

/-!
# The liveness analysis is correct

The list that `tcg_liveness_analysis` makes and the original one run in lockstep.  The temps that
the analysis takes to be live before an op have the same values in both runs.

An op that computes nothing of use is removed, and an argument that dies frees its register.  If
the analysis takes a temp for dead that is still read, the guest computes something else.

**Main results:**
* `step_matches` — one op of the list and what has been made of it.
* `tcgLivenessAnalysis_correct` — the whole list, on every path.
* `sameOutputTwice_incorrect`, `raisingCall_incorrect` — neither of its conditions can be left out.
-/

namespace Qemu.Tcg.Liveness

open Op List Liveness.State Function

/-! ## What the marks say -/

variable {ctx : TcgContext} {prog : List Op}

section Marks

variable {outs : List ℕ} {ins : List (Option ℕ)} {dead : Dead} {t : ℕ}

lemma markOuts_snd : (markOuts outs dead).2 t = (decide (t ∈ outs) || dead t) := by
  induction outs generalizing dead with
  | nil => rfl
  | cons u outs ih =>
    rw [markOuts]
    simp only [ih, mem_cons, update_apply]
    by_cases hu : t = u
    · simp [hu]
    · simp [hu]

/-- What is not written and live after the op is live before. -/
lemma markOuts_of_live (hout : t ∉ outs) (h : dead t = false) :
    (markOuts outs dead).2 t = false := by
  rw [markOuts_snd, h, decide_eq_false hout]
  rfl

lemma markIns_snd : (markIns ins dead).2 t = (!decide (some t ∈ ins) && dead t) := by
  induction ins generalizing dead with
  | nil => rfl
  | cons u ins ih =>
    cases u with
    | none =>
      rw [markIns]
      simp [ih]
    | some u =>
      rw [markIns]
      simp only [ih, mem_cons, Option.some.injEq, update_apply]
      by_cases hu : t = u
      · simp [hu]
      · simp [hu]

/-- The inputs are live before the op. -/
lemma markIns_of_mem (h : some t ∈ ins) : (markIns ins dead).2 t = false := by
  rw [markIns_snd]
  simp [h]

/-- What is live after the inputs have been read is live before. -/
lemma markIns_of_live (h : dead t = false) : (markIns ins dead).2 t = false := by
  rw [markIns_snd, h, Bool.and_false]

lemma laBbEnd_eq_false : laBbEnd ctx t = false ↔ t < ctx.nbGlobals ∨ ctx.isLocal t = true := by
  rw [laBbEnd, Bool.not_eq_false', Bool.or_eq_true, decide_eq_true_eq]

lemma laGlobals_of_lt (h : t < ctx.nbGlobals) : laGlobals ctx dead t = false := by
  rw [laGlobals, decide_eq_true h]
  rfl

lemma laGlobals_of_live (h : dead t = false) : laGlobals ctx dead t = false := by
  rw [laGlobals, h, Bool.and_false]

end Marks

section State

variable {V M : Type} {m m' : State V M} {outs : List ℕ} {ins : List (Option ℕ)} {bits : List Bool}
  {vs : List V} {dead : Dead} {t : ℕ}

lemma set_same (v : Option V) : (m.set t v).temps t = v := update_self ..

lemma set_of_ne {u : ℕ} {v : Option V} (h : t ≠ u) : (m.set u v).temps t = m.temps t :=
  update_of_ne h ..

lemma mem_kill : (m.kill ins bits).mem = m.mem := by
  induction ins generalizing m bits with
  | nil => rfl
  | cons u ins ih =>
    rcases bits with _ | ⟨b, bits⟩
    · cases u <;> rfl
    · cases u <;> cases b <;> exact ih

lemma kill_nil : m.kill ins [] = m := by
  rcases ins with _ | ⟨_ | _, _⟩ <;> rfl

lemma kill_of_live (h : dead t = false) (k : ℕ) :
    (m.kill ins ((markIns ins dead).1.take k)).temps t = m.temps t := by
  induction ins generalizing m dead k with
  | nil => rfl
  | cons u ins ih =>
    cases k with
    | zero => rw [take_zero, kill_nil]
    | succ k =>
      cases u with
      | none => exact ih h k
      | some u =>
        rw [markIns]
        simp only [take_succ_cons]
        have hupdate : update dead u false t = false := by
          rw [update_apply]
          split_ifs
          · rfl
          · exact h
        by_cases hu : dead u = true
        · rw [hu, kill, ih hupdate k]
          exact set_of_ne fun htu => by rw [htu, hu] at h; cases h
        rw [Bool.not_eq_true] at hu
        rw [hu, kill]
        · exact ih hupdate k
        · simp

lemma mem_write : (m.write outs bits vs).mem = m.mem := by
  induction outs generalizing m bits vs with
  | nil => rfl
  | cons u outs ih =>
    cases vs with
    | nil => rfl
    | cons v vs => exact ih

lemma write_of_not_mem (h : t ∉ outs) : (m.write outs bits vs).temps t = m.temps t := by
  induction outs generalizing m bits vs with
  | nil => rfl
  | cons u outs ih =>
    cases vs with
    | nil => rfl
    | cons v vs =>
      rw [mem_cons, not_or] at h
      rw [write, ih h.2, set_of_ne h.1]

/-- **Outputs that are marked** are dead afterwards, and the others are written. -/
lemma write_agrees (hnodup : outs.Nodup) (hlen : vs.length = outs.length)
    (h : ∀ t, dead t = false → t ∉ outs → m'.temps t = m.temps t) (k : ℕ) (ht : dead t = false) :
    (m'.write outs ((markOuts outs dead).1.take k) vs).temps t = (m.write outs [] vs).temps t := by
  induction outs generalizing m m' vs dead k with
  | nil => exact h t ht not_mem_nil
  | cons u outs ih =>
    obtain ⟨v, vs, rfl⟩ : ∃ v vs', vs = v :: vs' := by
      cases vs with
      | nil => cases hlen
      | cons v vs => exact ⟨v, vs, rfl⟩
    obtain ⟨hu, hnodup⟩ := nodup_cons.mp hnodup
    obtain ⟨b, k', hb, hbits⟩ : ∃ b k', (dead u = false → b = false) ∧
        (m'.write (u :: outs) ((markOuts (u :: outs) dead).1.take k) (v :: vs) =
          (m'.set u (if b then none else some v)).write outs
            ((markOuts outs (update dead u true)).1.take k') vs) := by
      cases k with
      | zero => exact ⟨false, 0, fun _ => rfl, rfl⟩
      | succ k => exact ⟨dead u, k, id, rfl⟩
    rw [hbits]
    show _ = ((m.set u (some v)).write outs [] vs).temps t
    by_cases htu : t = u
    · subst htu
      rw [write_of_not_mem hu, write_of_not_mem hu, hb ht, set_same, set_same]
      rfl
    refine ih hnodup (Nat.succ.inj hlen) ?_ k' ?_
    · intro x hx hxs
      rw [update_apply] at hx
      split_ifs at hx with hxu
      rw [set_of_ne hxu, set_of_ne hxu]
      exact h x hx (by simp [hxu, hxs])
    · rw [update_of_ne htu, ht]

/-- The temps that are live have the same values. -/
structure Agrees (dead : Dead) (m m' : State V M) : Prop where
  temps : ∀ t, dead t = false → m'.temps t = m.temps t
  mem : m'.mem = m.mem

lemma Agrees.read (h : Agrees dead m m') (hins : ∀ t, some t ∈ ins → dead t = false) :
    m'.read ins = m.read ins := by
  have hmem : ∀ ts : List ℕ, (∀ t ∈ ts, dead t = false) → ts.mapM m'.temps = ts.mapM m.temps := by
    intro ts hts
    induction ts with
    | nil => rfl
    | cons t ts ih =>
      rw [mapM_cons, mapM_cons, h.temps t (hts t mem_cons_self),
        ih fun u hu => hts u (mem_cons_of_mem _ hu)]
  exact hmem _ fun t ht => hins t (reduceOption_mem_iff.mp ht)

/-- At the end of a block, everything that is kept is live. -/
lemma Agrees.endBlock (h : Agrees dead m m')
    (hdead : ∀ t, laBbEnd ctx t = false → dead t = false) (mem : M) :
    m'.endBlock ctx mem = m.endBlock ctx mem := by
  refine congrArg (State.mk · mem) ?_
  funext t
  split_ifs with ht
  · exact h.temps t (hdead t (laBbEnd_eq_false.mpr ht))
  · rfl

lemma Agrees.globals (h : Agrees dead m m') (hdead : ∀ t, t < ctx.nbGlobals → dead t = false) :
    m'.globals ctx = m.globals ctx := by
  funext t
  rw [State.globals, State.globals]
  split_ifs with ht
  · exact h.temps t (hdead t ht)
  · rfl

end State

/-! ## One op -/

section Simulation

variable {V M : Type} {sem : Sem V M}

/-- A list of ops and what has become of it are at the same place, where live temps, and at the end
all, have the same values. -/
inductive Matches (sem : Sem V M) (ctx : TcgContext) (prog : List Op) :
    Status V M → Status V M → Prop
  | running {ops : List Op} {m m' : State V M} (hops : ops <:+ prog)
      (h : Agrees (liveness ctx ops).2 m m') (hend : ops = [] → m' = m) :
      Matches sem ctx prog (.running (ops.map Op.unmarked) m)
        (.running (tcgLivenessAnalysis ctx ops) m')
  | halted (e : Exit) {m m' : State V M} (hmem : m'.mem = m.mem)
      (hglobals : m'.globals ctx = m.globals ctx) :
      Matches sem ctx prog (.halted e m) (.halted e m')

lemma Matches.of_eq {ops : List Op} (hops : ops <:+ prog) (m : State V M) :
    Matches sem ctx prog (.running (ops.map unmarked) m)
      (.running (tcgLivenessAnalysis ctx ops) m) :=
  .running hops ⟨fun _ _ => rfl, rfl⟩ fun _ => rfl

/-- The analysis leaves the labels where they are. -/
lemma livenessOp_eq_setLabel {op : Op} {dead : Dead} {label : ℕ} :
    (livenessOp ctx op dead).1.op = .setLabel label ↔ op = .setLabel label := by
  cases op with
  | setLabel l => rfl
  | debugInsnStart => exact ⟨nofun, nofun⟩
  | nopn => exact ⟨nofun, nofun⟩
  | discard t => exact ⟨nofun, nofun⟩
  | call flags outs ins | op opc outs ins consts =>
    rw [livenessOp]
    split_ifs
    all_goals exact ⟨nofun, nofun⟩

variable {code : List MarkedOp} {outs : List ℕ} {vs : List V}

lemma afterLabel_liveness (ctx : TcgContext) {label : ℕ}
    (h : afterLabel label (prog.map unmarked) = some code) :
    ∃ ops, ops <:+ prog ∧ code = ops.map unmarked ∧
      afterLabel label (tcgLivenessAnalysis ctx prog) = some (tcgLivenessAnalysis ctx ops) := by
  induction prog with
  | nil => cases h
  | cons op prog ih =>
    rw [map_cons, afterLabel] at h
    rw [tcgLivenessAnalysis, liveness]
    simp only [afterLabel, livenessOp_eq_setLabel]
    split_ifs at h with hop
    · have hop : op = .setLabel label := hop
      rw [if_pos hop]
      cases h
      exact ⟨prog, suffix_cons _ _, rfl, rfl⟩
    · have hop : op ≠ .setLabel label := hop
      rw [if_neg hop]
      obtain ⟨ops, hsuffix, hcode, hafter⟩ := ih h
      exact ⟨ops, hsuffix.trans (suffix_cons _ _), hcode, hafter⟩

variable {ops : List Op} {op : Op} {m m' : State V M} {dead dead' : Dead} {s : Status V M}

lemma Agrees.write (h : Agrees dead' m m') (hnodup : outs.Nodup) (hlen : vs.length = outs.length)
    (hdead : ∀ t, dead t = false → t ∉ outs → dead' t = false) (k : ℕ) :
    Agrees dead (m.write outs [] vs) (m'.write outs ((markOuts outs dead).1.take k) vs) where
  temps t ht := write_agrees hnodup hlen (fun u hu hout => h.temps u (hdead u hu hout)) k ht
  mem := by rw [mem_write, mem_write, h.mem]

/-- What is dead before an op that is kept, but for its inputs: `dead'` from `dead` after it. -/
structure Transfer (ctx : TcgContext) (op : Op) (dead dead' : Dead) : Prop where
  live : op.bbEnd = false → ∀ t, dead t = false → t ∉ op.outs → dead' t = false
  locals : op.endsBlock = true → dead' = laBbEnd ctx
  globals : op.needsGlobals = true → ∀ t, t < ctx.nbGlobals → dead' t = false

lemma finish_matches {outcome : Outcome V M} {inBits : List Bool} (hops : ops <:+ prog)
    (h : Agrees dead' m m') (hnodup : op.outs.Nodup) (hlast : ops = [] → op.bbEnd = true)
    (htransfer : Transfer ctx op (liveness ctx ops).2 dead') (hraise : ∀ mem, outcome ≠ .raise mem)
    (hjump : op.bbEnd = true ↔ ∃ target mem, outcome = .jump target mem)
    (hs : outcome.finish ctx (prog.map unmarked) op.unmarked (ops.map unmarked) m = some s) :
    ∃ s', outcome.finish ctx (tcgLivenessAnalysis ctx prog)
      (mark op (markOuts op.outs (liveness ctx ops).2).1 inBits)
        (tcgLivenessAnalysis ctx ops) m' = some s' ∧
        Matches sem ctx prog s s' := by
  have hwrite : (∀ target mem, outcome ≠ .jump target mem) → ops ≠ [] ∧ op.bbEnd = false := by
    intro houtcome
    have hbbEnd : ¬ op.bbEnd = true := fun h => by
      obtain ⟨target, mem, h⟩ := hjump.mp h
      exact houtcome target mem h
    exact ⟨mt hlast hbbEnd, Bool.not_eq_true _ ▸ hbbEnd⟩
  cases outcome with
  | write vs mem =>
    obtain ⟨hops', hbbEnd⟩ := hwrite nofun
    obtain ⟨hlen, hs⟩ := Option.ite_none_right_eq_some.mp hs
    cases hs
    refine ⟨_, if_pos hlen, .running hops ?_ fun hnil => absurd hnil hops'⟩
    have h : Agrees dead' { m with mem := mem } { m' with mem := mem } := ⟨h.temps, rfl⟩
    exact h.write hnodup hlen (htransfer.live hbbEnd) 16
  | clobber r =>
    cases r with
    | ok vs g mem =>
      obtain ⟨hops', hbbEnd⟩ := hwrite nofun
      obtain ⟨hlen, hs⟩ := Option.ite_none_right_eq_some.mp hs
      cases hs
      refine ⟨_, if_pos hlen, .running hops ?_ fun hnil => absurd hnil hops'⟩
      have h : Agrees dead' (m.clobbered ctx g mem) (m'.clobbered ctx g mem) := by
        refine ⟨fun t ht => ?_, rfl⟩
        simp only [clobbered]
        split_ifs
        · rfl
        · exact h.temps t ht
      exact h.write hnodup hlen (htransfer.live hbbEnd) 16
    | raise g mem =>
      cases hs
      refine ⟨_, rfl, .halted _ rfl ?_⟩
      funext t
      simp only [globals, clobbered]
      split_ifs
      · rfl
      · rfl
  | jump target mem =>
    have hdead : dead' = laBbEnd ctx :=
      htransfer.locals (endsBlock_of_bbEnd (hjump.mpr ⟨target, mem, rfl⟩))
    have hend := h.endBlock (fun t ht => hdead ▸ ht) mem
    cases target with
    | next =>
      cases hs
      simp only [Outcome.finish, hend]
      exact ⟨_, rfl, .of_eq hops _⟩
    | label label =>
      obtain ⟨code, hcode, rfl⟩ := Option.map_eq_some_iff.mp hs
      obtain ⟨ops', hops', rfl, hafter⟩ := afterLabel_liveness ctx hcode
      simp only [Outcome.finish, hend, hafter]
      exact ⟨_, rfl, .of_eq hops' _⟩
    | leave code =>
      cases hs
      simp only [Outcome.finish, hend]
      exact ⟨_, rfl, .halted _ rfl rfl⟩
  | raise mem => exact absurd rfl (hraise mem)

def Sem.ConstReturns (sem : Sem V M) : Prop := ∀ vs mem, (sem.constHelper vs mem).1 ≠ none

/-- What an op does depends on the globals only if they are in use. -/
lemma eval_congr {mem : M} {g g' : ℕ → Option V} (h : op.needsGlobals = true → g' = g) :
    op.eval sem vs g' mem = op.eval sem vs g mem := by
  cases op with
  | call flags outs ins =>
    rw [Op.eval, Op.eval]
    by_cases hconst : flags.isConst = true
    · rw [if_pos hconst, if_pos hconst, if_pos hconst, if_pos hconst]
    · rw [h (by simp [needsGlobals, hconst])]
  | op opc outs ins consts =>
    rw [Op.eval, Op.eval]
    split_ifs with hend hclobber
    · rfl
    · rw [h (by simp [needsGlobals, hclobber])]
    · rfl
    · rfl
  | setLabel l => rfl
  | debugInsnStart => rfl
  | nopn => rfl
  | discard t => rfl

/-- The ops at the end of a basic block are those that jump, and only a const helper raises. -/
lemma eval_outcome {mem : M} {g : ℕ → Option V} {outcome : Outcome V M}
    (h : op.eval sem vs g mem = some outcome) :
    (op.bbEnd = true ↔ ∃ target mem, outcome = .jump target mem) ∧
      ∀ mem', outcome = .raise mem' → (sem.constHelper vs mem).1 = none := by
  cases op with
  | op opc outs ins consts =>
    rw [Op.eval] at h
    split_ifs at h with hend hclobber hside
    · obtain ⟨r, _, rfl⟩ := Option.map_eq_some_iff.mp h
      exact ⟨⟨fun _ => ⟨r.1, r.2, rfl⟩, fun _ => hend⟩, nofun⟩
    · cases h
      exact ⟨⟨fun h => absurd h hend, nofun⟩, nofun⟩
    · obtain ⟨_, _, rfl⟩ := Option.map_eq_some_iff.mp h
      exact ⟨⟨fun h => absurd h hend, nofun⟩, nofun⟩
    · obtain ⟨_, _, rfl⟩ := Option.map_eq_some_iff.mp h
      exact ⟨⟨fun h => absurd h hend, nofun⟩, nofun⟩
  | call flags outs ins =>
    rw [Op.eval] at h
    by_cases hpure : flags.isPure = true
    · rw [if_pos hpure] at h
      cases h
      exact ⟨⟨nofun, nofun⟩, nofun⟩
    split_ifs at h with hconst
    · rcases hr : sem.constHelper vs mem with ⟨_ | outs, mem'⟩
      all_goals
        rw [hr] at h
        cases h
      · exact ⟨⟨nofun, nofun⟩, fun _ _ => rfl⟩
      · exact ⟨⟨nofun, nofun⟩, nofun⟩
    · cases h
      exact ⟨⟨nofun, nofun⟩, nofun⟩
  | setLabel l | debugInsnStart | nopn | discard t =>
    exact Option.some.inj h ▸ ⟨⟨nofun, nofun⟩, nofun⟩

lemma execute_eq_some {rest : List MarkedOp} {op : MarkedOp} :
    execute sem ctx code op rest m = some s ↔ ∃ vs outcome, m.read op.op.ins = some vs ∧
      op.op.eval sem vs ((m.kill op.op.ins op.deadIns).globals ctx)
        (m.kill op.op.ins op.deadIns).mem =
        some outcome ∧ outcome.finish ctx code op rest (m.kill op.op.ins op.deadIns) = some s := by
  rw [execute]
  cases m.read op.op.ins with
  | none => simp
  | some vs =>
    simp only [Option.some.injEq, exists_and_left, exists_eq_left']
    cases op.op.eval sem vs _ _ <;> simp

/-- **An op that is kept.** -/
lemma execute_matches (hsem : sem.ConstReturns) (hops : ops <:+ prog) (hnodup : op.outs.Nodup)
    (hlast : ops = [] → op.bbEnd = true) (htransfer : Transfer ctx op (liveness ctx ops).2 dead)
    (h : Agrees (markIns op.ins dead).2 m m')
    (hs : execute sem ctx (prog.map unmarked) op.unmarked (ops.map unmarked) m = some s) :
    ∃ s', execute sem ctx (tcgLivenessAnalysis ctx prog)
      (mark op (markOuts op.outs (liveness ctx ops).2).1 (markIns op.ins dead).1)
      (tcgLivenessAnalysis ctx ops) m' = some s' ∧ Matches sem ctx prog s s' := by
  have hread : m'.read op.ins = m.read op.ins := h.read fun t ht => markIns_of_mem ht
  have hkill : Agrees dead m (m'.kill op.ins
      ((markIns op.ins dead).1.take (16 - (markOuts op.outs (liveness ctx ops).2).1.length))) :=
    ⟨fun t ht => (kill_of_live ht _).trans (h.temps t (markIns_of_live ht)), mem_kill.trans h.mem⟩
  obtain ⟨vs, outcome, hvs, hout, hs⟩ := execute_eq_some.mp hs
  simp only [unmarked, kill_nil] at hvs hout hs
  obtain ⟨hjump, hraise⟩ := eval_outcome hout
  obtain ⟨s', hs', hmatch⟩ := finish_matches hops hkill hnodup hlast htransfer
    (fun mem hr => hsem vs m.mem (hraise mem hr)) hjump hs
  refine ⟨s', execute_eq_some.mpr ⟨vs, outcome, hread.trans hvs, ?_, hs'⟩, hmatch⟩
  rw [← hout, ← hkill.mem]
  exact eval_congr fun hneeds => hkill.globals (htransfer.globals hneeds)

/-- **An op that is removed** computes nothing that is live. -/
lemma removed_matches (hops : ops <:+ prog) (hne : ops ≠ [])
    (hdead : op.outs.all (liveness ctx ops).2 = true) (h : Agrees (liveness ctx ops).2 m m') :
    Matches sem ctx prog (.running (ops.map unmarked) (m.write op.outs [] vs))
      (.running (tcgLivenessAnalysis ctx ops) m') := by
  refine .running hops ⟨fun t ht => ?_, ?_⟩ fun hnil => absurd hnil hne
  · have hout : t ∉ op.outs := by
      intro hmem
      have hdead := all_eq_true.mp hdead t hmem
      rw [ht] at hdead
      cases hdead
    rw [write_of_not_mem hout]
    exact h.temps t ht
  · rw [mem_write]
    exact h.mem

lemma transfer_call {flags : CallFlags} {ins : List (Option ℕ)} {dead : Dead} :
    Transfer ctx (.call flags outs ins) dead
      (if flags.isConst then (markOuts outs dead).2 else laGlobals ctx (markOuts outs dead).2) where
  live _ t ht hout := by
    have hlive : (markOuts outs dead).2 t = false := markOuts_of_live hout ht
    split_ifs
    · exact hlive
    · exact laGlobals_of_live hlive
  locals h := nomatch h
  globals hneeds t ht := by
    rw [(Bool.not_eq_true' _).mp hneeds]
    exact laGlobals_of_lt ht

lemma transfer_op {opc : Opcode} {ins consts : List ℕ} {dead : Dead} :
    Transfer ctx (.op opc outs ins consts) dead (if opc.flags.bbEnd then laBbEnd ctx
        else if opc.flags.callClobber then laGlobals ctx (markOuts outs dead).2
        else (markOuts outs dead).2) where
  live hend t ht hout := by
    have hend : opc.flags.bbEnd = false := hend
    have hlive : (markOuts outs dead).2 t = false := markOuts_of_live hout ht
    rw [hend]
    simp only [Bool.false_eq_true, if_false]
    split_ifs
    · exact laGlobals_of_live hlive
    · exact hlive
  locals hend := if_pos hend
  globals hneeds t ht := by
    split_ifs with hend hclobber
    · exact laBbEnd_eq_false.mpr (.inl ht)
    · exact laGlobals_of_lt ht
    · rw [needsGlobals, Bool.or_eq_true] at hneeds
      exact absurd hneeds (not_or.mpr ⟨hend, hclobber⟩)

/-- What an op without side effects does. -/
lemma execute_of_pure {rest : List MarkedOp}
    (hpure : ∀ vs g mem outcome, op.eval sem vs g mem = some outcome →
      ∃ outs, outcome = .write outs mem)
    (hs : execute sem ctx code op.unmarked rest m = some s) :
    ∃ vs, s = .running rest (m.write op.outs [] vs) := by
  obtain ⟨vs, outcome, _, hout, hs⟩ := execute_eq_some.mp hs
  simp only [unmarked, kill_nil] at hout hs
  obtain ⟨outs, rfl⟩ := hpure vs _ _ _ hout
  obtain ⟨hlen, hs⟩ := Option.ite_none_right_eq_some.mp hs
  exact ⟨outs, (Option.some.inj hs).symm⟩

/-- **One op** of the list and what the analysis has made of it. -/
theorem step_matches (hsem : sem.ConstReturns) (hops : ops <:+ prog) (hnodup : op.outs.Nodup)
    (hlast : ops = [] → op.bbEnd = true) (h : Agrees (liveness ctx (op :: ops)).2 m m')
    (hs : step sem ctx (prog.map unmarked) op.unmarked (ops.map unmarked) m = some s) :
    ∃ s', step sem ctx (tcgLivenessAnalysis ctx prog) (livenessOp ctx op (liveness ctx ops).2).1
      (tcgLivenessAnalysis ctx ops) m' = some s' ∧ Matches sem ctx prog s s' := by
  have h : Agrees (livenessOp ctx op (liveness ctx ops).2).2 m m' := h
  have hne : op.bbEnd = false → ops ≠ [] := fun hop hnil => by
    rw [hlast hnil] at hop
    cases hop
  cases op with
  | setLabel l =>
    cases hs
    have hend : m'.endBlock ctx m'.mem = m.endBlock ctx m.mem := by
      rw [h.mem]
      exact h.endBlock (fun _ ht => ht) _
    exact ⟨_, congrArg (fun k => some (Status.running _ k)) hend, .of_eq hops _⟩
  | debugInsnStart | nopn =>
    cases hs
    exact ⟨_, rfl, .running hops h fun hnil => absurd hnil (hne rfl)⟩
  | discard t =>
    cases hs
    refine ⟨_, rfl, .running hops ⟨fun u hu => ?_, h.mem⟩ fun hnil => absurd hnil (hne rfl)⟩
    by_cases hut : u = t
    · rw [hut, set_same, set_same]
    · rw [set_of_ne hut, set_of_ne hut]
      exact h.temps u ((update_of_ne hut _ _).trans hu)
  | call flags outs ins =>
    have hs : execute sem ctx (prog.map unmarked) (call flags outs ins).unmarked
        (ops.map unmarked) m = some s := hs
    rw [livenessOp] at h ⊢
    by_cases hremove : (flags.isPure && outs.all (liveness ctx ops).2) = true
    · rw [if_pos hremove] at h ⊢
      obtain ⟨hpure, hdead⟩ := Bool.and_eq_true_iff.mp hremove
      obtain ⟨vs, rfl⟩ := execute_of_pure (fun vs g mem outcome hout => by
        rw [Op.eval, if_pos hpure] at hout
        exact ⟨_, (Option.some.inj hout).symm⟩) hs
      exact ⟨_, rfl, removed_matches hops (hne rfl) hdead h⟩
    · rw [if_neg hremove] at h ⊢
      exact execute_matches hsem hops hnodup hlast transfer_call h hs
  | op opc outs ins consts =>
    have hs : execute sem ctx (prog.map unmarked) (Op.op opc outs ins consts).unmarked
        (ops.map unmarked) m = some s := hs
    rw [livenessOp] at h ⊢
    by_cases hremove : (!opc.flags.sideEffects && !outs.isEmpty &&
      outs.all (liveness ctx ops).2) = true
    · rw [if_pos hremove] at h ⊢
      rw [Bool.and_eq_true, Bool.and_eq_true, Bool.not_eq_true'] at hremove
      obtain ⟨⟨hside, _⟩, hdead⟩ := hremove
      obtain ⟨hend, hclobber⟩ := Opcode.flags_of_sideEffects hside
      obtain ⟨vs, rfl⟩ := execute_of_pure (fun vs g mem outcome hout => by
        rw [Op.eval, hend, hclobber, hside] at hout
        obtain ⟨outs, _, hout⟩ := Option.map_eq_some_iff.mp hout
        exact ⟨outs, hout.symm⟩) hs
      exact ⟨_, rfl, removed_matches hops (hne hend) hdead h⟩
    · rw [if_neg hremove] at h ⊢
      exact execute_matches hsem hops hnodup hlast transfer_op h hs

lemma Matches.step {t : Status V M} {s' : Status V M} (hsem : sem.ConstReturns)
    (hnodup : ∀ op ∈ prog, op.outs.Nodup) (hlast : ∀ op ∈ prog.getLast?, op.bbEnd = true)
    (h : Matches sem ctx prog s s') (hs : s.step sem ctx (prog.map unmarked) = some t) :
    ∃ t', s'.step sem ctx (tcgLivenessAnalysis ctx prog) = some t' ∧ Matches sem ctx prog t t' := by
  cases h with
  | halted e hmem hglobals =>
    cases hs
    exact ⟨_, rfl, .halted e hmem hglobals⟩
  | @running ops m m' hops h hend =>
    cases ops with
    | nil =>
      cases hs
      obtain rfl := hend rfl
      exact ⟨_, rfl, .halted _ rfl rfl⟩
    | cons op ops =>
      have hsuffix : ops <:+ prog := (suffix_cons op ops).trans hops
      refine step_matches hsem hsuffix (hnodup op (hops.subset mem_cons_self)) ?_ h hs
      rintro rfl
      refine hlast op ?_
      obtain ⟨before, rfl⟩ := hops
      rw [getLast?_append_of_ne_nil _ (cons_ne_nil _ _)]
      rfl

lemma Matches.run {t : Status V M} {s' : Status V M} (hsem : sem.ConstReturns)
    (hnodup : ∀ op ∈ prog, op.outs.Nodup) (hlast : ∀ op ∈ prog.getLast?, op.bbEnd = true) (n : ℕ)
    (h : Matches sem ctx prog s s') (hs : run sem ctx (prog.map unmarked) n s = some t) :
    ∃ t', run sem ctx (tcgLivenessAnalysis ctx prog) n s' = some t' ∧
      Matches sem ctx prog t t' := by
  induction n generalizing s s' with
  | zero =>
    cases hs
    exact ⟨s', rfl, h⟩
  | succ n ih =>
    obtain ⟨u, hu, hs⟩ := Option.bind_eq_some_iff.mp hs
    obtain ⟨u', hu', h⟩ := h.step hsem hnodup hlast hu
    obtain ⟨t', ht', h⟩ := ih h hs
    exact ⟨t', Option.bind_eq_some_iff.mpr ⟨u', hu', ht'⟩, h⟩

end Simulation

/-! ## The whole list -/

section Correct

variable {V M : Type}

/-- Before `op`, of which `op'` has been made, everything that `op'` uses is the same. -/
structure SameBefore (ctx : TcgContext) (op op' : Op) (m m' : State V M) : Prop where
  op : op' = op ∨ op' = .nopn
  ins : m'.read op'.ins = m.read op'.ins
  globals : op'.needsGlobals = true → m'.globals ctx = m.globals ctx
  locals : op'.endsBlock = true → m'.endBlock ctx m'.mem = m.endBlock ctx m.mem
  mem : m'.mem = m.mem

/-- Two runs are at the same place, with the same values in use there and the same effects. -/
inductive Same (ctx : TcgContext) : Status V M → Status V M → Prop
  | next {op op' : MarkedOp} {rest rest' : List MarkedOp} {m m' : State V M}
      (hlen : rest'.length = rest.length) (h : SameBefore ctx op.op op'.op m m') :
      Same ctx (.running (op :: rest) m) (.running (op' :: rest') m')
  | atEnd (m : State V M) : Same ctx (.running [] m) (.running [] m)
  | halted (e : Exit) {m m' : State V M} (hmem : m'.mem = m.mem)
      (hglobals : m'.globals ctx = m.globals ctx) :
      Same ctx (.halted e m) (.halted e m')

variable {sem : Sem V M} {op : Op} {dead dead' : Dead} {m m' : State V M}

lemma sameBefore_of_transfer (htransfer : Transfer ctx op dead dead')
    (h : Agrees (markIns op.ins dead').2 m m') : SameBefore ctx op op m m' where
  op := .inl rfl
  ins := h.read fun t ht => markIns_of_mem ht
  globals hneeds := h.globals fun t ht => markIns_of_live (htransfer.globals hneeds t ht)
  locals hend := by
    rw [h.mem]
    exact h.endBlock (fun t ht => markIns_of_live (htransfer.locals hend ▸ ht)) _
  mem := h.mem

lemma sameBefore_of_removed (h : Agrees dead m m') : SameBefore ctx op .nopn m m' where
  op := .inr rfl
  ins := rfl
  globals hneeds := nomatch hneeds
  locals hend := nomatch hend
  mem := h.mem

lemma sameBefore_of_agrees (h : Agrees (livenessOp ctx op dead).2 m m') :
    SameBefore ctx op (livenessOp ctx op dead).1.op m m' := by
  cases op with
  | setLabel l =>
    have hend : m'.endBlock ctx m'.mem = m.endBlock ctx m.mem := by
      rw [h.mem]
      exact h.endBlock (fun _ ht => ht) _
    have hglobals : m'.globals ctx = m.globals ctx :=
      h.globals fun t ht => laBbEnd_eq_false.mpr (.inl ht)
    exact ⟨.inl rfl, rfl, fun _ => hglobals, fun _ => hend, h.mem⟩
  | debugInsnStart | nopn | discard t => exact ⟨.inl rfl, rfl, nofun, nofun, h.mem⟩
  | call flags outs ins =>
    rw [livenessOp] at h ⊢
    by_cases hremove : (flags.isPure && outs.all dead) = true
    · rw [if_pos hremove] at h ⊢
      exact sameBefore_of_removed h
    · rw [if_neg hremove] at h ⊢
      exact sameBefore_of_transfer transfer_call h
  | op opc outs ins consts =>
    rw [livenessOp] at h ⊢
    by_cases hremove : (!opc.flags.sideEffects && !outs.isEmpty && outs.all dead) = true
    · rw [if_pos hremove] at h ⊢
      exact sameBefore_of_removed h
    · rw [if_neg hremove] at h ⊢
      exact sameBefore_of_transfer transfer_op h

lemma length_liveness (ops : List Op) : (tcgLivenessAnalysis ctx ops).length = ops.length := by
  induction ops with
  | nil => rfl
  | cons op ops ih => exact congrArg Nat.succ ih

lemma Matches.same {s s' : Status V M} (h : Matches sem ctx prog s s') : Same ctx s s' := by
  cases h with
  | halted e hmem hglobals => exact .halted e hmem hglobals
  | @running ops m m' hops h hend =>
    cases ops with
    | nil =>
      obtain rfl := hend rfl
      exact .atEnd m'
    | cons op ops =>
      exact .next ((length_liveness ops).trans (length_map _).symm) (sameBefore_of_agrees h)

/-- **The whole list**, on every path: after any number of steps the new list is at the same place
as the original one, with the same effects and the same values of all that is in use. -/
theorem tcgLivenessAnalysis_correct (sem : Sem V M) (ctx : TcgContext) (prog : List Op)
    (hlast : ∃ op ∈ prog.getLast?, op.bbEnd = true) (hnodup : ∀ op ∈ prog, op.outs.Nodup)
    (hconst : sem.ConstReturns) (m : State V M) (n : ℕ) (s : Status V M)
    (h : run sem ctx (prog.map unmarked) n (.running (prog.map unmarked) m) = some s) :
    ∃ s', run sem ctx (tcgLivenessAnalysis ctx prog) n
      (.running (tcgLivenessAnalysis ctx prog) m) = some s' ∧
      Same ctx s s' := by
  have hlast' : ∀ op ∈ prog.getLast?, op.bbEnd = true := by
    obtain ⟨op, hop, hend⟩ := hlast
    intro op' hop'
    rw [← Option.mem_unique hop hop']
    exact hend
  obtain ⟨s', hs', hmatch⟩ := (Matches.of_eq suffix_rfl m).run hconst hnodup hlast' n h
  exact ⟨s', hs', hmatch.same⟩

/-- Ops that add up their inputs, stores that are kept in a list, and jumps that leave the list. -/
def sumSem : Sem ℕ (List ℕ) where
  compute opc _ vs _ := some (if opc = .div2 .i32 then [vs.sum, 0] else [vs.sum])
  effect _ _ vs mem := some ([], vs ++ mem)
  access _ _ vs g mem := .ok [vs.sum] g mem
  branch _ consts _ mem := some (.leave consts.sum, mem)
  helper vs g mem := .ok [vs.sum] g mem
  pureHelper vs _ _ := [vs.sum]
  constHelper vs mem := (some [vs.sum], mem)

def oneGlobal : TcgContext where
  nbGlobals := 1
  nbTemps := 4
  type _ := .i32
  isLocal _ := false
  globals_le := by decide
  temps_le := by decide

def unusedSum : List Op :=
  [.op (.add .i32) [1] [0, 0] [], .op (.add .i32) [2] [0, 0] [], .op (.st .i32) [] [2, 0] [8],
    .op .exitTb [] [] [3]]

theorem unusedSum_correct : (tcgLivenessAnalysis oneGlobal unusedSum).head? = some nopn.unmarked ∧
      ∃ s, run sumSem oneGlobal (unusedSum.map unmarked) 4
          (.running (unusedSum.map unmarked) ⟨fun _ => some 5, []⟩) = some s ∧
        ∃ s', run sumSem oneGlobal (tcgLivenessAnalysis oneGlobal unusedSum) 4
          (.running (tcgLivenessAnalysis oneGlobal unusedSum) ⟨fun _ => some 5, []⟩) = some s' ∧
            Same oneGlobal s s' :=
  ⟨by decide, _, rfl, tcgLivenessAnalysis_correct sumSem oneGlobal unusedSum
    ⟨_, rfl, rfl⟩ (by decide)
    (fun _ _ => nofun) ⟨fun _ => some 5, []⟩ 4 _ rfl⟩

def sameOutputTwice : List Op :=
  [.op (.div2 .i32) [1, 1] [0, 0, 0] [], .op (.st .i32) [] [1, 0] [8], .op .exitTb [] [] [3]]

/-- The second output of an op that writes one temp twice is taken to be dead. -/
theorem sameOutputTwice_incorrect : ¬ ∀ (V M : Type) (sem : Sem V M) (ctx : TcgContext)
    (prog : List Op),
      (∃ op ∈ prog.getLast?, op.bbEnd = true) → ∀ (m : State V M) (n : ℕ) (s : Status V M),
        run sem ctx (prog.map unmarked) n (.running (prog.map unmarked) m) = some s →
          ∃ s', run sem ctx (tcgLivenessAnalysis ctx prog) n
            (.running (tcgLivenessAnalysis ctx prog) m) = some s' ∧ Same ctx s s' := by
  intro h
  obtain ⟨s', hs', _⟩ := h ℕ (List ℕ) sumSem oneGlobal sameOutputTwice ⟨_, rfl, rfl⟩
    ⟨fun _ => some 5, []⟩ 2 _ rfl
  cases hs'

def raisingSem : Sem ℕ (List ℕ) := { sumSem with constHelper := fun _ mem => (none, mem) }

def raisingCall : List Op :=
  [.op (.add .i32) [0] [1, 1] [], .call ⟨false, true⟩ [2] [], .op (.add .i32) [0] [1, 1] [],
    .op .exitTb [] [] [3]]

/-- If a const helper raises an exception, the globals are not what they were: the value that the
first op gives to the global is overwritten behind the call, so that the op has been removed. -/
theorem raisingCall_incorrect : (∃ op ∈ raisingCall.getLast?, op.bbEnd = true) ∧
      (∀ op ∈ raisingCall, op.outs.Nodup) ∧
      ∃ s, run raisingSem oneGlobal (raisingCall.map unmarked) 2
          (.running (raisingCall.map unmarked) ⟨fun _ => some 5, []⟩) = some s ∧
        ∀ s', run raisingSem oneGlobal (tcgLivenessAnalysis oneGlobal raisingCall) 2
          (.running (tcgLivenessAnalysis oneGlobal raisingCall) ⟨fun _ => some 5, []⟩) = some s' →
            ¬ Same oneGlobal s s' := by
  refine ⟨⟨_, rfl, rfl⟩, by decide, _, rfl, fun s' hs' hsame => ?_⟩
  cases hs'
  cases hsame with
  | halted e hmem hglobals => exact absurd (congrFun hglobals 0) (by decide)

end Correct

end Qemu.Tcg.Liveness
