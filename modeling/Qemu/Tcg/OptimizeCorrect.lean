import Mathlib
import Qemu.Tcg.Optimize

/-!
# What constant and copy propagation preserves

The table says something true about the values of the temps (`Sound`): a constant is the value of
its temp, and the temps of a class agree, in the bits that both have.  One turn of the loop keeps
this up, and the op it leaves does what the op it found does.

A guest cannot see which ops were folded, but it does see the values: the translated code has to
compute what the guest's own instructions say.
-/

namespace Qemu.Tcg

open BinOp Insn List State Value Function TempTable

/-! ## What the table says -/

/-- The values that the table allows. -/
structure Sound (ctx : TcgContext) (T : TempTable) (σ : ℕ → Option Value) : Prop where
  table : TableOk ctx T
  typed : ∀ t v, σ t = some v → v.type = ctx.type t
  const : ∀ t c v, T.constOf t = some c → σ t = some v → v.Agrees .i64 (.w64 c)
  copy : ∀ t u v, T.repOf t = T.repOf u → σ t = some v →
    ∃ v', σ u = some v' ∧ v.lo = v'.lo ∧ (v.type = .i64 → v'.type = .i64 → v = v')

/-- The values have the types of their temps. -/
def Typed (ctx : TcgContext) (σ : ℕ → Option Value) :
    Prop := ∀ t v, σ t = some v → v.type = ctx.type t

/-- Whatever happens to the other temps, `T'` holds after it if `T` did before. -/
def SoundAfter (ctx : TcgContext) (T T' : TempTable) (kept : ℕ → Prop) : Prop :=
  ∀ σ σ' : ℕ → Option Value, Sound ctx T σ → (∀ t, kept t → σ' t = σ t) →
    Typed ctx σ' → Sound ctx T' σ'

variable {t : ℕ}

section Sound

variable {ctx : TcgContext} {T T' : TempTable} {σ σ' : ℕ → Option Value} {temp dst src : ℕ}
  {w : TcgType} {v : Value}

lemma constOf_eq_some {c : BitVec 64} :
    T.constOf t = some c ↔ (T t).state = .const ∧ (T t).val = c := by
  simp [constOf]

lemma TableOk.repOf_repOf (hT : TableOk ctx T) (t : ℕ) : T.repOf (T.repOf t) = T.repOf t :=
  repOf_of_ne_copy (hT.state_repOf t)

/-- Only a temp in no class is constant. -/
lemma TableOk.repOf_eq_of_const (hT : TableOk ctx T) (h : (T (T.repOf t)).state = .const) :
    T.repOf t = t := by
  by_cases hs : (T t).state = .copy
  · obtain ⟨r, l, hc, ht⟩ := hT.copy t hs
    rw [hc.repOf_eq ht, hc.rep] at h
    simp at h
  · exact repOf_of_ne_copy hs

/-- Two temps of one class are no globals, and of one locality. -/
lemma TableOk.kind (hT : TableOk ctx T) {u : ℕ} (heq : T.repOf t = T.repOf u) :
    t = u ∨ (ctx.nbGlobals ≤ t ∧ ctx.nbGlobals ≤ u ∧ ctx.isLocal t = ctx.isLocal u) := by
  have hclass : ∀ {r l}, CopyClass ctx T r l → t ∈ r :: l → u ∈ r :: l →
      ctx.nbGlobals ≤ t ∧ ctx.nbGlobals ≤ u ∧ ctx.isLocal t = ctx.isLocal u := fun hc ht hu =>
    ⟨(hc.range _ ht).1, (hc.range _ hu).1, (hc.locality _ ht).trans (hc.locality _ hu).symm⟩
  rcases hT.repOf_cases t with ht | ⟨l, hc, ht⟩
  · rcases hT.repOf_cases u with hu | ⟨l, hc, hu⟩
    · exact .inl (ht.symm.trans (heq.trans hu))
    · exact .inr (hclass hc ((hT.repOf_eq_iff hc).mp heq) (mem_cons_of_mem _ hu))
  · exact .inr (hclass hc (mem_cons_of_mem _ ht) ((hT.repOf_eq_iff hc).mp heq.symm))

/-- An empty table says nothing. -/
lemma sound_cleared (hσ : Typed ctx σ) : Sound ctx .cleared σ := by
  refine ⟨tableOk_cleared, hσ, fun t c v h => ?_, fun t u v h hv => ?_⟩
  · simp [constOf, cleared] at h
  · obtain rfl : t = u := h
    exact ⟨v, hv, rfl, fun _ _ => rfl⟩

/-- **Reading the representative** of a temp instead of the temp. -/
lemma Sound.read (h : Sound ctx T σ) {u : ℕ}
    (hw : w = .i64 → ctx.type u = .i64 → ctx.type (T.repOf u) = .i64) (hu : σ u = some v) :
    ∃ v', σ (T.repOf u) = some v' ∧ v.Agrees w v' := by
  obtain ⟨v', hv', hlo, heq⟩ := h.copy u (T.repOf u) v (h.table.repOf_repOf u).symm hu
  refine ⟨v', hv', hlo, fun hw64 x hx => ?_⟩
  have hv : v.type = .i64 := by rw [hx]; rfl
  rw [← hx]
  refine (heq hv ?_).symm
  rw [h.typed _ _ hv']
  exact hw hw64 (by rw [← h.typed _ _ hu, hv])

/-- A value a temp has anyway. -/
lemma Sound.update_self (h : Sound ctx T σ) (hv : σ dst = some v) :
    Sound ctx T (update σ dst (some v)) := by
  rw [← hv, update_eq_self]
  exact h

lemma Sound.of_forgets (h : Sound ctx T σ) (hT' : TableOk ctx T') (hf : Forgets T T' temp)
    (hσ : ∀ t, t ≠ temp → σ' t = σ t) (hty : ∀ v, σ' temp = some v → v.type = ctx.type temp) :
    Sound ctx T' σ' := by
  have hself : T'.repOf temp = temp := (hf.alone temp).mpr rfl
  have hcases : ∀ t u, T'.repOf t = T'.repOf u →
      t = u ∨ (t ≠ temp ∧ u ≠ temp ∧ T.repOf t = T.repOf u) := by
    intro t u heq
    rcases eq_or_ne t temp with rfl | ht
    · rw [hself] at heq
      exact .inl ((hf.alone u).mp heq.symm).symm
    rcases eq_or_ne u temp with rfl | hu
    · rw [hself] at heq
      exact .inl ((hf.alone t).mp heq)
    · exact .inr ⟨ht, hu, (hf.same t u ht hu).mp heq⟩
  refine ⟨hT', fun t v hv => ?_, fun t c v hc hv => ?_, fun t u v heq hv => ?_⟩
  · rcases eq_or_ne t temp with rfl | ht
    · exact hty v hv
    · exact h.typed t v (by rwa [← hσ t ht])
  · have ht : t ≠ temp := by
      rintro rfl
      rw [constOf_eq_some, hf.state] at hc
      simp at hc
    exact h.const t c v (by rwa [← hf.const t ht]) (by rwa [← hσ t ht])
  · rcases hcases t u heq with rfl | ⟨ht, hu, heq⟩
    · exact ⟨v, hv, rfl, fun _ _ => rfl⟩
    · rw [hσ t ht] at hv
      rw [hσ u hu]
      exact h.copy t u v heq hv

/-- A temp joins the class of the source of a move. -/
lemma Sound.link (h : Sound ctx T σ) (hT' : TableOk ctx T') (hcopy : (T src).state ≠ .copy)
    (hconst : ∀ t, T'.constOf t = if t = dst then none else T.constOf t)
    (hrep : ∀ t, T'.repOf t = if t = dst then src else T.repOf t)
    {a : Value} (hv : σ dst = some v) (ha : σ src = some a) (hlo : v.lo = a.lo)
    (heq : v.type = .i64 → v = a) : Sound ctx T' σ := by
  have hsrc : T.repOf src = src := repOf_of_ne_copy hcopy
  refine ⟨hT', h.typed, fun t c b hc hb => ?_, fun t u b hsame hb => ?_⟩
  · rw [hconst] at hc
    split at hc
    · simp at hc
    · exact h.const t c b hc hb
  rw [hrep, hrep] at hsame
  by_cases ht : t = dst <;> by_cases hu : u = dst
  · exact ⟨b, by rw [hu, ← ht, hb], rfl, fun _ _ => rfl⟩
  · rw [if_pos ht, if_neg hu, ← hsrc] at hsame
    obtain rfl : v = b := Option.some.inj (hv.symm.trans (ht ▸ hb))
    obtain ⟨b', hb', hlo', heq'⟩ := h.copy src u a hsame ha
    refine ⟨b', hb', hlo.trans hlo', fun h1 h2 => ?_⟩
    have hva := heq h1
    exact hva.trans (heq' (hva ▸ h1) h2)
  · rw [if_neg ht, if_pos hu, ← hsrc] at hsame
    obtain ⟨a', ha', hlo', heq'⟩ := h.copy t src b hsame hb
    obtain rfl : a = a' := Option.some.inj (ha.symm.trans ha')
    refine ⟨v, hu ▸ hv, hlo'.trans hlo.symm, fun h1 h2 => ?_⟩
    have hva := heq h2
    exact (heq' h1 (hva ▸ h2)).trans hva.symm
  · rw [if_neg ht, if_neg hu] at hsame
    exact h.copy t u b hsame hb

/-- The end of a basic block takes the values of whole classes. -/
lemma Sound.endBlock {Mem : Type} {m : State Mem} (h : Sound ctx T m.temps) :
    Sound ctx T (m.endBlock ctx).temps := by
  have hsome : ∀ {t v}, (m.endBlock ctx).temps t = some v →
      (t < ctx.nbGlobals ∨ ctx.isLocal t = true) ∧ m.temps t = some v := by
    intro t v hv
    simpa [State.endBlock] using hv
  refine ⟨h.table, fun t v hv => h.typed t v (hsome hv).2,
    fun t c v hc hv => h.const t c v hc (hsome hv).2, fun t u v heq hv => ?_⟩
  obtain ⟨hlive, hv⟩ := hsome hv
  obtain ⟨v', hv', hrest⟩ := h.copy t u v heq hv
  refine ⟨v', ?_, hrest⟩
  have hlive' : u < ctx.nbGlobals ∨ ctx.isLocal u = true := by
    rcases h.table.kind heq with rfl | ⟨ht, hu, hloc⟩
    · exact hlive
    rw [← hloc]
    rcases hlive with hlive | hlive
    · omega
    · exact .inr hlive
  simp only [State.endBlock, if_pos hlive', hv']

end Sound

/-! ## Recording -/

section Record

variable {ctx : TcgContext} {T : TempTable} {dst src : ℕ} {w : TcgType} (hT : TableOk ctx T)
include hT

/-- `reset_temp` keeps the table sound for a new value of the temp. -/
lemma resetTemp_sound (temp : ℕ) :
    ∃ T', resetTemp ctx T temp = some T' ∧ TableOk ctx T' ∧ Forgets T T' temp
      ∧ ∀ (σ : ℕ → Option Value) (o : Option Value), Sound ctx T σ →
        (∀ v, o = some v → v.type = ctx.type temp) → Sound ctx T' (update σ temp o) := by
  obtain ⟨T', hr, hT', hf⟩ := resetTemp_spec hT temp
  refine ⟨T', hr, hT', hf, fun σ o h hty =>
    h.of_forgets hT' hf (fun t ht => update_of_ne ht ..) ?_⟩
  rwa [update_self]

lemma resetTemps_sound (ts : List ℕ) :
    ∃ T', resetTemps ctx T ts = some T' ∧ TableOk ctx T' ∧ SoundAfter ctx T T' (· ∉ ts) := by
  induction ts generalizing T with
  | nil =>
    refine ⟨T, rfl, hT, fun σ σ' h hσ _ => ?_⟩
    rwa [show σ' = σ from funext fun t => hσ t (by simp)]
  | cons i ts ih =>
    obtain ⟨T1, hr, hT1, -, hsound⟩ := resetTemp_sound hT i
    obtain ⟨T', hrs, hT', hsound'⟩ := ih hT1
    refine ⟨T', ?_, hT', fun σ σ' h hσ hty => ?_⟩
    · rw [resetTemps, foldlM_cons, hr]
      exact hrs
    refine hsound' _ σ' (hsound σ (σ' i) h (hty i)) (fun t ht => ?_) hty
    rcases eq_or_ne t i with rfl | hne
    · rw [update_self]
    · rw [update_of_ne hne]
      exact hσ t (by simp [hne, ht])

lemma resetGlobals_sound (flags : CallFlags) :
    ∃ T', resetGlobals ctx T flags = some T' ∧ TableOk ctx T'
      ∧ SoundAfter ctx T T' fun t => (flags.isConst || flags.isPure) = true ∨
        ctx.nbGlobals ≤ t := by
  rw [resetGlobals]
  by_cases hflags : (flags.isConst || flags.isPure) = true
  · refine ⟨T, if_pos hflags, hT, fun σ σ' h hσ _ => ?_⟩
    rwa [show σ' = σ from funext fun t => hσ t (.inl hflags)]
  obtain ⟨T', hr, hT', hsound⟩ := resetTemps_sound hT (range ctx.nbGlobals)
  refine ⟨T', by rw [if_neg hflags, hr], hT', fun σ σ' h hσ hty =>
    hsound σ σ' h (fun t ht => hσ t (.inr ?_)) hty⟩
  simpa using ht

lemma optGenMovi_spec (w : TcgType) (dst : ℕ) (val : BitVec 64) :
    ∃ T', optGenMovi ctx T w dst val = some (.movi w dst val, T') ∧ TableOk ctx T'
      ∧ ∀ σ v, Sound ctx T σ → v.Agrees .i64 (.w64 val) → v.type = ctx.type dst →
        Sound ctx T' (update σ dst (some v)) := by
  obtain ⟨T1, hr, hT1, hf, hsound⟩ := resetTemp_sound hT dst
  let T' := T1.modify dst fun i => { i with state := .const, val := val }
  have hout : ∀ t, t ≠ dst → T' t = T1 t := fun t ht => modify_ne _ ht
  have hself : T' dst = { T1 dst with state := .const, val := val } := modify_same _
  have hok : TableOk ctx T' := by
    refine hT1.replace (S := (· = dst)) hout ?_ (fun t ht hs => ?_) (fun t ht hs => ?_)
    · rintro r l t u hc ht - rfl
      rcases hc.state ht with ⟨h, -⟩ | ⟨h, -⟩ <;> rw [hf.state] at h <;> cases h
    · rw [ht, hself] at hs
      simp at hs
    · rw [ht, hself] at hs
      simp at hs
  have hrep : ∀ t, T'.repOf t = T1.repOf t := by
    intro t
    rcases eq_or_ne t dst with rfl | ht
    · rw [repOf_of_ne_copy (by rw [hself]; simp), repOf_of_ne_copy (by rw [hf.state]; simp)]
    · rw [repOf, repOf, hout t ht]
  refine ⟨T', ?_, hok, fun σ v h hv hty => ?_⟩
  · rw [optGenMovi, hr]
    rfl
  have h1 : Sound ctx T1 (update σ dst (some v)) :=
    hsound σ _ h fun v' hv' => by rw [← Option.some.inj hv', hty]
  refine ⟨hok, h1.typed, fun t c v' hc hv' => ?_, fun t u v' heq => ?_⟩
  · rcases eq_or_ne t dst with rfl | ht
    · rw [constOf_eq_some, hself] at hc
      rw [update_self] at hv'
      rw [← Option.some.inj hv', ← hc.2]
      exact hv
    · refine h1.const t c v' ?_ hv'
      rwa [constOf, ← hout t ht]
  · rw [hrep, hrep] at heq
    exact h1.copy t u v' heq

/-- `tcg_opt_gen_mov`: its assertions hold, and the destination joins the class of the source. -/
lemma optGenMov_spec (hcopy : (T src).state ≠ .copy) (hconst : (T src).state ≠ .const)
    (hne : dst ≠ src) (hdst : dst < ctx.nbTemps) (hsrc : src < ctx.nbTemps) :
    ∃ T', optGenMov ctx T w dst src = some (.mov w dst src, T') ∧ TableOk ctx T'
      ∧ ∀ σ a x, Sound ctx T σ → σ src = some a → a.get w = some x → ctx.type dst = w →
        Sound ctx T' (update σ dst (some (.put w x))) := by
  obtain ⟨T1, hr, hT1, hf, hsound⟩ := resetTemp_sound hT dst
  have hcopy1 : (T1 src).state ≠ .copy := fun h => hcopy (hf.copy src h)
  have hconst1 : (T1 src).state ≠ .const := by
    intro h
    have := hf.const src hne.symm
    rw [constOf, if_pos h, eq_comm, constOf_eq_some] at this
    exact hconst this.1
  have h1 : ∀ (σ : ℕ → Option Value) (x : BitVec w.bits), Sound ctx T σ → ctx.type dst = w →
      Sound ctx T1 (update σ dst (some (.put w x))) :=
    fun σ x h hty => hsound σ _ h fun v hv => by rw [← Option.some.inj hv, hty, type_put]
  by_cases hlink : ctx.nbGlobals ≤ src ∧ ctx.nbGlobals ≤ dst ∧ ctx.isLocal src = ctx.isLocal dst
  · obtain ⟨hgs, hgd, hloc⟩ := hlink
    obtain ⟨hok, hconstOf, hrepOf⟩ :=
      linkCopy_spec hT1 hf.state hcopy1 hconst1 hne ⟨hgs, hsrc⟩ ⟨hgd, hdst⟩ hloc
    refine ⟨linkCopy T1 dst src, ?_, hok, fun σ a x h ha hx hty => ?_⟩
    · rw [optGenMov, hr]
      simp [guard, hcopy1, hconst1, hgs, hgd, hloc]
    refine (h1 σ x h hty).link hok hcopy1 hconstOf hrepOf (update_self ..)
      ((update_of_ne hne.symm ..).trans ha) (lo_put hx) fun h64 => ?_
    rw [type_put] at h64
    exact put_eq_of_i64 h64 hx
  · refine ⟨T1, ?_, hT1, fun σ a x h _ _ hty => h1 σ x h hty⟩
    rw [optGenMov, hr]
    simp only [Option.bind_eq_bind, Option.bind_some, guard, if_pos hcopy1, if_neg hlink]
    rfl

end Record

/-! ## Ops that write one temp -/

/-- The temp that an op writes, and the value, for the ops that can be folded. -/
def Insn.result (σ : ℕ → Option Value) : Insn → Option (ℕ × Value)
  | .mov w dst src => (σ src).bind fun a => (a.get w).map fun x => (dst, .put w x)
  | .movi w dst val => some (dst, .ofBits w val)
  | .un op w dst src => (σ src).bind fun a => (evalUn op w a).map (dst, ·)
  | .bin op w dst x y =>
    (σ x).bind fun a => (σ y).bind fun b => (evalBin op w a b).map (dst, ·)
  | _ => none

/-- The op leaves `v` in `dst` and changes nothing else. -/
def Insn.Writes (σ : ℕ → Option Value) (insn : Insn) (dst : ℕ) (v : Value) : Prop :=
  insn.result σ = some (dst, v) ∨ (insn = .nop ∧ σ dst = some v)

def Insn.label : Insn → Option ℕ
  | .setLabel label => some label
  | _ => none

/-- The op `new` does what `old` does, and `T'` is the table after it. -/
structure Replaces (ctx : TcgContext) (T : TempTable) (old new : Insn) (T' : TempTable) : Prop where
  table : TableOk ctx T'
  label : new.label = none
  writes : ∀ σ dst v, Sound ctx T σ → old.result σ = some (dst, v) →
    new.Writes σ dst v ∧ Sound ctx T' (update σ dst (some v))

def Leaves (ctx : TcgContext) (T : TempTable) (old : Insn) (r : Option (Insn × TempTable)) : Prop :=
  ∃ new T', r = some (new, T') ∧ Replaces ctx T old new T'

/-- What `old` computes, `new` computes too. -/
def Computes (ctx : TcgContext) (T : TempTable) (old new : Insn) : Prop :=
  ∀ σ p, Sound ctx T σ → old.result σ = some p → new.result σ = some p

section Result

variable {σ : ℕ → Option Value} {w : TcgType} {dst d src x y : ℕ} {v : Value}

lemma result_mov : (mov w dst src).result σ = some (d, v) ↔
    dst = d ∧ ∃ a z, σ src = some a ∧ a.get w = some z ∧ v = .put w z := by
  simp only [result, Option.bind_eq_some_iff, Option.map_eq_some_iff, Prod.mk.injEq]
  grind

lemma result_un {op : UnOp} : (un op w dst src).result σ = some (d, v) ↔
    dst = d ∧ ∃ a, σ src = some a ∧ evalUn op w a = some v := by
  simp only [result, Option.bind_eq_some_iff, Option.map_eq_some_iff, Prod.mk.injEq]
  grind

lemma result_bin {op : BinOp} : (bin op w dst x y).result σ = some (d, v) ↔
    dst = d ∧ ∃ a b, σ x = some a ∧ σ y = some b ∧ evalBin op w a b = some v := by
  simp only [result, Option.bind_eq_some_iff, Option.map_eq_some_iff, Prod.mk.injEq]
  grind

lemma result_movi {val : BitVec 64} : (movi w dst val).result σ = some (d, v) ↔
    dst = d ∧ v = .ofBits w val := by
  simp only [result, Option.some.injEq, Prod.mk.injEq]
  grind

end Result

section Replace

variable (host : Host) {ctx : TcgContext} {T : TempTable} {old : Insn}
  {dst src x y : ℕ} {w : TcgType}
  (hT : TableOk ctx T) (hty : ctx.type dst = w)
include hT hty

/-- An op whose result is known in advance. -/
lemma replaces_movi (old : Insn) (val : BitVec 64)
    (hold : ∀ σ d v, Sound ctx T σ → old.result σ = some (d, v) →
      d = dst ∧ v.type = w ∧ v.Agrees .i64 (.w64 val)) :
    Leaves ctx T old (optGenMovi ctx T w dst val) := by
  obtain ⟨T', heq, hT', hsound⟩ := optGenMovi_spec hT w dst val
  refine ⟨_, T', heq, hT', rfl, fun σ d v h hres => ?_⟩
  obtain ⟨rfl, hvty, hv⟩ := hold σ d v h hres
  exact ⟨.inl (result_movi.mpr ⟨rfl, hv.eq_ofBits hvty⟩), hsound σ v h hv (hvty.trans hty.symm)⟩

lemma replaces_mov (hcopy : (T src).state ≠ .copy) (hconst : (T src).state ≠ .const)
    (hne : dst ≠ src) (hdst : dst < ctx.nbTemps) (hsrc : src < ctx.nbTemps)
    (hold : Computes ctx T old (.mov w dst src)) :
    Leaves ctx T old (optGenMov ctx T w dst src) := by
  obtain ⟨T', heq, hT', hsound⟩ := optGenMov_spec (w := w) hT hcopy hconst hne hdst hsrc
  refine ⟨_, T', heq, hT', rfl, fun σ d v h hres => ?_⟩
  have hmov := hold σ (d, v) h hres
  obtain ⟨rfl, a, z, ha, hz, rfl⟩ := result_mov.mp hmov
  exact ⟨.inl hmov, hsound σ a z h ha hz hty⟩

/-- An op that moves a temp to one that has the value already. -/
lemma replaces_nop (hsame : T.repOf dst = T.repOf src)
    (hold : Computes ctx T old (.mov w dst src)) :
    Replaces ctx T old .nop T := by
  refine ⟨hT, rfl, fun σ d v h hres => ?_⟩
  obtain ⟨rfl, a, z, ha, hz, rfl⟩ := result_mov.mp (hold σ (d, v) h hres)
  obtain ⟨b, hb, hlo, heq⟩ := h.copy src dst a hsame.symm ha
  have hbty : b.type = w := (h.typed _ _ hb).trans hty
  have hput : b = .put w z := by
    refine (put_eq_of_type ?_ hbty).symm
    cases w with
    | i32 => rwa [Value.get, ← hlo]
    | i64 =>
      have hput := put_eq_of_i64 rfl hz
      have haty : a.type = .i64 := by rw [← hput]; rfl
      rwa [← heq haty hbty]
  subst hput
  exact ⟨.inr ⟨rfl, hb⟩, h.update_self hb⟩

/-- An op that stays as it is. -/
lemma replaces_reset (old : Insn) (hlabel : old.label = none)
    (hold : ∀ σ d v, old.result σ = some (d, v) → d = dst ∧ v.type = w) :
    Leaves ctx T old ((resetTemp ctx T dst).map (old, ·)) := by
  obtain ⟨T', heq, hT', -, hsound⟩ := resetTemp_sound hT dst
  refine ⟨old, T', by rw [heq]; rfl, hT', hlabel, fun σ d v h hres => ⟨.inl hres, ?_⟩⟩
  obtain ⟨rfl, hvty⟩ := hold σ d v hres
  exact hsound σ _ h fun v' hv' => by rw [← Option.some.inj hv', hvty, hty]

lemma foldInsn_mov (hcopy : (T src).state ≠ .copy) (hdst : dst < ctx.nbTemps)
    (hsrc : src < ctx.nbTemps) :
    Leaves ctx T (.mov w dst src) (foldInsn host ctx T (.mov w dst src)) := by
  by_cases hnop : ((T src).state = .copy ∧ (T src).val.toNat = dst) ∨ dst = src
  · refine ⟨.nop, T, by rw [foldInsn, if_pos hnop], replaces_nop hT hty ?_ fun _ _ _ h => h⟩
    rw [hnop.resolve_left fun h => hcopy h.1]
  rw [foldInsn, if_neg hnop]
  by_cases hconst : (T src).state = .const
  · rw [if_neg (not_not.mpr hconst)]
    refine replaces_movi hT hty _ _ fun σ d v h hres => ?_
    obtain ⟨rfl, a, z, ha, hz, rfl⟩ := result_mov.mp hres
    have hag := h.const src _ a (constOf_eq_some.mpr ⟨hconst, rfl⟩) ha
    refine ⟨rfl, type_put z, (lo_put hz).trans hag.1, fun _ x hx => ?_⟩
    have hw : w = .i64 := by
      rw [← type_put z, hx]
      rfl
    exact hag.2 rfl x ((put_eq_of_i64 hw hz).symm.trans hx)
  · rw [if_pos hconst]
    exact replaces_mov hT hty hcopy hconst (fun h => hnop (.inr h)) hdst hsrc fun _ _ _ h => h

lemma foldInsn_un (op : UnOp) (src : ℕ) :
    Leaves ctx T (.un op w dst src) (foldInsn host ctx T (.un op w dst src)) := by
  by_cases hconst : (T src).state = .const
  · rw [foldInsn, if_pos hconst]
    refine replaces_movi hT hty _ _ fun σ d v h hres => ?_
    obtain ⟨rfl, a, ha, hv⟩ := result_un.mp hres
    have hag := h.const src _ a (constOf_eq_some.mpr ⟨hconst, rfl⟩) ha
    exact ⟨rfl, type_of_evalUn hv, foldUn_correct (evalUn_mono hag.mono hv)⟩
  · rw [foldInsn, if_neg hconst]
    refine replaces_reset hT hty _ rfl fun σ d v hres => ?_
    obtain ⟨rfl, a, ha, hv⟩ := result_un.mp hres
    exact ⟨rfl, type_of_evalUn hv⟩

lemma foldInsn_bin (op : BinOp) :
    ∃ new T', foldInsn host ctx T (.bin op w dst x y) = some (new, T') ∧ TableOk ctx T'
      ∧ (((T x).state = .const → (T y).state = .const → RotationOk op w (T y).val) →
        Replaces ctx T (.bin op w dst x y) new T') := by
  by_cases hconst : (T x).state = .const ∧ (T y).state = .const
  · rw [foldInsn, if_pos hconst]
    obtain ⟨T', heq, hT', -⟩ := optGenMovi_spec hT w dst (foldBin host op w (T x).val (T y).val)
    refine ⟨_, T', heq, hT', fun hrot => ?_⟩
    obtain ⟨new, T'', heq', hrep⟩ := replaces_movi hT hty (.bin op w dst x y)
      (foldBin host op w (T x).val (T y).val) fun σ d v h hres => by
        obtain ⟨rfl, a, b, ha, hb, hv⟩ := result_bin.mp hres
        have haga := h.const x _ a (constOf_eq_some.mpr ⟨hconst.1, rfl⟩) ha
        have hagb := h.const y _ b (constOf_eq_some.mpr ⟨hconst.2, rfl⟩) hb
        exact ⟨rfl, type_of_evalBin hv,
          foldBin_correct (hrot hconst.1 hconst.2) (evalBin_mono haga.mono hagb.mono hv)⟩
    rw [heq] at heq'
    cases heq'
    exact hrep
  · rw [foldInsn, if_neg hconst]
    obtain ⟨new, T', heq, hrep⟩ :=
      replaces_reset hT hty (.bin op w dst x y) rfl fun σ d v hres => by
      obtain ⟨rfl, a, b, ha, hb, hv⟩ := result_bin.mp hres
      exact ⟨rfl, type_of_evalBin hv⟩
    exact ⟨new, T', heq, hrep.table, fun _ => hrep⟩

end Replace

/-! ## Simplification -/

section Simplify

variable {ctx : TcgContext} {T : TempTable} {op : BinOp} {dst x y : ℕ} {w : TcgType} {a b v : Value}

/-- An op that returns its first input moves it. -/
lemma evalBin_left (h32 : op.eval a.lo b.lo = some a.lo)
    (h64 : ∀ z, op.eval64 a b = some z → a = .w64 z) (h : evalBin op w a b = some v) :
    ∃ z, a.get w = some z ∧ v = .put w z := by
  cases w with
  | i32 =>
    rw [evalBin, h32] at h
    exact ⟨a.lo, rfl, (Option.some.inj h).symm⟩
  | i64 =>
    obtain ⟨z, hz, rfl⟩ := Option.map_eq_some_iff.mp h
    rw [h64 z hz]
    exact ⟨z, rfl, rfl⟩

/-- An op whose second input is zero moves the first. -/
lemma evalBin_zero (hop : op.neutralZero) (h : evalBin op w a (.w64 0#64) = some v) :
    ∃ z, a.get w = some z ∧ v = .put w z := by
  have heval : ∀ {n : ℕ} (z : BitVec n), 0 < n → op.eval z 0#n = some z := by
    intro n z hn
    have hshift : z >>> n = 0#n := BitVec.ushiftRight_eq_zero (le_refl n)
    cases op <;> simp [neutralZero, BinOp.eval, hn, BitVec.rotateLeft_def,
      BitVec.rotateRight_def, hshift] at hop ⊢
  refine evalBin_left (heval _ (by omega)) (fun z hz => ?_) h
  cases a with
  | w64 x => rw [Option.some.inj ((heval x (by omega)).symm.trans hz)]
  | w32 x => cases op <;> simp [eval64, neutralZero] at hop hz

lemma evalBin_mul_zero (h : evalBin .mul w a (.w64 0#64) = some v) : v = .ofBits w 0#64 := by
  cases w with
  | i32 =>
    simp only [evalBin, BinOp.eval, Option.map_some, Option.some.injEq] at h
    rw [← h, show (w64 0#64).lo = 0#32 from rfl, BitVec.mul_zero]
    rfl
  | i64 =>
    cases a with
    | w32 x => simp [evalBin, eval64] at h
    | w64 x =>
      simp only [evalBin, eval64, BinOp.eval, Option.map_some, Option.some.injEq] at h
      rw [← h, BitVec.mul_zero]
      rfl

/-- `and` and `or` of a value with itself. -/
lemma evalBin_self (hop : op = .or ∨ op = .and) (h : evalBin op w a a = some v) :
    ∃ z, a.get w = some z ∧ v = .put w z := by
  have heval : ∀ {n : ℕ} (z : BitVec n), op.eval z z = some z := by
    intro n z
    rcases hop with rfl | rfl <;> simp [BinOp.eval]
  refine evalBin_left (heval _) (fun z hz => ?_) h
  cases a with
  | w64 x => rw [Option.some.inj ((heval x).symm.trans hz)]
  | w32 x => simp [eval64] at hz

/-- The ops whose inputs are swapped do not mind. -/
lemma evalBin_comm (hop : op.commutes) : evalBin op w a b = evalBin op w b a := by
  have heval : ∀ {n : ℕ} (z u : BitVec n), op.eval z u = op.eval u z := by
    intro n z u
    cases op <;> simp [commutes, BinOp.eval, BitVec.add_comm, BitVec.mul_comm,
      BitVec.and_comm, BitVec.or_comm, BitVec.xor_comm] at hop ⊢
  cases w with
  | i32 => rw [evalBin, evalBin, heval]
  | i64 =>
    have h64 : op.eval64 a b = op.eval64 b a := by
      cases a <;> cases b
      · rfl
      · cases op <;> simp [commutes, eval64, BitVec.and_comm] at hop ⊢
      · cases op <;> simp [commutes, eval64, BitVec.and_comm] at hop ⊢
      · exact heval _ _
    rw [evalBin, evalBin, h64]

/-- The switch that simplifies: it goes on to the next one, or replaces the op. -/
lemma simplify_bin (hT : TableOk ctx T) (hcopy : (T x).state ≠ .copy) (hdst : dst < ctx.nbTemps)
    (hx : x < ctx.nbTemps) (hty : ctx.type dst = w)
    (hself : op = .or ∨ op = .and → x = y → (T x).state ≠ .const) :
    simplify ctx T (.bin op w dst x y) = none
      ∨ ∃ r, simplify ctx T (.bin op w dst x y) = some r ∧ Leaves ctx T (.bin op w dst x y) r := by
  have hzero : (T y).state = .const ∧ (T y).val = 0#64 → ∀ σ d v, Sound ctx T σ →
      (bin op w dst x y).result σ = some (d, v) →
      dst = d ∧ ∃ a, σ x = some a ∧ evalBin op w a (.w64 0#64) = some v := by
    intro hy σ d v h hres
    obtain ⟨hd, a, b, ha, hb, hv⟩ := result_bin.mp hres
    have hag := h.const y _ b (constOf_eq_some.mpr hy) hb
    exact ⟨hd, a, ha, evalBin_mono (Value.Agrees.refl w a) hag.mono hv⟩
  have hneutral : op.neutralZero → (T y).state = .const ∧ (T y).val = 0#64 →
      Computes ctx T (.bin op w dst x y) (.mov w dst x) := by
    rintro hop hy σ ⟨d, v⟩ h hres
    obtain ⟨hd, a, ha, hv⟩ := hzero hy σ d v h hres
    obtain ⟨z, hz, rfl⟩ := evalBin_zero hop hv
    exact result_mov.mpr ⟨hd, a, z, ha, hz, rfl⟩
  have hsame : op = .or ∨ op = .and → x = y →
      Computes ctx T (.bin op w dst x y) (.mov w dst x) := by
    rintro hop rfl σ ⟨d, v⟩ h hres
    obtain ⟨hd, a, b, ha, hb, hv⟩ := result_bin.mp hres
    obtain rfl : a = b := Option.some.inj (ha.symm.trans hb)
    obtain ⟨z, hz, rfl⟩ := evalBin_self hop hv
    exact result_mov.mpr ⟨hd, a, z, ha, hz, rfl⟩
  rw [simplify]
  split_ifs with hop hxc hy hnop hmul hy hop hxy hdx
  · exact .inl rfl
  · refine .inr ⟨_, rfl, .nop, T, rfl, replaces_nop hT hty ?_ (hneutral hop hy)⟩
    rcases hnop with ⟨hs, hval⟩ | rfl
    · rw [repOf_of_ne_copy hcopy, repOf, if_pos hs, hval]
    · rfl
  · exact .inr ⟨_, rfl, replaces_mov hT hty hcopy hxc (fun h => hnop (.inr h)) hdst hx
      (hneutral hop hy)⟩
  · exact .inl rfl
  · subst hmul
    refine .inr ⟨_, rfl, replaces_movi hT hty _ 0#64 fun σ d v h hres => ?_⟩
    obtain ⟨rfl, a, ha, hv⟩ := hzero hy σ d v h hres
    rw [evalBin_mul_zero hv]
    exact ⟨rfl, type_ofBits _, agrees_ofBits _⟩
  · exact .inl rfl
  · exact .inr ⟨_, rfl, .nop, T, rfl, replaces_nop hT hty (by rw [hdx]) (hsame hop hxy)⟩
  · exact .inr ⟨_, rfl, replaces_mov hT hty hcopy (hself hop hxy) (Ne.symm hdx) hdst hx
      (hsame hop hxy)⟩
  · exact .inl rfl
  · exact .inl rfl

end Simplify

/-! ## One turn of the loop -/

section Turn

variable {ctx : TcgContext} {T : TempTable} {σ : ℕ → Option Value} {insn : Insn} {x y : ℕ}

lemma TableOk.repOf_lt (hT : TableOk ctx T) (hx : x < ctx.nbTemps) : T.repOf x < ctx.nbTemps := by
  by_cases h : (T x).state = .copy
  · obtain ⟨r, l, hc, hx⟩ := hT.copy x h
    rw [hc.repOf_eq hx]
    exact (hc.range r (by simp)).2
  · rwa [repOf_of_ne_copy h]

/-- The common representative of two temps is not a constant. -/
lemma TableOk.shared_ne_const (hT : TableOk ctx T) (hne : x ≠ y) (heq : T.repOf x = T.repOf y) :
    (T (T.repOf x)).state ≠ .const := by
  have hclass : ∀ t, (T t).state = .copy → (T (T.repOf t)).state ≠ .const := by
    intro t ht
    obtain ⟨r, l, hc, hmem⟩ := hT.copy t ht
    rw [hc.repOf_eq hmem, hc.rep]
    simp
  by_cases hx : (T x).state = .copy
  · exact hclass x hx
  by_cases hy : (T y).state = .copy
  · rw [heq]
    exact hclass y hy
  · rw [repOf_of_ne_copy hx, repOf_of_ne_copy hy] at heq
    exact absurd heq hne

/-- **Copy propagation does not change what an op computes**, if it is careful. -/
lemma propagate_result (h : Sound ctx T σ) (hc : insn.Careful ctx T) {p : ℕ × Value}
    (hres : insn.result σ = some p) : (propagate T insn).result σ = some p := by
  obtain ⟨d, v⟩ := p
  cases insn with
  | mov w dst src =>
    obtain ⟨rfl, a, z, ha, hz, rfl⟩ := result_mov.mp hres
    obtain ⟨a', ha', hag⟩ := h.read (hc.reads (src, w) (by simp [reads])) ha
    exact result_mov.mpr ⟨rfl, a', z, ha', hag.get hz, rfl⟩
  | un op w dst src =>
    obtain ⟨rfl, a, ha, hv⟩ := result_un.mp hres
    obtain ⟨a', ha', hag⟩ := h.read (hc.reads (src, op.reads w) (by simp [reads])) ha
    exact result_un.mpr ⟨rfl, a', ha', evalUn_mono hag hv⟩
  | bin op w dst x y =>
    obtain ⟨rfl, a, b, ha, hb, hv⟩ := result_bin.mp hres
    obtain ⟨a', ha', haga⟩ := h.read (hc.reads (x, w) (by simp [reads])) ha
    obtain ⟨b', hb', hagb⟩ := h.read (hc.reads (y, w) (by simp [reads])) hb
    exact result_bin.mpr ⟨rfl, a', b', ha', hb', evalBin_mono haga hagb hv⟩
  | _ => exact hres

/-- Swapping the inputs does not change what an op computes. -/
lemma commute_result {p : ℕ × Value} (hres : insn.result σ = some p) :
    (commute T insn).result σ = some p := by
  obtain ⟨d, v⟩ := p
  cases insn with
  | bin op w dst x y =>
    rw [commute]
    split
    next hcomm =>
      obtain ⟨rfl, a, b, ha, hb, hv⟩ := result_bin.mp hres
      exact result_bin.mpr ⟨rfl, b, a, hb, ha, (evalBin_comm hcomm.1).symm.trans hv⟩
    next => exact hres
  | _ => exact hres

/-- The op found by the switches, and what it replaces. -/
lemma Replaces.of_found {found new : Insn} {T' : TempTable} (hfound : Computes ctx T insn found)
    (h : Replaces ctx T found new T') : Replaces ctx T insn new T' :=
  ⟨h.table, h.label, fun σ dst v hs hres => h.writes σ dst v hs (hfound σ (dst, v) hs hres)⟩

/-- The ops that write one temp and can be folded. -/
def Insn.isFoldable : Insn → Bool
  | .mov .. | .movi .. | .un .. | .bin .. => true
  | _ => false

/-- **One turn of the loop**, for an op that can be folded. -/
lemma optimizeInsn_foldable (host : Host) (hT : TableOk ctx T) (hok : insn.Ok ctx)
    (hfold : insn.isFoldable) :
    ∃ new T', optimizeInsn host ctx T insn = some (new, T') ∧ TableOk ctx T'
      ∧ (insn.Careful ctx T → Replaces ctx T insn new T') := by
  have hfound : insn.Careful ctx T → Computes ctx T insn (commute T (propagate T insn)) :=
    fun hc σ p h hres => commute_result (propagate_result h hc hres)
  cases insn with
  | mov w dst src =>
    obtain ⟨hdst, hsrc, hty⟩ := hok
    obtain ⟨new, T', heq, hrep⟩ :=
      foldInsn_mov host hT hty (hT.state_repOf src) hdst (hT.repOf_lt hsrc)
    exact ⟨new, T', heq, hrep.table, fun hc => hrep.of_found (hfound hc)⟩
  | movi w dst val =>
    obtain ⟨hdst, hty⟩ := hok
    obtain ⟨new, T', heq, hrep⟩ := replaces_movi hT hty (.movi w dst val) val
      fun σ d v _ hres => by
        obtain ⟨rfl, rfl⟩ := result_movi.mp hres
        exact ⟨rfl, type_ofBits _, agrees_ofBits _⟩
    exact ⟨new, T', heq, hrep.table, fun _ => hrep⟩
  | un op w dst src =>
    obtain ⟨hdst, hsrc, hty⟩ := hok
    obtain ⟨new, T', heq, hrep⟩ := foldInsn_un host hT hty op (T.repOf src)
    exact ⟨new, T', heq, hrep.table, fun hc => hrep.of_found (hfound hc)⟩
  | bin op w dst x y =>
    obtain ⟨hdst, hx, hy, hty, hself⟩ := hok
    obtain ⟨x1, y1, hcomm, hx1, hcopy1, hself1, hrot1⟩ : ∃ x1 y1,
        commute T (propagate T (.bin op w dst x y)) = .bin op w dst x1 y1 ∧ x1 < ctx.nbTemps
        ∧ (T x1).state ≠ .copy
        ∧ (op = .or ∨ op = .and → x1 = y1 → (T x1).state ≠ .const)
        ∧ ((bin op w dst x y).RotationOk T →
          (T x1).state = .const → (T y1).state = .const → RotationOk op w (T y1).val) := by
      have hshared : op = .or ∨ op = .and → T.repOf x = T.repOf y →
          (T (T.repOf x)).state ≠ .const :=
        fun hop heq => hT.shared_ne_const (hself hop.symm) heq
      rw [propagate, commute]
      split
      next hswap =>
        refine ⟨_, _, rfl, hT.repOf_lt hy, hT.state_repOf y, fun hop heq => ?_,
          fun _ _ _ hr => ?_⟩
        · rw [heq]
          exact hshared hop heq.symm
        · exfalso
          have := hswap.1
          rcases hr with rfl | rfl <;> simp [commutes] at this
      next =>
        refine ⟨_, _, rfl, hT.repOf_lt hx, hT.state_repOf x, hshared, fun hrot hcx hcy => ?_⟩
        have hy := hT.repOf_eq_of_const hcy
        rw [hT.repOf_eq_of_const hcx] at hcx
        rw [hy] at hcy ⊢
        exact hrot hcx hcy
    rw [hcomm] at hfound
    simp only [optimizeInsn, hcomm]
    rcases simplify_bin hT hcopy1 hdst hx1 hty hself1 with hnone | ⟨_, heq, new, T', rfl, hrep⟩
    · obtain ⟨new, T', heq, hT', hrep⟩ := foldInsn_bin (x := x1) (y := y1) host hT hty op
      rw [hnone]
      exact ⟨new, T', heq, hT', fun hc => (hrep (hrot1 hc.rotation)).of_found (hfound hc)⟩
    · rw [heq]
      exact ⟨new, T', rfl, hrep.table, fun hc => hrep.of_found (hfound hc)⟩
  | _ => simp [isFoldable] at hfold

end Turn

/-! ## One step of a run -/

section Step

variable {Mem : Type} {ctx : TcgContext} {T T' : TempTable} {m : State Mem}

lemma temps_setAll_of_notMem {ps : List (ℕ × Value)} (ht : t ∉ ps.map Prod.fst) :
    (m.setAll ps).temps t = m.temps t := by
  induction ps generalizing m with
  | nil => rfl
  | cons p ps ih =>
    simp only [map_cons, mem_cons, not_or] at ht
    rw [setAll, ih ht.2]
    exact update_of_ne ht.1 ..

lemma typed_setAll {ps : List (ℕ × Value)}
    (hm : Typed ctx m.temps) (hps : ∀ p ∈ ps, p.2.type = ctx.type p.1) :
    Typed ctx (m.setAll ps).temps := by
  induction ps generalizing m with
  | nil => exact hm
  | cons p ps ih =>
    refine ih (m := m.set p.1 (some p.2)) (fun t v hv => ?_) fun q hq => hps q (by simp [hq])
    rcases eq_or_ne t p.1 with rfl | ht
    · rw [temps_set, update_self] at hv
      rw [← Option.some.inj hv, hps p (by simp)]
    · rw [temps_set, update_of_ne ht] at hv
      exact hm t v hv

/-- Reading a list of temps, where each can be read elsewhere. -/
lemma mapM_read {α β : Type*} {f g : α → Option β} {l : List α} {xs : List β}
    (hfg : ∀ a ∈ l, ∀ b, f a = some b → g a = some b) (h : l.mapM f = some xs) :
    l.mapM g = some xs := by
  induction l generalizing xs with
  | nil => exact h
  | cons a l ih =>
    simp only [mapM_cons, Option.bind_eq_bind, Option.bind_eq_some_iff, Option.pure_def,
      Option.some.injEq] at h ⊢
    obtain ⟨b, hb, bs, hbs, hxs⟩ := h
    exact ⟨b, hfg a (by simp) b hb, bs, ih (fun a ha => hfg a (by simp [ha])) hbs, hxs⟩

/-- How a step of the new stream follows the step of the old one. -/
inductive Follows (ctx : TcgContext) (prog prog' : List Insn) (T : TempTable)
    (rest rest' : List Insn) :
    Status Mem → Status Mem → Prop where
  | next (m : State Mem) (h : Sound ctx T m.temps) :
      Follows ctx prog prog' T rest rest' (.running rest m) (.running rest' m)
  | jump (label : ℕ) (code code' : List Insn) (m : State Mem)
      (hcode : afterLabel label prog = some code) (hcode' : afterLabel label prog' = some code')
      (h : Sound ctx .cleared m.temps) :
      Follows ctx prog prog' T rest rest' (.running code m) (.running code' m)
  | halt (e : Exit) (m : State Mem) :
      Follows ctx prog prog' T rest rest' (.halted e m) (.halted e m)

variable {env : Env Mem} {prog prog' rest rest' : List Insn} {insn new : Insn} {s : Status Mem}

lemma step_foldable (hfold : insn.isFoldable) :
    step env ctx prog insn rest m = (insn.result m.temps).map fun p => .running rest
      (m.set p.1 (some p.2)) := by
  cases insn with
  | mov w dst src | movi w dst val | un op w dst src | bin op w dst x y =>
    simp [step, result, Option.map_eq_bind, Option.bind_assoc]
  | _ => simp [isFoldable] at hfold

/-- A step of an op with a known result. -/
lemma step_of_writes {dst : ℕ} {v : Value} (h : new.Writes m.temps dst v) :
    step env ctx prog' new rest' m = some (.running rest' (m.set dst (some v))) := by
  rcases h with h | ⟨rfl, h⟩
  · have hfold : new.isFoldable := by
      cases new <;> first | rfl | simp [result] at h
    rw [step_foldable hfold, h]
    rfl
  · have : m.set dst (some v) = m := by
      rw [State.set, ← h, update_eq_self]
    rw [this]
    rfl

def SameLabels (prog prog' : List Insn) : Prop :=
  ∀ label code, afterLabel label prog = some code → ∃ code', afterLabel label prog' = some code'

/-- The new op follows the old one, from every state that the table allows. -/
def Simulates (ctx : TcgContext) (T : TempTable) (insn new : Insn) (T' : TempTable) : Prop :=
  ∀ {Mem : Type} (env : Env Mem) (prog prog' rest rest' : List Insn) (m : State Mem)
    (s : Status Mem),
    SameLabels prog prog' → Sound ctx T m.temps → step env ctx prog insn rest m = some s →
    ∃ s', step env ctx prog' new rest' m = some s' ∧ Follows ctx prog prog' T' rest rest' s s'

/-- An op that can be folded. -/
lemma Replaces.simulates (hfold : insn.isFoldable) (h : Replaces ctx T insn new T') :
    Simulates ctx T insn new T' := by
  intro Mem env prog prog' rest rest' m s _ hs hstep
  rw [step_foldable hfold] at hstep
  obtain ⟨⟨dst, v⟩, hres, rfl⟩ := Option.map_eq_some_iff.mp hstep
  obtain ⟨hw, hsound⟩ := h.writes _ _ _ hs hres
  exact ⟨_, step_of_writes hw, .next _ hsound⟩

/-- The op goes on to the next one, with a state as `P` says, or leaves the block. -/
def Insn.GoesOn (ctx : TcgContext) (env : Env Mem) (insn : Insn) (m : State Mem)
    (P : State Mem → Prop) :
    Prop :=
  (∃ m', (∀ prog rest, step env ctx prog insn rest m = some (.running rest m')) ∧ P m') ∨
    ∃ e m', ∀ prog rest, step env ctx prog insn rest m = some (.halted e m')

lemma simulates_same
    (h : ∀ {Mem : Type} (env : Env Mem) (m : State Mem) (prog rest : List Insn) (s : Status Mem),
      Sound ctx T m.temps → step env ctx prog insn rest m = some s →
      insn.GoesOn ctx env m fun m' => Sound ctx T' m'.temps) :
    Simulates ctx T insn insn T' := by
  intro Mem env prog prog' rest rest' m s _ hs hstep
  rcases h env m prog rest s hs hstep with ⟨m', hrun, hsound⟩ | ⟨e, m', hhalt⟩
  · rw [hrun] at hstep
    cases hstep
    exact ⟨_, hrun prog' rest', .next m' hsound⟩
  · rw [hhalt] at hstep
    cases hstep
    exact ⟨_, hhalt prog' rest', .halt e m'⟩

lemma simulates_plain {op : PlainOp} {outs ins : List ℕ}
    (hok : (plain op outs ins).Ok ctx) (hc : (plain op outs ins).Careful ctx T)
    (hsound : SoundAfter ctx T T' (· ∉ outs)) :
    Simulates ctx T (.plain op outs ins) (.plain op outs (ins.map T.repOf)) T' := by
  intro Mem env prog prog' rest rest' m s _ hs hstep
  simp only [step, Option.bind_eq_bind, Option.bind_eq_some_iff] at hstep
  obtain ⟨xs, hxs, rs, hrs, ⟨⟩⟩ := hstep
  have hread : (ins.map T.repOf).mapM (fun t => (m.temps t).bind (Value.get op.reads)) =
      some xs := by
    rw [mapM_map]
    refine mapM_read (fun t ht x hx => ?_) hxs
    obtain ⟨a, ha, hx⟩ := Option.bind_eq_some_iff.mp hx
    obtain ⟨a', ha', hag⟩ := hs.read (w := op.reads)
      (hc.reads (t, op.reads) (mem_map.mpr ⟨t, ht, rfl⟩)) ha
    exact Option.bind_eq_some_iff.mpr ⟨a', ha', hag.get hx⟩
  refine ⟨_, by simp [step, hread, hrs], .next _ (hsound _ _ hs (fun t ht => ?_) ?_)⟩
  · refine temps_setAll_of_notMem fun hmem => ht ?_
    obtain ⟨p, hp, rfl⟩ := mem_map.mp hmem
    exact (of_mem_zip hp).1
  · refine typed_setAll hs.typed fun p hp => ?_
    obtain ⟨h1, h2⟩ := of_mem_zip hp
    obtain ⟨x, -, hx⟩ := mem_map.mp h2
    rw [← hx, type_put, (hok.1 p.1 h1).2]

variable {flags : CallFlags}

lemma temps_clobber {g : ℕ → BitVec 64}
    (h : (flags.isConst || flags.isPure) = true ∨ ctx.nbGlobals ≤ t) :
    (m.clobber ctx flags g).temps t = m.temps t := by
  rw [clobber]
  split
  next => rfl
  next hflags =>
    have := h.resolve_left hflags
    exact if_neg (by omega)

lemma typed_clobber {g : ℕ → BitVec 64} (hm : Typed ctx m.temps) :
    Typed ctx (m.clobber ctx flags g).temps := by
  intro t v hv
  rw [clobber] at hv
  split at hv
  next => exact hm t v hv
  next =>
    simp only at hv
    split at hv
    next => rw [← Option.some.inj hv, type_ofBits]
    next => exact hm t v hv

/-- A call: it may change the globals, unless it promises not to, and its outputs. -/
lemma simulates_call {outs ins : List ℕ} (hsound : SoundAfter ctx T T' fun t =>
      t ∉ outs ∧ ((flags.isConst || flags.isPure) = true ∨ ctx.nbGlobals ≤ t)) :
    Simulates ctx T (.call flags outs ins) (.call flags outs ins) T' := by
  refine simulates_same fun env m prog rest s hs hstep => ?_
  obtain ⟨vs, hvs, -⟩ := Option.bind_eq_some_iff.mp hstep
  rcases hhelp : env.helper m.mem (vs.map bits) (m.globals ctx) with ⟨rets, g, mem⟩
  let m1 : State _ := clobber ctx flags g { m.emit (.call (vs.map bits)) with mem := mem }
  have hty : Typed ctx m1.temps := typed_clobber hs.typed
  cases rets with
  | none => exact .inr ⟨.exception, m1, fun prog rest => by simp [step, hvs, hhelp, m1]⟩
  | some rs =>
    refine .inl ⟨m1.setAll ((outs.zip rs).map fun p => (p.1, .ofBits (ctx.type p.1) p.2)),
      fun prog rest => by simp [step, hvs, hhelp, m1], hsound _ _ hs (fun t ⟨ht, hg⟩ => ?_)
      (typed_setAll hty fun p hp => ?_)⟩
    · rw [temps_setAll_of_notMem]
      · exact temps_clobber hg
      intro hmem
      simp only [map_map, mem_map] at hmem
      obtain ⟨p, hp, rfl⟩ := hmem
      exact ht (of_mem_zip hp).1
    · obtain ⟨q, -, rfl⟩ := mem_map.mp hp
      exact type_ofBits _

/-- The op that is left in place of `insn`, and the table after it. -/
structure TurnOk (ctx : TcgContext) (T : TempTable) (insn new : Insn) (T' : TempTable) : Prop where
  simulates : Simulates ctx T insn new T'
  label : new.label = insn.label
  cleared : insn.label ≠ none → T' = .cleared

/-- The turn of the loop succeeds, and keeps the meaning of the op if the op is careful. -/
def TurnsOk (host : Host) (ctx : TcgContext) (T : TempTable) (insn : Insn) : Prop :=
  ∃ new T', optimizeInsn host ctx T insn = some (new, T') ∧ TableOk ctx T'
    ∧ (insn.Careful ctx T → TurnOk ctx T insn new T')

variable {host : Host}

/-- An op after which the table is empty. -/
lemma turnsOk_cleared (heq : optimizeInsn host ctx T insn = some (insn, .cleared))
    (h : Simulates ctx T insn insn .cleared) : TurnsOk host ctx T insn :=
  ⟨insn, .cleared, heq, tableOk_cleared, fun _ => ⟨h, rfl, fun _ => rfl⟩⟩

lemma typed_set (hs : Sound ctx T m.temps) (t : ℕ) {v : Option Value}
    (hv : ∀ a, v = some a → a.type = ctx.type t) : Typed ctx (m.set t v).temps := by
  intro u b hb
  rcases eq_or_ne u t with rfl | hu
  · rw [temps_set, update_self] at hb
    exact hv b hb
  · rw [temps_set, update_of_ne hu] at hb
    exact hs.typed u b hb

/-- At the end of a basic block the table is emptied. -/
lemma Sound.leave (hs : Sound ctx T m.temps) : Sound ctx .cleared (m.endBlock ctx).temps :=
  sound_cleared hs.endBlock.typed

lemma turn_jmp (t : ℕ) : TurnsOk host ctx T (.jmp t) := by
  refine turnsOk_cleared rfl (simulates_same fun env m prog rest s hs hstep => ?_)
  simp only [step, Option.bind_eq_bind, Option.bind_eq_some_iff] at hstep
  obtain ⟨v, hv, x, hx, -⟩ := hstep
  exact .inr ⟨.jmp x, m.endBlock ctx, fun _ _ => by simp [step, hv, hx]⟩

lemma turn_br (label : ℕ) : TurnsOk host ctx T (.br label) := by
  refine turnsOk_cleared rfl fun env prog prog' rest rest' m s hlab hs hstep => ?_
  obtain ⟨code, hcode, ⟨⟩⟩ := Option.bind_eq_some_iff.mp hstep
  obtain ⟨code', hcode'⟩ := hlab label code hcode
  exact ⟨_, by simp [step, hcode'], .jump label code code' _ hcode hcode' (hs.leave)⟩

lemma turn_brcond (w : TcgType) (c : Cond) (x y label : ℕ) :
    TurnsOk host ctx T (.brcond w c x y label) := by
  refine turnsOk_cleared rfl fun env prog prog' rest rest' m s hlab hs hstep => ?_
  simp only [step, Option.bind_eq_bind, Option.bind_eq_some_iff] at hstep
  obtain ⟨a, ha, z, hz, b, hb, u, hu, code, hcode, ⟨⟩⟩ := hstep
  cases htaken : c.holds z u with
  | true =>
    rw [htaken] at hcode
    obtain ⟨code', hcode'⟩ := hlab label code hcode
    refine ⟨_, ?_, .jump label code code' _ hcode hcode' (hs.leave)⟩
    simp [step, ha, hz, hb, hu, htaken, branchTarget, hcode']
  | false =>
    rw [htaken] at hcode
    cases hcode
    refine ⟨_, ?_, .next _ (hs.leave)⟩
    simp [step, ha, hz, hb, hu, htaken, branchTarget]

section Table

variable (hT : TableOk ctx T)
include hT

lemma optimizeInsn_kept (insn : Insn) (hlabel : insn.label = none)
    (heq : optimizeInsn host ctx T insn = (resetTemps ctx T insn.outs).map (insn, ·))
    (h : ∀ {Mem : Type} (env : Env Mem) (m : State Mem) (prog rest : List Insn) (s : Status Mem),
      Sound ctx T m.temps → step env ctx prog insn rest m = some s →
      insn.GoesOn ctx env m fun m' => (∀ t, t ∉ insn.outs → m'.temps t = m.temps t) ∧
        Typed ctx m'.temps) :
    TurnsOk host ctx T insn := by
  obtain ⟨T', hr, hT', hsound⟩ := resetTemps_sound hT insn.outs
  refine ⟨insn, T', by rw [heq, hr]; rfl, hT', fun _ =>
    ⟨simulates_same fun env m prog rest s hs hstep => ?_, rfl, fun hl => absurd hlabel hl⟩⟩
  rcases h env m prog rest s hs hstep with ⟨m', hrun, hout, hty⟩ | hhalt
  · exact .inl ⟨m', hrun, hsound _ _ hs hout hty⟩
  · exact .inr hhalt

lemma turn_call (flags : CallFlags) (outs ins : List ℕ) :
    TurnsOk host ctx T (.call flags outs ins) := by
  obtain ⟨T1, hr1, hT1, hsound1⟩ := resetGlobals_sound hT flags
  obtain ⟨T2, hr2, hT2, hsound2⟩ := resetTemps_sound hT1 outs
  refine ⟨.call flags outs ins, T2, ?_, hT2, fun _ =>
    ⟨simulates_call fun σ σ' h hσ hty => ?_, rfl, fun hl => absurd rfl hl⟩⟩
  · simp only [optimizeInsn, propagate, commute, simplify, foldInsn, hr1, hr2,
      Option.bind_eq_bind, Option.bind_some]
  have hmid : Sound ctx T1 fun t => if t ∈ outs then σ t else σ' t := by
    refine hsound1 σ _ h (fun t ht => ?_) fun t v hv => ?_
    · by_cases hmem : t ∈ outs
      · exact if_pos hmem
      · exact (if_neg hmem).trans (hσ t ⟨hmem, ht⟩)
    · by_cases hmem : t ∈ outs
      · exact h.typed t v (by rwa [if_pos hmem] at hv)
      · exact hty t v (by rwa [if_neg hmem] at hv)
  exact hsound2 _ σ' hmid (fun t ht => (if_neg ht).symm) hty

/-- The link to another block, after which the table stays: local temps live on. -/
lemma turn_gotoTb (n : ℕ) : TurnsOk host ctx T (.gotoTb n) := by
  refine ⟨.gotoTb n, T, rfl, hT, fun _ => ⟨simulates_same fun env m _ _ _ hs _ => ?_, rfl,
    fun hl => absurd rfl hl⟩⟩
  by_cases hlinked : env.linked m.mem n = true
  · exact .inr ⟨_, _, fun _ _ => if_pos hlinked⟩
  · exact .inl ⟨_, fun _ _ => if_neg hlinked, hs.endBlock⟩

lemma turn_st (size : MemSize) (t base : ℕ) (offset : BitVec 64) :
    TurnsOk host ctx T (.st size t base offset) := by
  refine optimizeInsn_kept hT _ rfl rfl fun env m prog rest s hs hstep => ?_
  simp only [step, Option.bind_eq_bind, Option.bind_eq_some_iff] at hstep
  obtain ⟨v, hv, b, hb, p, hp, mem, hmem, -⟩ := hstep
  exact .inl ⟨{ m with mem := mem }, fun _ _ => by simp [step, hv, hb, hp, hmem],
    fun _ _ => rfl, hs.typed⟩

lemma turn_qemuLd (size : MemSize) (t addr flags : ℕ) :
    TurnsOk host ctx T (.qemuLd size t addr flags) := by
  refine optimizeInsn_kept hT _ rfl rfl fun env m prog rest s hs hstep => ?_
  obtain ⟨a, ha, -⟩ := Option.bind_eq_some_iff.mp hstep
  rcases hld : env.qemuLd m.mem size flags a.bits with ⟨x, mem⟩
  cases x with
  | none => exact .inr ⟨.exception, { m with mem := mem }, fun _ _ => by simp [step, ha, hld]⟩
  | some x =>
    refine .inl ⟨State.set { m with mem := mem } t (some (.ofBits (ctx.type t) x)),
      fun _ _ => by simp [step, ha, hld], fun u hu => ?_, ?_⟩
    · exact update_of_ne (by simpa [outs] using hu) ..
    · exact typed_set (m := { m with mem := mem }) hs t fun b hb => by
        rw [← Option.some.inj hb, type_ofBits]

lemma turn_qemuSt (size : MemSize) (t addr flags : ℕ) :
    TurnsOk host ctx T (.qemuSt size t addr flags) := by
  refine optimizeInsn_kept hT _ rfl rfl fun env m prog rest s hs hstep => ?_
  simp only [step, Option.bind_eq_bind, Option.bind_eq_some_iff] at hstep
  obtain ⟨v, hv, a, ha, -⟩ := hstep
  rcases hst : env.qemuSt m.mem size flags a.bits v.bits with ⟨ok, mem⟩
  cases ok with
  | false => exact .inr ⟨.exception, { m with mem := mem }, fun _ _ => by simp [step, hv, ha, hst]⟩
  | true =>
    exact .inl ⟨{ m with mem := mem }, fun _ _ => by simp [step, hv, ha, hst],
      fun _ _ => rfl, hs.typed⟩

end Table

/-- **One turn of the loop** succeeds on every op that is emitted, and keeps its meaning if the op
is careful. -/
theorem optimizeInsn_spec (host : Host) (hT : TableOk ctx T) (hok : insn.Ok ctx) :
    TurnsOk host ctx T insn := by
  by_cases hfold : insn.isFoldable
  · obtain ⟨new, T', heq, hT', hrep⟩ := optimizeInsn_foldable host hT hok hfold
    refine ⟨new, T', heq, hT', fun hc => ⟨(hrep hc).simulates hfold, ?_, fun hl => ?_⟩⟩
    · rw [(hrep hc).label]
      cases insn <;> simp [Insn.isFoldable] at hfold <;> rfl
    · cases insn <;> simp [Insn.isFoldable, Insn.label] at hfold hl
  cases insn with
  | mov w dst src | movi w dst val | un op w dst src | bin op w dst x y =>
    simp [Insn.isFoldable] at hfold
  | nop | debugInsnStart pc =>
    exact optimizeInsn_kept hT _ rfl rfl fun env m _ _ _ hs _ =>
      .inl ⟨m, fun _ _ => rfl, fun _ _ => rfl, hs.typed⟩
  | discard t =>
    exact optimizeInsn_kept hT (.discard t) rfl rfl fun env m _ _ _ hs _ =>
      .inl ⟨m.set t none, fun _ _ => rfl,
        fun u hu => update_of_ne (by simpa [Insn.outs] using hu) .., typed_set hs t (by simp)⟩
  | plain op outs ins =>
    obtain ⟨T', hr, hT', hsound⟩ := resetTemps_sound hT outs
    refine ⟨.plain op outs (ins.map T.repOf), T', ?_, hT', fun hc =>
      ⟨simulates_plain hok hc hsound, rfl, fun hl => absurd rfl hl⟩⟩
    simp only [optimizeInsn, propagate, commute, simplify, foldInsn, Insn.outs, hr]
    rfl
  | setLabel label =>
    exact turnsOk_cleared rfl (simulates_same fun env m _ _ _ hs _ =>
      .inl ⟨_, fun _ _ => rfl, hs.leave⟩)
  | call flags outs ins => exact turn_call hT flags outs ins
  | br label => exact turn_br label
  | jmp t => exact turn_jmp t
  | brcond w c x y label => exact turn_brcond w c x y label
  | st size t base offset => exact turn_st hT size t base offset
  | qemuLd size t addr flags => exact turn_qemuLd hT size t addr flags
  | qemuSt size t addr flags => exact turn_qemuSt hT size t addr flags
  | exitTb val =>
    exact optimizeInsn_kept hT (.exitTb val) rfl rfl fun env m _ _ _ _ _ =>
      .inr ⟨_, _, fun _ _ => rfl⟩
  | gotoTb n => exact turn_gotoTb hT n

end Step

end Qemu.Tcg
