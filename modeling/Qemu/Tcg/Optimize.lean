import Mathlib
import Qemu.Tcg.Machine

/-!
# Constant and copy propagation

`tcg_constant_folding` of `tcg/optimize.c`: one pass over the ops of a translation block that
replaces the inputs of an op by the representatives of their classes, simplifies it, folds it when
its inputs are known, and keeps the table of constants and copies.

An assertion that fails, like a walk along a broken ring, makes the model return `none`.

**Definitions:**
- `tcgConstantFolding`: the pass
- `Insn.Ok`: the shape of the ops that the functions of `tcg-op.h` emit
- `Insn.Careful`: the ops at which the table before the op does no harm
-/

namespace Qemu.Tcg

open TempTable

/-! ## Recording moves -/

/-- `tcg_opt_gen_mov`, with the op it makes. -/
def optGenMov (ctx : TcgContext) (T : TempTable) (w : TcgType) (dst src : ℕ) :
    Option (Insn × TempTable) := do
  let T ← resetTemp ctx T dst
  guard ((T src).state ≠ .copy)
  -- no class has a global in it, or both local temps and others
  if ctx.nbGlobals ≤ src ∧ ctx.nbGlobals ≤ dst ∧ ctx.isLocal src = ctx.isLocal dst then
    guard ((T src).state ≠ .const)
    some (.mov w dst src, linkCopy T dst src)
  else
    some (.mov w dst src, T)

/-- `tcg_opt_gen_movi`, with the op it makes. -/
def optGenMovi (ctx : TcgContext) (T : TempTable) (w : TcgType) (dst : ℕ) (val : BitVec 64) :
    Option (Insn × TempTable) := do
  let T ← resetTemp ctx T dst
  some (.movi w dst val, T.modify dst fun i => { i with state := .const, val := val })

/-- `reset_temp` for one temp after the other. -/
def resetTemps (ctx : TcgContext) (T : TempTable) (ts : List ℕ) : Option TempTable :=
  ts.foldlM (resetTemp ctx) T

/-- A call changes the globals, unless it is const or pure. -/
def resetGlobals (ctx : TcgContext) (T : TempTable) (flags : CallFlags) : Option TempTable :=
  if flags.isConst || flags.isPure then some T else resetTemps ctx T (List.range ctx.nbGlobals)

/-! ## The cases of an op -/

/-- Copy propagation, for the ops that neither have side effects nor clobber registers. -/
def propagate (T : TempTable) : Insn → Insn
  | .mov w dst src => .mov w dst (T.repOf src)
  | .un op w dst src => .un op w dst (T.repOf src)
  | .bin op w dst x y => .bin op w dst (T.repOf x) (T.repOf y)
  | .plain op outs ins => .plain op outs (ins.map T.repOf)
  | insn => insn

/-- The ops whose inputs may be swapped. -/
def BinOp.commutes : BinOp → Bool
  | .add | .mul | .and | .or | .xor | .eqv | .nand | .nor => true
  | _ => false

/-- A constant goes into the second argument. -/
def commute (T : TempTable) : Insn → Insn
  | .bin op w dst x y =>
    if op.commutes ∧ (T x).state = .const then .bin op w dst y x else .bin op w dst x y
  | insn => insn

/-- The ops that do nothing when their second input is zero. -/
def BinOp.neutralZero : BinOp → Bool
  | .add | .sub | .shl | .shr | .sar | .rotl | .rotr => true
  | _ => false

/-- The switch "Simplify expression if possible"; `none` if it goes on to the next one. -/
def simplify (ctx : TcgContext) (T : TempTable) : Insn → Option (Option (Insn × TempTable))
  | .bin op w dst x y =>
    if op.neutralZero then
      if (T x).state = .const then none
      else if (T y).state = .const ∧ (T y).val = 0#64 then
        if ((T dst).state = .copy ∧ (T dst).val.toNat = x) ∨ dst = x then some (some (.nop, T))
        else some (optGenMov ctx T w dst x)
      else none
    else if op = .mul then
      if (T y).state = .const ∧ (T y).val = 0#64 then some (optGenMovi ctx T w dst 0#64) else none
    else if op = .or ∨ op = .and then
      if x = y then
        if x = dst then some (some (.nop, T)) else some (optGenMov ctx T w dst x)
      else none
    else none
  | _ => none

/-- The outputs of the ops about which nothing is known. -/
def Insn.outs : Insn → List ℕ
  | .discard t => [t]
  | .plain _ outs _ => outs
  | .qemuLd _ t _ _ => [t]
  | _ => []

/-- The last switch: constants are propagated, and outputs are forgotten. -/
def foldInsn (host : Host) (ctx : TcgContext) (T : TempTable) : Insn → Option (Insn × TempTable)
  | .mov w dst src =>
    if ((T src).state = .copy ∧ (T src).val.toNat = dst) ∨ dst = src then some (.nop, T)
    else if (T src).state ≠ .const then optGenMov ctx T w dst src
    else optGenMovi ctx T w dst (T src).val
  | .movi w dst val => optGenMovi ctx T w dst val
  | .un op w dst src =>
    if (T src).state = .const then optGenMovi ctx T w dst (foldUn op w (T src).val)
    else (resetTemp ctx T dst).map (.un op w dst src, ·)
  | .bin op w dst x y =>
    if (T x).state = .const ∧ (T y).state = .const then
      optGenMovi ctx T w dst (foldBin host op w (T x).val (T y).val)
    else (resetTemp ctx T dst).map (.bin op w dst x y, ·)
  | .call flags outs ins => do
    let T ← resetGlobals ctx T flags
    let T ← resetTemps ctx T outs
    some (.call flags outs ins, T)
  | .setLabel label => some (.setLabel label, .cleared)
  | .jmp t => some (.jmp t, .cleared)
  | .br label => some (.br label, .cleared)
  | .brcond w c x y label => some (.brcond w c x y label, .cleared)
  | insn => (resetTemps ctx T insn.outs).map (insn, ·)

/-- One turn of the loop. -/
def optimizeInsn (host : Host) (ctx : TcgContext) (T : TempTable) (insn : Insn) :
    Option (Insn × TempTable) :=
  let insn := commute T (propagate T insn)
  match simplify ctx T insn with
  | some result => result
  | none => foldInsn host ctx T insn

/-- The loop over the ops. -/
def foldingFrom (host : Host) (ctx : TcgContext) : TempTable → List Insn → Option (List Insn)
  | _, [] => some []
  | T, insn :: rest => do
    let (insn, T) ← optimizeInsn host ctx T insn
    let rest ← foldingFrom host ctx T rest
    some (insn :: rest)

/-- `tcg_constant_folding`. -/
def tcgConstantFolding (host : Host) (ctx : TcgContext) (prog : List Insn) : Option (List Insn) :=
  foldingFrom host ctx .cleared prog

/-! ## Streams of ops -/

/-- The arguments of an op are temps, its outputs have its type, and no `and` or `or` has the same
temp as both inputs. -/
def Insn.Ok (ctx : TcgContext) : Insn → Prop
  | .discard t => t < ctx.nbTemps
  | .mov w dst src => dst < ctx.nbTemps ∧ src < ctx.nbTemps ∧ ctx.type dst = w
  | .movi w dst _ => dst < ctx.nbTemps ∧ ctx.type dst = w
  | .un _ w dst src => dst < ctx.nbTemps ∧ src < ctx.nbTemps ∧ ctx.type dst = w
  | .bin op w dst x y =>
    dst < ctx.nbTemps ∧ x < ctx.nbTemps ∧ y < ctx.nbTemps ∧ ctx.type dst = w
      ∧ (op = .and ∨ op = .or → x ≠ y)
  | .plain op outs ins =>
    (∀ t ∈ outs, t < ctx.nbTemps ∧ ctx.type t = op.width) ∧ ∀ t ∈ ins, t < ctx.nbTemps
  | .call _ outs ins => (∀ t ∈ outs, t < ctx.nbTemps) ∧ ∀ t ∈ ins, t < ctx.nbTemps
  | .qemuLd _ t addr _ => t < ctx.nbTemps ∧ addr < ctx.nbTemps
  | _ => True

instance (ctx : TcgContext) (insn : Insn) : Decidable (insn.Ok ctx) :=
  match insn with
  | .discard .. => inferInstanceAs (Decidable (_ < _))
  | .mov .. | .movi .. | .un .. | .bin .. | .plain .. | .call .. | .qemuLd .. =>
    inferInstanceAs (Decidable (_ ∧ _))
  | .nop | .debugInsnStart .. | .setLabel .. | .br .. | .jmp .. | .brcond .. | .st .. | .qemuSt ..
  | .exitTb .. | .gotoTb .. => .isTrue trivial

/-- The inputs that copy propagation replaces, and how much of them the op reads. -/
def Insn.reads : Insn → List (ℕ × TcgType)
  | .mov w _ src => [(src, w)]
  | .un op w _ src => [(src, op.reads w)]
  | .bin _ w _ x y => [(x, w), (y, w)]
  | .plain op _ ins => ins.map (·, op.reads)
  | _ => []

/-- A rotation of two constants has a count for which both shifts of `do_constant_folding_2` are
defined in C. -/
def Insn.RotationOk (T : TempTable) : Insn → Prop
  | .bin op w _ x y =>
    (T x).state = .const → (T y).state = .const → Tcg.RotationOk op w (T y).val
  | _ => True

/-- The op reads all 64 bits of an I64 temp only if its representative has as many, and folds a
rotation only by a proper count. -/
structure Insn.Careful (ctx : TcgContext) (T : TempTable) (insn : Insn) : Prop where
  reads : ∀ p ∈ insn.reads, p.2 = .i64 → ctx.type p.1 = .i64 → ctx.type (T.repOf p.1) = .i64
  rotation : insn.RotationOk T

def CarefulFrom (host : Host) (ctx : TcgContext) : TempTable → List Insn → Prop
  | _, [] => True
  | T, insn :: rest =>
    insn.Careful ctx T ∧ ∀ r ∈ optimizeInsn host ctx T insn, CarefulFrom host ctx r.2 rest

instance (T : TempTable) (insn : Insn) : Decidable (insn.RotationOk T) :=
  match insn with
  | .bin .. => inferInstanceAs (Decidable (_ → _ → _))
  | .nop | .debugInsnStart .. | .discard .. | .mov .. | .movi .. | .un .. | .plain .. | .call ..
  | .setLabel .. | .br .. | .jmp .. | .brcond .. | .st .. | .qemuLd .. | .qemuSt .. | .exitTb ..
  | .gotoTb .. => .isTrue trivial

instance (ctx : TcgContext) (T : TempTable) (insn : Insn) : Decidable (insn.Careful ctx T) :=
  decidable_of_iff ((∀ p ∈ insn.reads, p.2 = .i64 → ctx.type p.1 = .i64 →
    ctx.type (T.repOf p.1) = .i64)
      ∧ insn.RotationOk T)
    ⟨fun h => ⟨h.1, h.2⟩, fun h => ⟨h.reads, h.rotation⟩⟩

/-- Whether a stream is careful can be checked, by running the pass. -/
instance decidableCarefulFrom (host : Host) (ctx : TcgContext) :
    (T : TempTable) → (code : List Insn) → Decidable (CarefulFrom host ctx T code)
  | _, [] => .isTrue trivial
  | T, insn :: rest =>
    have : Decidable (∀ r ∈ optimizeInsn host ctx T insn, CarefulFrom host ctx r.2 rest) :=
      match h : optimizeInsn host ctx T insn with
      | none => .isTrue (by simp)
      | some r =>
        have := decidableCarefulFrom host ctx r.2 rest
        decidable_of_iff (CarefulFrom host ctx r.2 rest) (by simp)
    inferInstanceAs (Decidable (_ ∧ _))

end Qemu.Tcg
