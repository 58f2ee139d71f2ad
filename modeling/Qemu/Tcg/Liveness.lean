import Mathlib.Tactic
import Qemu.Tcg.Opcode

/-!
# Liveness analysis

`tcg_liveness_analysis` of `tcg/tcg.c` goes backwards over the ops.  It removes those whose outputs
are all dead, and tells the register allocator which arguments of the others are dead, so that their
registers can be used again.

What the ops compute is left open: a `Sem` gives the meaning of every op within the limits that its
flags set, and `M` is all that the ops can change besides the temps, for instance a list of the
effects in their order.  An op with dead arguments forgets them: the inputs before it writes its
outputs, as `tcg_reg_alloc_op` does, and the outputs instead of writing them.

**Main definitions:** `tcgLivenessAnalysis`, and `run` for what a list of ops does.
-/

namespace Qemu.Tcg.Liveness

/-! ## Ops -/

/-- `TCG_CALL_PURE` and `TCG_CALL_CONST`. -/
structure CallFlags where
  isPure : Bool
  isConst : Bool
  deriving DecidableEq, Repr

/-- An op with the temps that it writes and reads, and constants.  An input of a call may be
`TCG_CALL_DUMMY_ARG`, which is not a temp. -/
inductive Op where
  | call (flags : CallFlags) (outs : List ℕ) (ins : List (Option ℕ))
  | setLabel (label : ℕ)
  | debugInsnStart
  | nopn
  | discard (t : ℕ)
  | op (opc : Opcode) (outs ins consts : List ℕ)
  deriving DecidableEq, Repr

namespace Op

def outs : Op → List ℕ
  | call _ outs _ => outs
  | op _ outs _ _ => outs
  | _ => []

def ins : Op → List (Option ℕ)
  | call _ _ ins => ins
  | op _ _ ins _ => ins.map some
  | _ => []

/-- The op is marked as ending a basic block. -/
def bbEnd : Op → Bool
  | op opc _ _ _ => opc.flags.bbEnd
  | _ => false

/-- The op can be abandoned by an exception or is at the end of a block: the globals are in use. -/
def needsGlobals : Op → Bool
  | call flags _ _ => !flags.isConst
  | setLabel _ => true
  | op opc _ _ _ => opc.flags.bbEnd || opc.flags.callClobber
  | _ => false

/-- The op is at the end of a block: the globals and the local temps are in use. -/
def endsBlock : Op → Bool
  | setLabel _ => true
  | op opc _ _ _ => opc.flags.bbEnd
  | _ => false

end Op

lemma Op.endsBlock_of_bbEnd {op : Op} (h : op.bbEnd = true) : op.endsBlock = true := by
  cases op with
  | op opc outs ins consts => exact h
  | _ => cases h

/-- An op, with the bits of `op_dead_args` for its outputs and for its inputs. -/
structure MarkedOp where
  op : Op
  deadOuts : List Bool
  deadIns : List Bool
  deriving DecidableEq, Repr

def Op.unmarked (op : Op) : MarkedOp := ⟨op, [], []⟩

/-! ## The analysis -/

/-- `dead_temps`. -/
abbrev Dead := ℕ → Bool

/-- Note for each output whether it is dead, and that it is dead before the op. -/
def markOuts : List ℕ → Dead → List Bool × Dead
  | [], dead => ([], dead)
  | t :: ts, dead =>
    let (bits, dead') := markOuts ts (Function.update dead t true)
    (dead t :: bits, dead')

/-- Note for each input whether it is dead, and that it is live before the op. -/
def markIns : List (Option ℕ) → Dead → List Bool × Dead
  | [], dead => ([], dead)
  | none :: ts, dead =>
    let (bits, dead) := markIns ts dead
    (false :: bits, dead)
  | some t :: ts, dead =>
    let (bits, dead') := markIns ts (Function.update dead t false)
    (dead t :: bits, dead')

section Analysis

variable (ctx : TcgContext)

/-- `tcg_la_bb_end`. -/
def laBbEnd : Dead := fun t => !(decide (t < ctx.nbGlobals) || ctx.isLocal t)

/-- `memset(dead_temps, 0, s->nb_globals)`. -/
def laGlobals (dead : Dead) : Dead := fun t => !decide (t < ctx.nbGlobals) && dead t

/-- The bits that fit into an entry of `op_dead_args`, after those of the outputs. -/
def mark (op : Op) (outBits inBits : List Bool) : MarkedOp :=
  ⟨op, outBits.take 16, inBits.take (16 - outBits.length)⟩

/-- One round of `tcg_liveness_analysis`. -/
def livenessOp (op : Op) (dead : Dead) : MarkedOp × Dead :=
  match op with
  | .call flags outs ins =>
    if flags.isPure && outs.all dead then (Op.nopn.unmarked, dead)
    else
      let (outBits, dead) := markOuts outs dead
      let dead := if flags.isConst then dead else laGlobals ctx dead
      let (inBits, dead) := markIns ins dead
      (mark op outBits inBits, dead)
  | .setLabel _ => (op.unmarked, laBbEnd ctx)
  | .debugInsnStart => (op.unmarked, dead)
  | .nopn => (op.unmarked, dead)
  | .discard t => (op.unmarked, Function.update dead t true)
  | .op opc outs ins _ =>
    if !opc.flags.sideEffects && !outs.isEmpty && outs.all dead then (Op.nopn.unmarked, dead)
    else
      let (outBits, dead) := markOuts outs dead
      let dead :=
        if opc.flags.bbEnd then laBbEnd ctx
        else if opc.flags.callClobber then laGlobals ctx dead
        else dead
      let (inBits, dead) := markIns (ins.map some) dead
      (mark op outBits inBits, dead)

/-- The loop of `tcg_liveness_analysis`, from the last op to the first. -/
def liveness : List Op → List MarkedOp × Dead
  | [] => ([], fun _ => true)
  | op :: ops =>
    let (marked, dead) := liveness ops
    let (op, dead) := livenessOp ctx op dead
    (op :: marked, dead)

/-- `tcg_liveness_analysis`. -/
def tcgLivenessAnalysis (ops : List Op) : List MarkedOp := (liveness ctx ops).1

end Analysis

/-! ## What the ops do -/

/-- Where an op at the end of a basic block goes on. -/
inductive Target where
  | label (label : ℕ)
  | next
  | leave (code : ℕ)
  deriving DecidableEq, Repr

/-- A helper or a memory access returns the outputs or raises an exception, with new globals. -/
inductive Result (V M : Type) where
  | ok (outs : List V) (globals : ℕ → Option V) (mem : M)
  | raise (globals : ℕ → Option V) (mem : M)

/-- The meaning of the ops, from the constants and the inputs.  An op without side effects only
reads `M`, and so does a pure helper; a const helper has nothing to do with the globals. -/
structure Sem (V M : Type) where
  compute : Opcode → List ℕ → List V → M → Option (List V)
  effect : Opcode → List ℕ → List V → M → Option (List V × M)
  access : Opcode → List ℕ → List V → (ℕ → Option V) → M → Result V M
  branch : Opcode → List ℕ → List V → M → Option (Target × M)
  helper : List V → (ℕ → Option V) → M → Result V M
  pureHelper : List V → (ℕ → Option V) → M → List V
  constHelper : List V → M → Option (List V) × M

/-- An op writes its outputs, and perhaps the globals, it goes on somewhere else, or it raises an
exception. -/
inductive Outcome (V M : Type) where
  | write (outs : List V) (mem : M)
  | clobber (r : Result V M)
  | jump (target : Target) (mem : M)
  | raise (mem : M)

/-- The temps, as far as they are defined, and everything else. -/
structure State (V M : Type) where
  temps : ℕ → Option V
  mem : M

/-- How a list of ops is left. -/
inductive Exit where
  | leave (code : ℕ)
  | exception
  | fellOff
  deriving DecidableEq, Repr

/-- A run that goes on with the given ops, or is over. -/
inductive Status (V M : Type) where
  | running (code : List MarkedOp) (m : State V M)
  | halted (e : Exit) (m : State V M)

section Step

variable {V M : Type} (sem : Sem V M) (ctx : TcgContext)

def Op.eval (vs : List V) (globals : ℕ → Option V) (mem : M) : Op → Option (Outcome V M)
  | .call flags _ _ =>
    if flags.isPure then
      some (.write (sem.pureHelper vs (if flags.isConst then fun _ => none else globals) mem) mem)
    else if flags.isConst then
      match sem.constHelper vs mem with
      | (some outs, mem) => some (.write outs mem)
      | (none, mem) => some (.raise mem)
    else some (.clobber (sem.helper vs globals mem))
  | .op opc _ _ consts =>
    if opc.flags.bbEnd then (sem.branch opc consts vs mem).map fun r => .jump r.1 r.2
    else if opc.flags.callClobber then some (.clobber (sem.access opc consts vs globals mem))
    else if opc.flags.sideEffects then (sem.effect opc consts vs mem).map fun r => .write r.1 r.2
    else (sem.compute opc consts vs mem).map fun outs => .write outs mem
  | _ => some (.write [] mem)

namespace State

def set (m : State V M) (t : ℕ) (v : Option V) : State V M :=
  { m with temps := Function.update m.temps t v }

def read (m : State V M) (ins : List (Option ℕ)) : Option (List V) := ins.reduceOption.mapM m.temps

def kill (m : State V M) : List (Option ℕ) → List Bool → State V M
  | some t :: ts, true :: bits => (m.set t none).kill ts bits
  | _ :: ts, _ :: bits => m.kill ts bits
  | _, _ => m

def write (m : State V M) : List ℕ → List Bool → List V → State V M
  | t :: ts, bits, v :: vs =>
    (m.set t (if bits.headD false then none else some v)).write ts bits.tail vs
  | _, _, _ => m

def globals (m : State V M) : ℕ → Option V := fun t => if t < ctx.nbGlobals then m.temps t else none

/-- The state after a helper or a memory access that may have changed the globals. -/
def clobbered (m : State V M) (g : ℕ → Option V) (mem : M) : State V M where
  temps := fun t => if t < ctx.nbGlobals then g t else m.temps t
  mem := mem

/-- `tcg_reg_alloc_bb_end`: only the globals and the local temps are kept. -/
def endBlock (m : State V M) (mem : M) : State V M where
  temps := fun t => if t < ctx.nbGlobals ∨ ctx.isLocal t then m.temps t else none
  mem := mem

end State

def afterLabel (label : ℕ) : List MarkedOp → Option (List MarkedOp)
  | [] => none
  | op :: code => if op.op = .setLabel label then some code else afterLabel label code

/-- The list `prog` goes on after an op. -/
def Outcome.finish (prog : List MarkedOp) (op : MarkedOp) (rest : List MarkedOp) (m : State V M) :
    Outcome V M → Option (Status V M)
  | .write vs mem =>
    if vs.length = op.op.outs.length then
      some (.running rest (({ m with mem := mem }).write op.op.outs op.deadOuts vs))
    else none
  | .clobber (.ok vs g mem) =>
    if vs.length = op.op.outs.length then
      some (.running rest ((m.clobbered ctx g mem).write op.op.outs op.deadOuts vs))
    else none
  | .clobber (.raise g mem) => some (.halted .exception (m.clobbered ctx g mem))
  | .jump .next mem => some (.running rest (m.endBlock ctx mem))
  | .jump (.label label) mem =>
    (afterLabel label prog).map fun code => .running code (m.endBlock ctx mem)
  | .jump (.leave code) mem => some (.halted (.leave code) (m.endBlock ctx mem))
  | .raise mem => some (.halted .exception { m with mem := mem })

/-- An op with inputs and outputs.  There is no result if it reads an undefined temp, or its own is
undefined. -/
def execute (prog : List MarkedOp) (op : MarkedOp) (rest : List MarkedOp) (m : State V M) :
    Option (Status V M) :=
  match m.read op.op.ins with
  | none => none
  | some vs =>
    let m := m.kill op.op.ins op.deadIns
    match op.op.eval sem vs (m.globals ctx) m.mem with
    | none => none
    | some outcome => outcome.finish ctx prog op rest m

/-- One op of the list `prog`, with the ops that follow it. -/
def step (prog : List MarkedOp) (op : MarkedOp) (rest : List MarkedOp) (m : State V M) :
    Option (Status V M) :=
  match op.op with
  | .setLabel _ => some (.running rest (m.endBlock ctx m.mem))
  | .discard t => some (.running rest (m.set t none))
  | .debugInsnStart => some (.running rest m)
  | .nopn => some (.running rest m)
  | .call _ _ _ => execute sem ctx prog op rest m
  | .op _ _ _ _ => execute sem ctx prog op rest m

def Status.step (prog : List MarkedOp) : Status V M → Option (Status V M)
  | .running [] m => some (.halted .fellOff m)
  | .running (op :: rest) m => Liveness.step sem ctx prog op rest m
  | .halted e m => some (.halted e m)

def run (prog : List MarkedOp) : ℕ → Status V M → Option (Status V M)
  | 0, s => some s
  | n + 1, s => (s.step sem ctx prog).bind (run prog n)

end Step

end Qemu.Tcg.Liveness
