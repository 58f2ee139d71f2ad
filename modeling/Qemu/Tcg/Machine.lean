import Mathlib
import Qemu.Tcg.Op

/-!
# Running a stream of ops

The meaning of a translation block, as `tcg/README` gives it and the register allocator of
`tcg/tcg.c` keeps it up: temps that are neither globals nor local lose their value at the end of a
basic block, a helper may change the globals unless it is declared pure or const, and a value that
is not there cannot be read.

Host and guest memory, the helpers and the links between blocks are given by an `Env`.  A run goes
wrong (`none`) where an op has no defined result.

It is assumed that `qemu_ld` and `qemu_st` leave the globals as they are.  The register allocator
does not rely on it: it stores the globals before an access and loads them again afterwards
(`TCG_OPF_CALL_CLOBBER`), as a handler for the accessed memory might have changed them.  The
optimizer does rely on it, as it keeps what it knows of the globals across an access.
-/

namespace Qemu.Tcg

/-! ## Ops without side effects that are never folded -/

/-- `TCGCond`. -/
inductive Cond where
  | eq | ne | lt | ge | le | gt | ltu | geu | leu | gtu
  deriving DecidableEq, Repr

/-- The comparison a condition stands for. -/
def Cond.holds {n : ℕ} (c : Cond) (x y : BitVec n) : Bool :=
  match c with
  | .eq => x == y
  | .ne => x != y
  | .lt => x.slt y
  | .ge => !x.slt y
  | .le => x.sle y
  | .gt => !x.sle y
  | .ltu => x.ult y
  | .geu => !x.ult y
  | .leu => x.ule y
  | .gtu => !x.ule y

/-- How many bytes are accessed. -/
inductive MemSize where
  | b8 | b16 | b32 | b64
  deriving DecidableEq, Repr

def MemSize.bytes : MemSize → ℕ
  | .b8 => 1
  | .b16 => 2
  | .b32 => 4
  | .b64 => 8

/-- Host and guest memory, the helpers and the other translation blocks. -/
structure Env (Mem : Type) where
  /-- a load from host memory, extended with zeros -/
  load : Mem → BitVec 64 → MemSize → Option (BitVec 64)
  /-- a store to host memory -/
  store : Mem → BitVec 64 → MemSize → BitVec 64 → Option Mem
  /-- a load from guest memory with the given flags, or a fault -/
  qemuLd : Mem → MemSize → ℕ → BitVec 64 → Option (BitVec 64) × Mem
  /-- a store to guest memory, which may fault -/
  qemuSt : Mem → MemSize → ℕ → BitVec 64 → BitVec 64 → Bool × Mem
  /-- a call of a helper: the results, if it returns, and the new globals -/
  helper : Mem → List (BitVec 64) → (ℕ → Option Value) →
  Option (List (BitVec 64)) × (ℕ → BitVec 64) × Mem
  /-- whether the jump of a `goto_tb` has been linked -/
  linked : Mem → ℕ → Bool

/-- The ops that compute their outputs from their inputs and memory. -/
inductive PlainOp where
  | setcond (w : TcgType) (c : Cond)
  | ld (w : TcgType) (size : MemSize) (signed : Bool) (offset : BitVec 64)
  | div (w : TcgType) (signed : Bool)
  | rem (w : TcgType) (signed : Bool)
  | div2 (w : TcgType) (signed : Bool)
  | deposit (w : TcgType) (pos len : ℕ)
  | bswap (w : TcgType) (size : MemSize)
  deriving DecidableEq, Repr

namespace PlainOp

def width : PlainOp → TcgType
  | setcond w _ => w
  | ld w _ _ _ => w
  | div w _ => w
  | rem w _ => w
  | div2 w _ => w
  | deposit w _ _ => w
  | bswap w _ => w

/-- How much of its inputs the op reads; the base of a load is a host address. -/
def reads : PlainOp → TcgType
  | ld _ _ _ _ => .i64
  | op => op.width

/-- A division, by zero or with an overflow undefined. -/
def divide {n : ℕ} (signed : Bool) (x y : BitVec n) : Option (BitVec n × BitVec n) :=
  if y = 0#n then none
  else if signed then
    if x = BitVec.intMin n ∧ y = BitVec.allOnes n then none else some (x.sdiv y, x.srem y)
  else some (x / y, x % y)

def divide2 {n : ℕ} (signed : Bool) (low high y : BitVec n) : Option (BitVec n × BitVec n) :=
  if y = 0#n then none
  else if signed then
    let num : ℤ := high.toInt * 2 ^ n + low.toNat
    let quot := num.tdiv y.toInt
    if (BitVec.ofInt n quot).toInt = quot then
      some (BitVec.ofInt n quot, BitVec.ofInt n (num.tmod y.toInt))
    else none
  else
    let num := high.toNat * 2 ^ n + low.toNat
    if num / y.toNat < 2 ^ n then
      some (BitVec.ofNat n (num / y.toNat), BitVec.ofNat n (num % y.toNat))
    else none

/-- The lowest `k` bytes in the other order. -/
def swapBytes {n : ℕ} (k : ℕ) (x : BitVec n) : BitVec n :=
  (List.range k).foldl
    (fun acc i => acc ||| (((x >>> (8 * i)) &&& BitVec.ofNat n 255) <<< (8 * (k - 1 - i)))) 0#n

/-- A loaded value in a register. -/
def extend (n : ℕ) (size : MemSize) (signed : Bool) (x : BitVec 64) : BitVec n :=
  if signed then (x.setWidth (8 * size.bytes)).signExtend n
  else (x.setWidth (8 * size.bytes)).setWidth n

def eval {Mem : Type} (env : Env Mem) (mem : Mem) (op : PlainOp)
    (xs : List (BitVec op.reads.bits)) : Option (List (BitVec op.width.bits)) :=
  match op, xs with
  | setcond w c, [x, y] => some [if c.holds (n := w.bits) x y then 1 else 0]
  | ld w size signed offset, [base] =>
    (env.load mem (BitVec.setWidth 64 base + offset) size).map fun x =>
      [extend w.bits size signed x]
  | div w signed, [x, y] => (divide (n := w.bits) signed x y).map fun r => [r.1]
  | rem w signed, [x, y] => (divide (n := w.bits) signed x y).map fun r => [r.2]
  | div2 w signed, [low, high, y] =>
    (divide2 (n := w.bits) signed low high y).map fun r => [r.1, r.2]
  | deposit w pos len, [x, y] =>
    let mask := BitVec.ofNat w.bits (2 ^ len - 1) <<< pos
    some [BitVec.or (BitVec.and x (~~~mask)) (BitVec.and (BitVec.shiftLeft y pos) mask)]
  -- the bytes above those that are swapped have to be zero
  | bswap w size, [x] =>
    if x.toNat < 2 ^ (8 * size.bytes) then some [swapBytes (n := w.bits) size.bytes x] else none
  | _, _ => none

end PlainOp

/-! ## Ops -/

/-- What a helper promises. -/
structure CallFlags where
  /-- `TCG_CALL_CONST` -/
  isConst : Bool
  /-- `TCG_CALL_PURE` -/
  isPure : Bool
  deriving DecidableEq, Repr

/-- An op with its arguments. -/
inductive Insn where
  | nop
  | debugInsnStart (pc : BitVec 64)
  | discard (t : ℕ)
  | mov (w : TcgType) (dst src : ℕ)
  | movi (w : TcgType) (dst : ℕ) (val : BitVec 64)
  | un (op : UnOp) (w : TcgType) (dst src : ℕ)
  | bin (op : BinOp) (w : TcgType) (dst x y : ℕ)
  | plain (op : PlainOp) (outs ins : List ℕ)
  | call (flags : CallFlags) (outs ins : List ℕ)
  | setLabel (label : ℕ)
  | br (label : ℕ)
  | jmp (t : ℕ)
  | brcond (w : TcgType) (c : Cond) (x y label : ℕ)
  | st (size : MemSize) (t base : ℕ) (offset : BitVec 64)
  | qemuLd (size : MemSize) (t addr flags : ℕ)
  | qemuSt (size : MemSize) (t addr flags : ℕ)
  | exitTb (val : BitVec 64)
  | gotoTb (n : ℕ)
  deriving DecidableEq, Repr

/-! ## States -/

/-- What a run shows: the calls of helpers with their arguments, and the branches. -/
inductive Event where
  | call (args : List (BitVec 64))
  | branch (label : ℕ) (taken : Bool)
  deriving DecidableEq, Repr

/-- The state of a run. -/
structure State (Mem : Type) where
  temps : ℕ → Option Value
  mem : Mem
  trace : List Event

namespace State

variable {Mem : Type}

def set (m : State Mem) (t : ℕ) (v : Option Value) : State Mem :=
  { m with temps := Function.update m.temps t v }

@[simp] lemma temps_set (m : State Mem) (t : ℕ) (v : Option Value) :
    (m.set t v).temps = Function.update m.temps t v := rfl

def setAll (m : State Mem) : List (ℕ × Value) → State Mem
  | [] => m
  | (t, v) :: rest => (m.set t (some v)).setAll rest

/-- `tcg_reg_alloc_bb_end`: only globals and local temps live on. -/
def endBlock (ctx : TcgContext) (m : State Mem) : State Mem :=
  { m with temps := fun t => if t < ctx.nbGlobals ∨ ctx.isLocal t then m.temps t else none }

/-- A helper leaves new values in the globals, unless it is const or pure. -/
def clobber (ctx : TcgContext) (flags : CallFlags) (g : ℕ → BitVec 64) (m : State Mem) :
    State Mem :=
  if flags.isConst || flags.isPure then m
  else { m with temps := fun t =>
      if t < ctx.nbGlobals then some (Value.ofBits (ctx.type t) (g t)) else m.temps t }

def globals (ctx : TcgContext) (m : State Mem) : ℕ → Option Value :=
  fun t => if t < ctx.nbGlobals then m.temps t else none

def emit (m : State Mem) (e : Event) : State Mem := { m with trace := e :: m.trace }

end State

def Value.bits : Value → BitVec 64
  | .w32 x => x.setWidth 64
  | .w64 x => x

/-- How a block is left. -/
inductive Exit where
  | exitTb (val : BitVec 64)
  | gotoTb (n : ℕ)
  | jmp (target : BitVec 64)
  | exception
  | fellOff
  deriving DecidableEq, Repr

/-- A run that goes on with the given ops, or is over. -/
inductive Status (Mem : Type) where
  | running (code : List Insn) (m : State Mem)
  | halted (e : Exit) (m : State Mem)

def afterLabel (label : ℕ) : List Insn → Option (List Insn)
  | [] => none
  | insn :: code => if insn = .setLabel label then some code else afterLabel label code

def branchTarget (prog rest : List Insn) (label : ℕ) (taken : Bool) : Option (List Insn) :=
  if taken then afterLabel label prog else some rest

/-! ## Runs -/

section Run

variable {Mem : Type} (env : Env Mem) (ctx : TcgContext) (prog : List Insn)

/-- One op of the stream `prog`, with the ops that follow it. -/
def step (insn : Insn) (rest : List Insn) (m : State Mem) : Option (Status Mem) :=
  match insn with
  | .nop => some (.running rest m)
  | .debugInsnStart _ => some (.running rest m)
  | .discard t => some (.running rest (m.set t none))
  | .mov w dst src => do
    let x ← (← m.temps src).get w
    some (.running rest (m.set dst (some (.put w x))))
  | .movi w dst val => some (.running rest (m.set dst (some (.ofBits w val))))
  | .un op w dst src => do
    let v ← evalUn op w (← m.temps src)
    some (.running rest (m.set dst (some v)))
  | .bin op w dst x y => do
    let v ← evalBin op w (← m.temps x) (← m.temps y)
    some (.running rest (m.set dst (some v)))
  | .plain op outs ins => do
    let xs ← ins.mapM fun t => (m.temps t).bind (Value.get op.reads)
    let rs ← op.eval env m.mem xs
    some (.running rest (m.setAll (outs.zip (rs.map (Value.put op.width)))))
  | .call flags outs ins => do
    let vs ← ins.mapM m.temps
    let args := vs.map Value.bits
    let (rets, g, mem) := env.helper m.mem args (m.globals ctx)
    let m := { m.emit (.call args) with mem := mem }
    let m := m.clobber ctx flags g
    match rets with
    | none => some (.halted .exception m)
    | some rs => some (.running rest (m.setAll
        ((outs.zip rs).map fun p => (p.1, Value.ofBits (ctx.type p.1) p.2))))
  | .setLabel _ => some (.running rest (m.endBlock ctx))
  | .br label => do
    let code ← afterLabel label prog
    some (.running code ((m.emit (.branch label true)).endBlock ctx))
  | .jmp t => do
    let target ← (← m.temps t).full
    some (.halted (.jmp target) (m.endBlock ctx))
  | .brcond w c x y label => do
    let a ← (← m.temps x).get w
    let b ← (← m.temps y).get w
    let taken := c.holds a b
    let code ← branchTarget prog rest label taken
    some (.running code ((m.emit (.branch label taken)).endBlock ctx))
  | .st size t base offset => do
    let v ← m.temps t
    let p ← (← m.temps base).full
    let mem ← env.store m.mem (p + offset) size v.bits
    some (.running rest { m with mem := mem })
  | .qemuLd size t addr flags => do
    let a ← m.temps addr
    let (x, mem) := env.qemuLd m.mem size flags a.bits
    let m := { m with mem := mem }
    match x with
    | none => some (.halted .exception m)
    | some x => some (.running rest (m.set t (some (.ofBits (ctx.type t) x))))
  | .qemuSt size t addr flags => do
    let v ← m.temps t
    let a ← m.temps addr
    let (ok, mem) := env.qemuSt m.mem size flags a.bits v.bits
    let m := { m with mem := mem }
    if ok then some (.running rest m) else some (.halted .exception m)
  | .exitTb val => some (.halted (.exitTb val) (m.endBlock ctx))
  | .gotoTb n =>
    if env.linked m.mem n then some (.halted (.gotoTb n) (m.endBlock ctx))
    else some (.running rest (m.endBlock ctx))

def Status.step : Status Mem → Option (Status Mem)
  | .running [] m => some (.halted .fellOff m)
  | .running (insn :: rest) m => Tcg.step env ctx prog insn rest m
  | .halted e m => some (.halted e m)

def run : ℕ → Status Mem → Option (Status Mem)
  | 0, s => some s
  | n + 1, s => (s.step env ctx prog).bind (run n)

end Run

end Qemu.Tcg
