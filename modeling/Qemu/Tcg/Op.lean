import Mathlib
import Qemu.Tcg.CopyTable

/-!
# Ops and their values

The ops of `tcg/tcg-opc.h` on a 64-bit host, what they compute, and what `do_constant_folding` of
`tcg/optimize.c` makes of them at translation time.

A temp of type I32 occupies a 64-bit register of which TCG says nothing about the upper half
(`tcg/README`, 4.1).  So a value is tagged with the width it was written with, and an op that reads
64 bits of a 32-bit value has no defined result, unless it only uses the lower half.

**Main results:**
- `evalBin_mono`, `evalUn_mono`: an op computes the same from values that agree with its operands
- `foldBin_correct`, `foldUn_correct`: constant folding computes what the op computes
-/

namespace Qemu.Tcg

open Option
open BitVec hiding and_self not_or

def TcgType.bits : TcgType → ℕ
  | .i32 => 32
  | .i64 => 64

/-! ## Values -/

/-- The value of a temp, as wide as the op that wrote it. -/
inductive Value where
  | w32 (x : BitVec 32)
  | w64 (x : BitVec 64)
  deriving DecidableEq, Repr

namespace Value

/-- The lower half, which a 32-bit op reads. -/
def lo : Value → BitVec 32
  | w32 x => x
  | w64 x => x.setWidth 32

/-- All 64 bits, if they are known. -/
def full : Value → Option (BitVec 64)
  | w32 _ => none
  | w64 x => some x

def type : Value → TcgType
  | w32 _ => .i32
  | w64 _ => .i64

/-- What an op of width `w` reads. -/
def get (w : TcgType) (v : Value) : Option (BitVec w.bits) :=
  match w with
  | .i32 => some v.lo
  | .i64 => v.full

/-- What an op of width `w` writes. -/
def put (w : TcgType) (x : BitVec w.bits) : Value :=
  match w, x with
  | .i32, x => w32 x
  | .i64, x => w64 x

/-- A value for a temp of type `w` out of a 64-bit register. -/
def ofBits (w : TcgType) (x : BitVec 64) : Value :=
  match w with
  | .i32 => w32 (x.setWidth 32)
  | .i64 => w64 x

/-- What an op of width `w` reads from `a`, it reads from `b` as well. -/
def Agrees (w : TcgType) (a b : Value) :
    Prop := a.lo = b.lo ∧ (w = .i64 → ∀ x, a = w64 x → b = w64 x)

variable {w : TcgType} {a b : Value}

lemma Agrees.refl (w : TcgType) (a : Value) : a.Agrees w a := ⟨rfl, fun _ _ h => h⟩

variable {x : BitVec w.bits}

lemma Agrees.get (h : a.Agrees w b) (hx : a.get w = some x) : b.get w = some x := by
  cases w with
  | i32 => rwa [Value.get, ← h.1]
  | i64 =>
    cases a with
    | w32 y => simp [Value.get, full] at hx
    | w64 y => rwa [h.2 rfl y rfl]

lemma Agrees.mono (h : a.Agrees .i64 b) : a.Agrees w b := ⟨h.1, fun _ => h.2 rfl⟩

@[simp] lemma type_put (x : BitVec w.bits) : (put w x).type = w := by
  cases w <;> rfl

@[simp] lemma type_ofBits (x : BitVec 64) : (ofBits w x).type = w := by
  cases w <;> rfl

lemma lo_put (h : a.get w = some x) : (put w x).lo = a.lo := by
  cases w with
  | i32 => exact (Option.some.inj h).symm
  | i64 =>
    cases a with
    | w32 y => simp [Value.get, full] at h
    | w64 y => rw [← Option.some.inj h]; rfl

lemma put_eq_of_type (h : a.get w = some x) (ha : a.type = w) : put w x = a := by
  subst ha
  cases a <;> exact congrArg _ (Option.some.inj h).symm

lemma put_eq_of_i64 (hw : w = .i64) (h : a.get w = some x) : put w x = a := by
  subst hw
  cases a with
  | w32 y => simp [Value.get, full] at h
  | w64 y => exact congrArg _ (Option.some.inj h).symm

/-- A constant determines the value of a temp. -/
lemma Agrees.eq_ofBits {c : BitVec 64} (h : a.Agrees .i64 (w64 c)) (ha : a.type = w) :
    a = ofBits w c := by
  subst ha
  cases a with
  | w32 x => exact congrArg w32 h.1
  | w64 x => exact (h.2 rfl x rfl).symm

lemma agrees_ofBits (c : BitVec 64) : (ofBits w c).Agrees .i64 (w64 c) := by
  cases w with
  | i32 => exact ⟨rfl, by simp [ofBits]⟩
  | i64 => exact Agrees.refl _ _

end Value

/-! ## Arithmetic -/

/-- The ops with two inputs that can be folded. -/
inductive BinOp where
  | add | sub | mul | and | or | xor | shl | shr | sar | rotl | rotr
  | andc | orc | eqv | nand | nor
  deriving DecidableEq, Repr

/-- The result of an op; a shift by the width or more has none. -/
def BinOp.eval {n : ℕ} (op : BinOp) (x y : BitVec n) : Option (BitVec n) :=
  match op with
  | .add => some (x + y)
  | .sub => some (x - y)
  | .mul => some (x * y)
  | .and => some (x &&& y)
  | .or => some (x ||| y)
  | .xor => some (x ^^^ y)
  | .shl => if y.toNat < n then some (x <<< y.toNat) else none
  | .shr => if y.toNat < n then some (x >>> y.toNat) else none
  | .sar => if y.toNat < n then some (x.sshiftRight y.toNat) else none
  | .rotl => if y.toNat < n then some (x.rotateLeft y.toNat) else none
  | .rotr => if y.toNat < n then some (x.rotateRight y.toNat) else none
  | .andc => some (x &&& ~~~y)
  | .orc => some (x ||| ~~~y)
  | .eqv => some (~~~(x ^^^ y))
  | .nand => some (~~~(x &&& y))
  | .nor => some (~~~(x ||| y))

/-- The 64-bit ops.  `tcg_gen_ext32u_i64` is an `and_i64`, and `tcg_gen_ext32s_i64` starts with a
`shl_i64` by 32, on a host without the extension; these do not use the upper half of a 32-bit
operand. -/
def BinOp.eval64 (op : BinOp) (a b : Value) : Option (BitVec 64) :=
  match a, b with
  | .w64 x, .w64 y => op.eval x y
  | .w32 x, .w64 y =>
    if op = .and ∧ y >>> 32 = 0#64 then some (x.setWidth 64 &&& y)
    else if op = .shl ∧ 32 ≤ y.toNat ∧ y.toNat < 64 then some (x.setWidth 64 <<< y.toNat)
    else none
  | .w64 x, .w32 y =>
    if op = .and ∧ x >>> 32 = 0#64 then some (x &&& y.setWidth 64) else none
  | .w32 _, .w32 _ => none

/-- The op of width `w`. -/
def evalBin (op : BinOp) (w : TcgType) (a b : Value) : Option Value :=
  match w with
  | .i32 => (op.eval a.lo b.lo).map .w32
  | .i64 => (op.eval64 a b).map .w64

/-- The ops with one input that can be folded; `ext32s` and `ext32u` are 64-bit ops only. -/
inductive UnOp where
  | not | neg | ext8s | ext8u | ext16s | ext16u | ext32s | ext32u
  deriving DecidableEq, Repr

def UnOp.eval {n : ℕ} (op : UnOp) (x : BitVec n) : BitVec n :=
  match op with
  | .not => ~~~x
  | .neg => -x
  | .ext8s => (x.setWidth 8).signExtend n
  | .ext8u => (x.setWidth 8).setWidth n
  | .ext16s => (x.setWidth 16).signExtend n
  | .ext16u => (x.setWidth 16).setWidth n
  | .ext32s => (x.setWidth 32).signExtend n
  | .ext32u => (x.setWidth 32).setWidth n

/-- How much of its operand an op of width `w` reads. -/
def UnOp.reads (op : UnOp) (w : TcgType) : TcgType :=
  if op = .ext32s ∨ op = .ext32u then .i32 else w

/-- The op of width `w`. -/
def evalUn (op : UnOp) (w : TcgType) (a : Value) : Option Value :=
  match w, op with
  | .i32, op => some (.w32 (op.eval a.lo))
  | .i64, .ext32s => some (.w64 (a.lo.signExtend 64))
  | .i64, .ext32u => some (.w64 (a.lo.setWidth 64))
  | .i64, op => a.full.map fun x => .w64 (op.eval x)

/-- A 64-bit value whose lower half is given. -/
lemma setWidth_and_of_shiftRight {x y : BitVec 64} (h : y >>> 32 = 0#64) :
    (x.setWidth 32).setWidth 64 &&& y = x &&& y := by
  ext i hi
  have hbit := congrArg (fun z => z.getLsbD (i - 32)) h
  simp only [getLsbD_ushiftRight, getLsbD_zero] at hbit
  by_cases hlt : i < 32
  · simp [hlt, getLsbD_eq_getElem hi]
  · rw [show 32 + (i - 32) = i by omega] at hbit
    simp [getLsbD_eq_getElem hi] at hbit
    simp [hbit]

variable {n : ℕ}

lemma setWidth_shl {x : BitVec 64} (h : 32 ≤ n) : (x.setWidth 32).setWidth 64 <<< n = x <<< n := by
  ext i hi
  simp only [getElem_shiftLeft]
  by_cases hlt : i < n
  · simp [hlt]
  · have h1 : i - n < 32 := by omega
    simp [hlt, h1, getLsbD_eq_getElem (show i - n < 64 by omega)]

section Mono

variable {op : BinOp} {un : UnOp} {w : TcgType} {a a' b b' v : Value}

lemma eval64_mono {r : BitVec 64} (ha : a.Agrees .i64 a') (hb : b.Agrees .i64 b')
    (h : op.eval64 a b = some r) : op.eval64 a' b' = some r := by
  cases a with
  | w64 x =>
    obtain rfl := ha.2 rfl x rfl
    cases b with
    | w64 y =>
      obtain rfl := hb.2 rfl y rfl
      exact h
    | w32 y =>
      simp only [BinOp.eval64, ite_none_right_eq_some] at h
      obtain ⟨⟨rfl, hx⟩, h⟩ := h
      cases b' with
      | w32 y' =>
        obtain rfl : y = y' := hb.1
        simp only [BinOp.eval64, hx, and_self, if_true, h]
      | w64 y' =>
        obtain rfl : y = y'.setWidth 32 := hb.1
        rw [BitVec.and_comm, setWidth_and_of_shiftRight hx, BitVec.and_comm] at h
        exact h
  | w32 x =>
    cases b with
    | w32 y => simp [BinOp.eval64] at h
    | w64 y =>
      obtain rfl := hb.2 rfl y rfl
      cases a' with
      | w32 x' =>
        obtain rfl : x = x' := ha.1
        exact h
      | w64 x' =>
        obtain rfl : x = x'.setWidth 32 := ha.1
        simp only [BinOp.eval64] at h ⊢
        split at h
        next hand =>
          obtain ⟨rfl, hy⟩ := hand
          rw [setWidth_and_of_shiftRight hy] at h
          exact h
        next =>
          rw [ite_none_right_eq_some] at h
          obtain ⟨⟨rfl, hle, hlt⟩, h⟩ := h
          rw [setWidth_shl hle] at h
          rw [BinOp.eval, if_pos hlt]
          exact h

/-- **An op computes the same** from operands that agree with its own. -/
theorem evalBin_mono (ha : a.Agrees w a') (hb : b.Agrees w b') (h : evalBin op w a b = some v) :
    evalBin op w a' b' = some v := by
  cases w with
  | i32 => rwa [evalBin, ← ha.1, ← hb.1]
  | i64 =>
    obtain ⟨r, hr, hv⟩ := map_eq_some_iff.mp h
    exact map_eq_some_iff.mpr ⟨r, eval64_mono ha hb hr, hv⟩

theorem evalUn_mono (ha : a.Agrees (un.reads w) a') (h : evalUn un w a = some v) :
    evalUn un w a' = some v := by
  cases w with
  | i32 => rwa [evalUn, ← ha.1]
  | i64 =>
    have hfull : ∀ {f : BitVec 64 → Value}, un.reads .i64 = .i64 → a.full.map f = some v →
        a'.full.map f = some v := by
      intro f hr hf
      rw [hr] at ha
      obtain ⟨x, hx, rfl⟩ := map_eq_some_iff.mp hf
      rw [show a'.full = some x from ha.get (w := .i64) hx]
      rfl
    cases un with
    | ext32s => rwa [evalUn, ← ha.1]
    | ext32u => rwa [evalUn, ← ha.1]
    | not => exact hfull rfl h
    | neg => exact hfull rfl h
    | ext8s => exact hfull rfl h
    | ext8u => exact hfull rfl h
    | ext16s => exact hfull rfl h
    | ext16u => exact hfull rfl h

lemma type_of_evalBin (h : evalBin op w a b = some v) : v.type = w := by
  cases w with
  | i32 | i64 =>
    obtain ⟨r, -, rfl⟩ := map_eq_some_iff.mp h
    rfl

lemma type_of_evalUn (h : evalUn un w a = some v) : v.type = w := by
  cases w with
  | i32 =>
    cases h
    rfl
  | i64 =>
    cases un <;> simp only [evalUn, Option.some.injEq, map_eq_some_iff] at h <;> grind [Value.type]

end Mono

/-! ## Constant folding -/

/-- The shifts of C. -/
inductive Shift where
  | left | right | arith
  deriving DecidableEq, Repr

/-- The host of the translator: what its shifts give for a count that C leaves undefined. -/
structure Host where
  overshift : Shift → (n : ℕ) → BitVec n → ℕ → BitVec n

def Host.shift (host : Host) (k : Shift) {n : ℕ} (x : BitVec n) (c : ℕ) : BitVec n :=
  if c < n then
    match k with
    | .left => x <<< c
    | .right => x >>> c
    | .arith => x.sshiftRight c
  else host.overshift k n x c

/-- `do_constant_folding_2`, for the ops with two inputs. -/
def foldBin2 (host : Host) (op : BinOp) (w : TcgType) (x y : BitVec 64) : BitVec 64 :=
  match op, w with
  | .add, _ => x + y
  | .sub, _ => x - y
  | .mul, _ => x * y
  | .and, _ => x &&& y
  | .or, _ => x ||| y
  | .xor, _ => x ^^^ y
  | .shl, .i32 => (host.shift .left (x.setWidth 32) (y.setWidth 32).toNat).setWidth 64
  | .shl, .i64 => host.shift .left x y.toNat
  | .shr, .i32 => (host.shift .right (x.setWidth 32) (y.setWidth 32).toNat).setWidth 64
  | .shr, .i64 => host.shift .right x y.toNat
  | .sar, .i32 => (host.shift .arith (x.setWidth 32) (y.setWidth 32).toNat).signExtend 64
  | .sar, .i64 => host.shift .arith x y.toNat
  -- the count of a rotation is not cut to 32 bits
  | .rotr, .i32 =>
    (host.shift .left (x.setWidth 32) (32#64 - y).toNat
      ||| host.shift .right (x.setWidth 32) y.toNat).setWidth 64
  | .rotr, .i64 => host.shift .left x (64#64 - y).toNat ||| host.shift .right x y.toNat
  | .rotl, .i32 =>
    (host.shift .left (x.setWidth 32) y.toNat
      ||| host.shift .right (x.setWidth 32) (32#64 - y).toNat).setWidth 64
  | .rotl, .i64 => host.shift .left x y.toNat ||| host.shift .right x (64#64 - y).toNat
  | .andc, _ => x &&& ~~~y
  | .orc, _ => x ||| ~~~y
  | .eqv, _ => ~~~(x ^^^ y)
  | .nand, _ => ~~~(x &&& y)
  | .nor, _ => ~~~(x ||| y)

/-- `do_constant_folding_2`, for the ops with one input. -/
def foldUn2 (op : UnOp) (x : BitVec 64) : BitVec 64 :=
  match op with
  | .not => ~~~x
  | .neg => -x
  | .ext8s => (x.setWidth 8).signExtend 64
  | .ext16s => (x.setWidth 16).signExtend 64
  | .ext8u => (x.setWidth 8).setWidth 64
  | .ext16u => (x.setWidth 16).setWidth 64
  | .ext32s => (x.setWidth 32).signExtend 64
  | .ext32u => (x.setWidth 32).setWidth 64

/-- The end of `do_constant_folding`. -/
def foldMask (w : TcgType) (res : BitVec 64) : BitVec 64 :=
  match w with
  | .i32 => res &&& 0xffffffff#64
  | .i64 => res

/-- `do_constant_folding`. -/
def foldBin (host : Host) (op : BinOp) (w : TcgType) (x y : BitVec 64) : BitVec 64 :=
  foldMask w (foldBin2 host op w x y)

def foldUn (op : UnOp) (w : TcgType) (x : BitVec 64) : BitVec 64 := foldMask w (foldUn2 op x)

/-- The shifts that fold a rotation are defined in C. -/
def RotationOk (op : BinOp) (w : TcgType) (y : BitVec 64) : Prop :=
  op = .rotl ∨ op = .rotr → 0 < y.toNat ∧ y.toNat < w.bits

instance (op : BinOp) (w : TcgType) (y : BitVec 64) : Decidable (RotationOk op w y) :=
  inferInstanceAs (Decidable (_ → _))

section Fold

variable {host : Host} {op : BinOp} {w : TcgType} {x y : BitVec 64} {v : Value}

lemma Host.shift_of_lt {c : ℕ} (k : Shift) (x : BitVec n) (h : c < n) :
    host.shift k x c = match k with
      | .left => x <<< c
      | .right => x >>> c
      | .arith => x.sshiftRight c := if_pos h

lemma setWidth_foldMask (res : BitVec 64) : (foldMask .i32 res).setWidth 32 = res.setWidth 32 := by
  rw [foldMask, setWidth_and]
  exact and_allOnes

lemma toNat_sub_count (hn : n < 2 ^ 64) (hy : y.toNat ≤ n) :
    (BitVec.ofNat 64 n - y).toNat = n - y.toNat := by
  rw [toNat_sub, toNat_ofNat, Nat.mod_eq_of_lt hn]
  omega

lemma setWidth_signExtend {k m : ℕ} (x : BitVec k) (h : n ≤ m) :
    (x.signExtend m).setWidth n = x.signExtend n := by
  ext i hi
  rw [getElem_setWidth, getLsbD_eq_getElem (by omega), getElem_signExtend, getElem_signExtend]

lemma Host.shift_or_rotateLeft (x : BitVec n) (hn : n < 2 ^ 64) (h0 : 0 < y.toNat)
    (hy : y.toNat < n) :
    host.shift .left x y.toNat ||| host.shift .right x (BitVec.ofNat 64 n - y).toNat
      = x.rotateLeft y.toNat := by
  rw [toNat_sub_count hn hy.le, host.shift_of_lt _ _ hy, host.shift_of_lt _ _ (by omega),
    rotateLeft_def, Nat.mod_eq_of_lt hy]

lemma Host.shift_or_rotateRight (x : BitVec n) (hn : n < 2 ^ 64) (h0 : 0 < y.toNat)
    (hy : y.toNat < n) :
    host.shift .left x (BitVec.ofNat 64 n - y).toNat ||| host.shift .right x y.toNat
      = x.rotateRight y.toNat := by
  rw [toNat_sub_count hn hy.le, host.shift_of_lt _ _ hy, host.shift_of_lt _ _ (by omega),
    rotateRight_def, Nat.mod_eq_of_lt hy, BitVec.or_comm]

lemma foldBin2_i64 (hrot : RotationOk op .i64 y) {r : BitVec 64} (h : op.eval x y = some r) :
    foldBin2 host op .i64 x y = r := by
  cases op with
  | shl | shr | sar =>
    simp only [BinOp.eval, ite_none_right_eq_some, Option.some.injEq] at h
    rw [foldBin2, host.shift_of_lt _ _ h.1, ← h.2]
  | rotl =>
    simp only [BinOp.eval, ite_none_right_eq_some, Option.some.injEq] at h
    rw [← h.2]
    exact host.shift_or_rotateLeft x (by omega) (hrot (.inl rfl)).1 h.1
  | rotr =>
    simp only [BinOp.eval, ite_none_right_eq_some, Option.some.injEq] at h
    rw [← h.2]
    exact host.shift_or_rotateRight x (by omega) (hrot (.inr rfl)).1 h.1
  | _ => exact Option.some.inj h

lemma foldBin2_i32 (hrot : RotationOk op .i32 y) {r : BitVec 32}
    (h : op.eval (x.setWidth 32) (y.setWidth 32) = some r) :
    (foldBin2 host op .i32 x y).setWidth 32 = r := by
  have hcount : y.toNat < 32 → (y.setWidth 32).toNat = y.toNat := by
    intro hy
    rw [toNat_setWidth, Nat.mod_eq_of_lt (by omega)]
  cases op with
  | shl | shr =>
    simp only [BinOp.eval, ite_none_right_eq_some, Option.some.injEq] at h
    rw [foldBin2, host.shift_of_lt _ _ h.1, ← h.2]
    exact setWidth_setWidth_of_le _ (by omega)
  | sar =>
    simp only [BinOp.eval, ite_none_right_eq_some, Option.some.injEq] at h
    rw [foldBin2, host.shift_of_lt _ _ h.1, ← h.2]
    exact (setWidth_signExtend _ (by omega)).trans (signExtend_eq _)
  | rotl =>
    obtain ⟨h0, hlt⟩ := hrot (.inl rfl)
    simp only [BinOp.eval, ite_none_right_eq_some, Option.some.injEq, hcount hlt] at h
    rw [← h.2, ← host.shift_or_rotateLeft (x.setWidth 32) (by omega) h0 hlt]
    exact setWidth_setWidth_of_le _ (by omega)
  | rotr =>
    obtain ⟨h0, hlt⟩ := hrot (.inr rfl)
    simp only [BinOp.eval, ite_none_right_eq_some, Option.some.injEq, hcount hlt] at h
    rw [← h.2, ← host.shift_or_rotateRight (x.setWidth 32) (by omega) h0 hlt]
    exact setWidth_setWidth_of_le _ (by omega)
  | add =>
    rw [← Option.some.inj h]
    exact setWidth_add _ _ (by omega)
  | sub =>
    rw [← Option.some.inj h, BitVec.sub_eq_add_neg, ← setWidth_neg_of_le (by omega)]
    exact (congrArg _ (BitVec.sub_eq_add_neg x y)).trans (setWidth_add _ _ (by omega))
  | mul =>
    rw [← Option.some.inj h]
    exact setWidth_mul _ _ (by omega)
  | _ =>
    rw [← Option.some.inj h]
    simp [foldBin2, setWidth_and, setWidth_or, setWidth_xor, setWidth_not]

/-- **Constant folding computes what the op computes.** -/
theorem foldBin_correct (hrot : RotationOk op w y) (h : evalBin op w (.w64 x) (.w64 y) = some v) :
    v.Agrees .i64 (.w64 (foldBin host op w x y)) := by
  cases w with
  | i32 =>
    obtain ⟨r, hr, rfl⟩ := map_eq_some_iff.mp h
    refine ⟨?_, by simp⟩
    exact (foldBin2_i32 hrot hr).symm.trans (setWidth_foldMask _).symm
  | i64 =>
    obtain ⟨r, hr, rfl⟩ := map_eq_some_iff.mp h
    rw [foldBin, foldMask, foldBin2_i64 hrot hr]
    exact Value.Agrees.refl _ _

theorem foldUn_correct {op : UnOp} (h : evalUn op w (.w64 x) = some v) :
    v.Agrees .i64 (.w64 (foldUn op w x)) := by
  cases w with
  | i32 =>
    cases h
    refine ⟨?_, by simp⟩
    refine Eq.trans ?_ (setWidth_foldMask _).symm
    cases op with
    | not => simp [Value.lo, UnOp.eval, foldUn2, setWidth_not]
    | neg => exact (setWidth_neg_of_le (by omega)).symm
    | ext8s | ext16s | ext32s => simp [Value.lo, UnOp.eval, foldUn2, setWidth_signExtend]
    | ext8u | ext16u | ext32u => simp [Value.lo, UnOp.eval, foldUn2]
  | i64 =>
    obtain rfl : v = .w64 (foldUn2 op x) := by
      cases op <;> exact (Option.some.inj h).symm
    exact Value.Agrees.refl _ _

end Fold

end Qemu.Tcg
