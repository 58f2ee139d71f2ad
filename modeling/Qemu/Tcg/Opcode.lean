import Qemu.Tcg.CopyTable

/-!
# The table of ops

The ops of `tcg/tcg-opc.h` that are not handled in cases of their own, with what the table says
about them: whether an op ends a basic block, whether it may call a helper, and whether it may be
removed if its outputs are not used.

**Main definition:** `Opcode.flags`.
-/

namespace Qemu.Tcg

/-- `TCGOpcode`, but for `call`, `set_label`, `debug_insn_start`, `nopn`, `discard` and `end`. -/
inductive Opcode where
  | nop | nop1 | nop2 | nop3
  | jmp | br
  | mov (w : TcgType)
  | movi (w : TcgType)
  | setcond (w : TcgType)
  | ld8u (w : TcgType)
  | ld8s (w : TcgType)
  | ld16u (w : TcgType)
  | ld16s (w : TcgType)
  | ld32u | ld32s
  | ld (w : TcgType)
  | st8 (w : TcgType)
  | st16 (w : TcgType)
  | st32
  | st (w : TcgType)
  | add (w : TcgType)
  | sub (w : TcgType)
  | mul (w : TcgType)
  | div (w : TcgType)
  | divu (w : TcgType)
  | rem (w : TcgType)
  | remu (w : TcgType)
  | div2 (w : TcgType)
  | divu2 (w : TcgType)
  | and (w : TcgType)
  | or (w : TcgType)
  | xor (w : TcgType)
  | shl (w : TcgType)
  | shr (w : TcgType)
  | sar (w : TcgType)
  | rotl (w : TcgType)
  | rotr (w : TcgType)
  | deposit (w : TcgType)
  | brcond (w : TcgType)
  | add2 | sub2 | brcond2 | mulu2 | setcond2
  | ext8s (w : TcgType)
  | ext16s (w : TcgType)
  | ext32s
  | ext8u (w : TcgType)
  | ext16u (w : TcgType)
  | ext32u
  | bswap16 (w : TcgType)
  | bswap32 (w : TcgType)
  | bswap64
  | not (w : TcgType)
  | neg (w : TcgType)
  | andc (w : TcgType)
  | orc (w : TcgType)
  | eqv (w : TcgType)
  | nand (w : TcgType)
  | nor (w : TcgType)
  | exitTb | gotoTb
  | qemuLd8u | qemuLd8s | qemuLd16u | qemuLd16s | qemuLd32 | qemuLd32u | qemuLd32s | qemuLd64
  | qemuSt8 | qemuSt16 | qemuSt32 | qemuSt64
  deriving DecidableEq, Repr

/-- `TCG_OPF_BB_END`, `TCG_OPF_CALL_CLOBBER` and `TCG_OPF_SIDE_EFFECTS`. -/
structure OpFlags where
  bbEnd : Bool
  callClobber : Bool
  sideEffects : Bool
  deriving DecidableEq, Repr

namespace Opcode

/-- The flags of an op in `tcg_op_defs`. -/
def flags : Opcode → OpFlags
  | jmp | br | brcond _ | brcond2 | exitTb | gotoTb => ⟨true, false, true⟩
  | st8 _ | st16 _ | st32 | st _ => ⟨false, false, true⟩
  | qemuLd8u | qemuLd8s | qemuLd16u | qemuLd16s | qemuLd32 | qemuLd32u | qemuLd32s | qemuLd64 =>
    ⟨false, true, true⟩
  | qemuSt8 | qemuSt16 | qemuSt32 | qemuSt64 => ⟨false, true, true⟩
  | _ => ⟨false, false, false⟩

lemma flags_of_sideEffects {opc : Opcode} (h : opc.flags.sideEffects = false) :
    opc.flags.bbEnd = false ∧ opc.flags.callClobber = false := by
  cases opc
  all_goals first | exact ⟨rfl, rfl⟩ | cases h

end Opcode

end Qemu.Tcg
