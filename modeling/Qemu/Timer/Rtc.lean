import Mathlib
import Qemu.Cutils.Wide

/-!
# The real time clock

The periodic interrupt of `hw/mc146818rtc.c`.  Its timer is set to whole cycles of the 32 kHz clock,
which are converted to nanoseconds and back with `muldiv64`.  The target has no interrupt
reinjection.

The conversion rounds in both directions.  A guest that counts interrupts to tell the time would
drift if the errors added up, so what matters is that no tick is lost and none comes twice.

**Main results:**
- `periodic_ticks`: the timer goes off at consecutive multiples of the period
-/

namespace Qemu.Rtc

open Cutils

/-- `RTCState`, as far as the periodic timer goes. -/
structure RTCState where
  regA : BitVec 8
  regB : BitVec 8
  regC : BitVec 8
  /-- Whether `sqw_irq` is set. -/
  sqwIrq : Bool
  nextPeriodicTime : ℕ
  /-- When `periodic_timer` goes off. -/
  periodicTimer : Option ℕ

def regBPie : BitVec 8 := 0x40
def regBSqwe : BitVec 8 := 0x08
def regCPf : BitVec 8 := 0x40
def regCIrqf : BitVec 8 := 0x80

/-- `get_ticks_per_sec`. -/
def ticksPerSec : ℕ := 1000000000

/-- The condition under which the periodic timer runs. -/
def RTCState.Periodic (s : RTCState) : Prop :=
  s.regA &&& 0x0f ≠ 0 ∧ (s.regB &&& regBPie ≠ 0 ∨ s.regB &&& regBSqwe ≠ 0 ∧ s.sqwIrq = true)

instance (s : RTCState) : Decidable s.Periodic := inferInstanceAs (Decidable (_ ∧ _))

/-- The period in cycles of 32 kHz. -/
def RTCState.period (s : RTCState) : ℕ :=
  let periodCode := (s.regA &&& 0x0f).toNat
  let periodCode := if periodCode ≤ 2 then periodCode + 7 else periodCode
  1 <<< (periodCode - 1)

/-- `rtc_timer_update`. -/
def rtcTimerUpdate (s : RTCState) (currentTime : ℕ) : RTCState :=
  if s.Periodic then
    let curClock := muldiv64 currentTime 32768 ticksPerSec
    -- the low bits of the clock are cleared
    let nextIrqClock := curClock / s.period * s.period + s.period
    let nextPeriodicTime := muldiv64 nextIrqClock ticksPerSec 32768 + 1
    { s with nextPeriodicTime, periodicTimer := some nextPeriodicTime }
  else { s with periodicTimer := none }

/-- `rtc_periodic_timer`, without the lines that it raises. -/
def rtcPeriodicTimer (s : RTCState) : RTCState :=
  let s := rtcTimerUpdate s s.nextPeriodicTime
  let s := { s with regC := s.regC ||| regCPf }
  if s.regB &&& regBPie ≠ 0 then { s with regC := s.regC ||| regCIrqf } else s

/-- The time of the interrupt in the cycle `clock`. -/
def tickTime (clock : ℕ) : ℕ := clock * ticksPerSec / 32768 + 1

lemma clock_tickTime {clock : ℕ} (h : tickTime clock < 2 ^ 62) :
    muldiv64 (tickTime clock) 32768 ticksPerSec = clock := by
  rw [tickTime, ticksPerSec] at *
  rw [muldiv64_eq (by norm_num) (by omega)]
  omega

variable {s : RTCState}

lemma period_pos : 0 < s.period := by
  rw [RTCState.period, Nat.one_shiftLeft]
  positivity

lemma rtcTimerUpdate_next (h : s.Periodic) {t k : ℕ}
    (hk : muldiv64 t 32768 ticksPerSec / s.period = k)
    (hlt : tickTime ((k + 1) * s.period) < 2 ^ 62) :
    (rtcTimerUpdate s t).nextPeriodicTime = tickTime ((k + 1) * s.period) := by
  rw [rtcTimerUpdate, if_pos h]
  simp only [hk, ← add_one_mul]
  rw [tickTime, ticksPerSec] at *
  rw [muldiv64_eq (by norm_num) (by omega)]

/-- The timer keeps its period and goes on. -/
lemma rtcTimerUpdate_regs (h : s.Periodic) (t : ℕ) :
    (rtcTimerUpdate s t).Periodic ∧ (rtcTimerUpdate s t).period = s.period := by
  rw [rtcTimerUpdate, if_pos h]
  exact ⟨h, rfl⟩

lemma rtcPeriodicTimer_eq : ∃ regC,
    rtcPeriodicTimer s = { rtcTimerUpdate s s.nextPeriodicTime with regC } := by
  rw [rtcPeriodicTimer]
  split
  · exact ⟨_, rfl⟩
  · exact ⟨_, rfl⟩

/-- The interrupt in the cycle `k * period` is due next, if its time is below `2 ^ 62`. -/
structure DueAt (period k : ℕ) (s : RTCState) : Prop where
  periodic : s.Periodic
  period_eq : s.period = period
  next : tickTime (k * period) < 2 ^ 62 → s.nextPeriodicTime = tickTime (k * period)

lemma tickTime_mono : Monotone tickTime := fun _ _ h =>
  Nat.succ_le_succ (Nat.div_le_div_right (Nat.mul_le_mul_right _ h))

lemma DueAt.step {period k : ℕ} (h : DueAt period k s) :
    DueAt period (k + 1) (rtcPeriodicTimer s) := by
  obtain ⟨hper, rfl, hnext⟩ := h
  obtain ⟨regC, heq⟩ := rtcPeriodicTimer_eq (s := s)
  have hregs := rtcTimerUpdate_regs hper s.nextPeriodicTime
  rw [heq]
  refine ⟨hregs.1, hregs.2, fun hlt => ?_⟩
  have hlt' := (tickTime_mono (Nat.mul_le_mul_right s.period k.le_succ)).trans_lt hlt
  refine rtcTimerUpdate_next hper ?_ hlt
  rw [hnext hlt', clock_tickTime hlt', Nat.mul_div_cancel _ period_pos]

/-- The timer is set to one multiple of the period after the other, as long as the times stay below
`2 ^ 62`. -/
def PeriodicTicks (s : RTCState) (start : ℕ) : Prop :=
  ∃ k, k * s.period ≤ start * 32768 / ticksPerSec ∧
    start * 32768 / ticksPerSec < (k + 1) * s.period ∧
    ∀ n, tickTime ((k + 1 + n) * s.period) < 2 ^ 62 →
      (rtcPeriodicTimer^[n] (rtcTimerUpdate s start)).nextPeriodicTime =
      tickTime ((k + 1 + n) * s.period)

/-- **No tick is skipped or repeated**, and no drift accumulates. -/
theorem periodic_ticks (h : s.Periodic) {start : ℕ} (hstart : start < 2 ^ 62) :
    PeriodicTicks s start := by
  have hclock : muldiv64 start 32768 ticksPerSec = start * 32768 / ticksPerSec :=
    muldiv64_eq (by decide) (by rw [ticksPerSec]; omega)
  refine ⟨_, Nat.div_mul_le_self _ s.period, ?_, fun n => ?_⟩
  · exact (Nat.lt_mul_div_succ _ period_pos).trans_eq (mul_comm ..)
  refine DueAt.next (s := rtcPeriodicTimer^[n] _) ?_
  induction n with
  | zero =>
    obtain ⟨hper, hperiod⟩ := rtcTimerUpdate_regs h start
    exact ⟨hper, hperiod, rtcTimerUpdate_next h (by rw [hclock])⟩
  | succ n ih =>
    rw [Function.iterate_succ_apply']
    exact ih.step

/-- The rate of 1024 Hz, from the 7th second on. -/
theorem periodic_ticks_1024Hz : PeriodicTicks ⟨0x26, 0x40, 0, false, 0, none⟩ 7000000000 :=
  periodic_ticks (by decide) (by norm_num)

end Qemu.Rtc
