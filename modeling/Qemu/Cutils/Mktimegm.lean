import Mathlib

/-!
# Seconds since the epoch

`mktimegm` of `cutils.c`.  All of its terms are of type `int`, and so is the product with the 86400
seconds of a day: only the sum with the time of the day has the 64 bits of a `time_t`.

Clocks of the guest are set by what it returns, and a product that wraps is off by 136 years.

**Main results:**
- `daysSinceEpoch_eq`: the formula counts the days of the calendar
- `mktimegm_eq_iff`: the result is right up to the 19th of January 2038, and wrong after it
-/

namespace Qemu.Cutils

/-- `struct tm`, as far as `mktimegm` reads it. -/
structure Tm where
  tmSec : ℤ
  tmMin : ℤ
  tmHour : ℤ
  tmMday : ℤ
  tmMon : ℤ
  tmYear : ℤ

/-- An `int` after operations that may overflow. -/
def int32 (z : ℤ) : ℤ := z.bmod (2 ^ 32)

/-- `mktimegm`. -/
def mktimegm (tm : Tm) : ℤ :=
  let y := int32 (tm.tmYear + 1900)
  let m := int32 (tm.tmMon + 1)
  let (m, y) := if m < 3 then (int32 (m + 12), int32 (y - 1)) else (m, y)
  let days := int32 (tm.tmMday + (int32 (153 * m - 457)).tdiv 5 + 365 * y + y.tdiv 4 - y.tdiv 100 +
    y.tdiv 400 - 719469)
  int32 (86400 * days) + int32 (3600 * tm.tmHour + 60 * tm.tmMin + tm.tmSec)

/-! ## The calendar -/

def IsLeap (year : ℕ) : Prop := year % 4 = 0 ∧ year % 100 ≠ 0 ∨ year % 400 = 0

instance (year : ℕ) : Decidable (IsLeap year) := inferInstanceAs (Decidable (_ ∨ _))

def monthDays (year month : ℕ) : ℕ :=
  if month = 2 then if IsLeap year then 29 else 28
  else if month = 4 ∨ month = 6 ∨ month = 9 ∨ month = 11 then 30 else 31

/-- A date and a time of the day, with a second 60 for leap seconds. -/
structure DateTime where
  year : ℕ
  month : ℕ
  day : ℕ
  hour : ℕ
  minute : ℕ
  second : ℕ
  year_mem : 1970 ≤ year ∧ year ≤ 9999
  month_mem : 1 ≤ month ∧ month ≤ 12
  day_mem : 1 ≤ day ∧ day ≤ monthDays year month
  hour_lt : hour < 24
  minute_lt : minute < 60
  second_le : second ≤ 60

namespace DateTime

variable (t : DateTime)

/-- Years are counted from 1900 and months from 0. -/
def tm : Tm := ⟨t.second, t.minute, t.hour, t.day, t.month - 1, t.year - 1900⟩

/-- The days since the 1st of January 1970: whole years, whole months, and the rest. -/
def daysSinceEpoch : ℕ := ∑ y ∈ Finset.Ico 1970 t.year, (if IsLeap y then 366 else 365) +
  ∑ m ∈ Finset.Ico 1 t.month, monthDays t.year m + (t.day - 1)

def secondsSinceEpoch : ℕ := 86400 * t.daysSinceEpoch + 3600 * t.hour + 60 * t.minute + t.second

/-- The date is not after the 19th of January 2038. -/
def InRange : Prop := t.year < 2038 ∨ t.year = 2038 ∧ t.month = 1 ∧ t.day ≤ 19

lemma day_le : t.day ≤ 31 := by
  refine t.day_mem.2.trans ?_
  rw [monthDays]
  split_ifs <;> omega

end DateTime

lemma sum_years {year : ℕ} (h : 1970 ≤ year) :
    ∑ y ∈ Finset.Ico 1970 year, (if IsLeap y then 366 else 365) + 719527 =
      365 * year + (year - 1) / 4 - (year - 1) / 100 + (year - 1) / 400 := by
  induction year, h using Nat.le_induction with
  | base => rfl
  | succ year h ih =>
    rw [Finset.sum_Ico_succ_top h]
    split_ifs with hleap <;> rw [IsLeap] at hleap <;> omega

lemma sum_months {month : ℕ} (h : 1 ≤ month ∧ month ≤ 12) (year : ℕ) :
    ∑ m ∈ Finset.Ico 1 month, monthDays year m = if month < 3 then 31 * (month - 1)
      else (153 * month - 457) / 5 + if IsLeap year then 60 else 59 := by
  obtain ⟨h1, h12⟩ := h
  by_cases hleap : IsLeap year <;> simp only [monthDays, hleap, if_true, if_false] <;>
    interval_cases month <;> rfl

variable (t : DateTime)

/-- The formula counts the days of the calendar. -/
theorem daysSinceEpoch_eq {y m : ℕ} (hy : y = if t.month < 3 then t.year - 1 else t.year)
    (hm : m = if t.month < 3 then t.month + 12 else t.month) : t.daysSinceEpoch + 719469 + y / 100 =
      t.day + (153 * m - 457) / 5 + 365 * y + y / 4 + y / 400 := by
  have hyears := sum_years t.year_mem.1
  have hday := t.day_mem.1
  have hmonth := t.month_mem
  rw [DateTime.daysSinceEpoch, sum_months hmonth]
  split_ifs at * with h hleap <;> try rw [IsLeap] at hleap
  all_goals omega

lemma daysSinceEpoch_le_iff : t.daysSinceEpoch ≤ 24855 ↔ t.InRange := by
  have hdays := daysSinceEpoch_eq t rfl rfl
  have hmonth := t.month_mem
  have hday := t.day_mem.1
  have hle := t.day_le
  rw [DateTime.InRange]
  rcases lt_trichotomy t.year 2038 with h | h | h
  · split_ifs at hdays <;> omega
  · rw [h] at hdays
    split_ifs at hdays <;> omega
  · split_ifs at hdays <;> omega

lemma int32_eq {z : ℤ} (h : -2147483648 ≤ z) (h' : z < 2147483648) :
    int32 z = z := Int.bmod_eq_of_le h h'

/-- No term overflows but the product with the seconds of a day. -/
lemma mktimegm_eq :
    mktimegm t.tm = int32 (86400 * t.daysSinceEpoch) +
      (3600 * t.hour + 60 * t.minute + t.second) := by
  have hdays := daysSinceEpoch_eq t rfl rfl
  have hyear := t.year_mem
  have hmonth := t.month_mem
  have hday := t.day_mem.1
  have hle := t.day_le
  have hhour := t.hour_lt
  have hminute := t.minute_lt
  have hsecond := t.second_le
  rw [mktimegm, DateTime.tm]
  simp (disch := omega) only [int32_eq (z := _ + 1900), int32_eq (z := _ + 1)]
  split_ifs at hdays ⊢ with h h' h'
  · simp (disch := omega) only [int32_eq (z := _ - _), int32_eq (z := _ + _),
      Int.tdiv_eq_ediv_of_nonneg]
    congr 2
    omega
  · omega
  · omega
  · simp (disch := omega) only [int32_eq (z := _ - _), int32_eq (z := _ + _),
      Int.tdiv_eq_ediv_of_nonneg]
    congr 2
    omega

/-- **`mktimegm` is right up to the 19th of January 2038**, and for no date after it: the number of
seconds does not fit in an `int`. -/
theorem mktimegm_eq_iff : mktimegm t.tm = t.secondsSinceEpoch ↔ t.InRange := by
  have hlt : int32 (86400 * t.daysSinceEpoch) < 2147483648 := Int.bmod_lt (by norm_num)
  rw [mktimegm_eq, ← daysSinceEpoch_le_iff, DateTime.secondsSinceEpoch]
  constructor
  · intro h
    omega
  · intro h
    rw [int32_eq (by omega) (by omega)]
    omega

/-- The 20th of January 2038 is taken for a day of 1901. -/
theorem mktimegm_wraps : ¬ ∀ t : DateTime, mktimegm t.tm = t.secondsSinceEpoch := by
  intro h
  have hwrong := h ⟨2038, 1, 20, 0, 0, 0, by decide, by decide, by decide, by decide, by
    decide, by decide⟩
  revert hwrong
  decide

end Qemu.Cutils
