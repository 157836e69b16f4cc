import Mathlib.Algebra.BigOperators.Intervals
import Mathlib.Tactic.IntervalCases

/-!
# The Gregorian calendar

The calendar is followed back to the year 0. Days are numbered from its first day on.
-/

namespace gregorian

/-- Whether a year has a leap day. -/
def leap (year : Nat) : Bool := year % 4 = 0 && (year % 100 ≠ 0 || year % 400 = 0)

/-- The number of days of a month. -/
def month_length (leap : Bool) : (month : Nat) → Nat
  | 1 | 3 | 5 | 7 | 8 | 10 | 12 => 31
  | 4 | 6 | 9 | 11 => 30
  | 2 => if leap then 29 else 28
  | _ => 0

def year_length (year : Nat) : Nat := if leap year then 366 else 365

/-- A day of the calendar. -/
@[ext] structure Date where
  year : Nat
  month : Nat
  day : Nat
  month_range : 1 ≤ month ∧ month ≤ 12
  day_range : 1 ≤ day ∧ day ≤ month_length (leap year) month

/-- The order of the days. -/
instance : LT Date where
  lt d d' := d.year < d'.year ∨
    d.year = d'.year ∧ (d.month < d'.month ∨ d.month = d'.month ∧ d.day < d'.day)

/-- The days before the year. -/
def days_before_year (year : Nat) : Nat := ∑ y ∈ Finset.range year, year_length y

/-- The days of a year before the month. -/
def days_before_month (leap : Bool) (month : Nat) : Nat := ∑ m ∈ Finset.Ico 1 month, month_length leap m

/-- The number of a day. -/
def Date.number (d : Date) : Nat :=
  days_before_year d.year + days_before_month (leap d.year) d.month + (d.day - 1)

/-- A day and a time on it. -/
structure DateTime extends Date where
  hour : Nat
  minute : Nat
  second : Nat
  hour_lt : hour < 24
  minute_lt : minute < 60
  second_lt : second < 60

/-- The seconds from the start of another day on. -/
def DateTime.seconds_since (c : DateTime) (epoch : Date) : Int :=
  (c.number - epoch.number : Int) * 86400 + c.hour * 3600 + c.minute * 60 + c.second

theorem days_before_year_succ (year : Nat) :
    days_before_year (year + 1) = days_before_year year + year_length year :=
  Finset.sum_range_succ _ _

theorem days_before_month_succ (leap : Bool) {month : Nat} (hmonth : 1 ≤ month) :
    days_before_month leap (month + 1) = days_before_month leap month + month_length leap month :=
  Finset.sum_Ico_succ_top hmonth _

@[simp] theorem days_before_month_one (leap : Bool) : days_before_month leap 1 = 0 := rfl

/-- The number of a New Year's Day. -/
theorem Date.number_new_year {d : Date} (hmonth : d.month = 1) (hday : d.day = 1) :
    d.number = days_before_year d.year := by
  rw [number, hmonth, hday, days_before_month_one, Nat.sub_self, Nat.add_zero]

/-- A leap day puts the months after it off. -/
theorem days_before_month_leap {month : Nat} (hmonth : 1 ≤ month ∧ month ≤ 12) (leap : Bool) :
    days_before_month leap month = days_before_month false month + if leap && 2 < month then 1 else 0 := by
  obtain ⟨hlow, hhigh⟩ := hmonth
  interval_cases month <;> cases leap <;> rfl

theorem month_length_bounds {month : Nat} (hmonth : 1 ≤ month ∧ month ≤ 12) (leap : Bool) :
    28 ≤ month_length leap month ∧ month_length leap month ≤ 31 := by
  obtain ⟨hlow, hhigh⟩ := hmonth
  interval_cases month <;> cases leap <;> decide

theorem days_before_month_le {month : Nat} (hmonth : 1 ≤ month ∧ month ≤ 12) (leap : Bool) :
    days_before_month leap month ≤ 335 := by
  obtain ⟨hlow, hhigh⟩ := hmonth
  interval_cases month <;> cases leap <;> decide

/-- From 1901 to 2099 every fourth year is a leap year. -/
theorem days_before_year_add {year : Nat} (hlow : 1901 ≤ year) (n : Nat) (hhigh : year + n ≤ 2100) :
    days_before_year (year + n) = days_before_year year + 365 * n + ((year + n - 1) / 4 - (year - 1) / 4) := by
  induction n with
  | zero => simp
  | succ n ih =>
    have hyear : year_length (year + n) = 365 + ((year + n) / 4 - (year + n - 1) / 4) := by
      simp only [year_length, leap, Bool.and_eq_true, Bool.or_eq_true, decide_eq_true_eq]
      split_ifs <;> omega
    rw [← Nat.add_assoc, days_before_year_succ, ih (by omega), hyear]
    omega

end gregorian
