/-!
# Data — days, clocks and moments

A day of the calendar, a time of day to the microsecond, and a moment: a day with or without a
time, and that with or without a distance from universal time.
-/

namespace Abacus.Data

/-- A day. -/
structure Day where
  year : Nat
  month : Nat
  day : Nat
  deriving Repr, DecidableEq

/-- A time of day. -/
structure Clock where
  hour : Nat
  minute : Nat
  second : Nat
  micro : Nat := 0
  deriving Repr, DecidableEq

namespace Day

def isLeap (year : Nat) : Bool := year % 4 == 0 && (year % 100 != 0 || year % 400 == 0)

/-- The number of days of a month. -/
def monthLength (year month : Nat) : Nat :=
  if month == 2 then (if isLeap year then 29 else 28)
  else if month == 4 || month == 6 || month == 9 || month == 11 then 30
  else 31

/-- Whether there is such a day; the first year is year one. -/
def isValid (d : Day) : Bool :=
  decide (0 < d.year) && decide (0 < d.month) && decide (d.month ≤ 12) && decide (0 < d.day) &&
    decide (d.day ≤ monthLength d.year d.month)

end Day

/-- A day, a time of day, or both; with both, perhaps the minutes by which local time is ahead of
universal time. -/
inductive Moment where
  | day (d : Day)
  | clock (c : Clock)
  | both (d : Day) (c : Clock) (ahead : Option Int)
  deriving Repr, DecidableEq

end Abacus.Data
