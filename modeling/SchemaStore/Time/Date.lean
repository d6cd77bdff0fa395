/-!
Days of the calendar.  The Gregorian rules are applied to all years from 1 to 9999, and a `Date`
carries the proof that its day exists.
-/

namespace SchemaStore

namespace Calendar

def isLeapYear (y : Nat) : Bool := y % 4 == 0 && (y % 100 != 0 || y % 400 == 0)

def daysInMonth (y m : Nat) : Nat :=
  if m = 2 then (if isLeapYear y then 29 else 28)
  else if m = 4 ∨ m = 6 ∨ m = 9 ∨ m = 11 then 30
  else 31

/-- The day exists, in a year that can be written with four digits. -/
def IsDay (y m d : Nat) : Prop :=
  (1 ≤ y ∧ y ≤ 9999) ∧ (1 ≤ m ∧ m ≤ 12) ∧ (1 ≤ d ∧ d ≤ daysInMonth y m)

instance (y m d : Nat) : Decidable (IsDay y m d) := by
  unfold IsDay
  infer_instance

/-- The days in all years before `y`, for a year from 1 on. -/
def daysBeforeYear (y : Nat) : Nat :=
  let p := y - 1
  p * 365 + p / 4 - p / 100 + p / 400

def daysInYear (y : Nat) : Nat := if isLeapYear y then 366 else 365

/-- The days of the year before its month `m`. -/
def daysBeforeMonth (y m : Nat) : Nat :=
  ((List.range (m - 1)).map fun k => daysInMonth y (k + 1)).foldr (· + ·) 0

/-- The number of a day, where the first day of year 1 has number 1. -/
def dayNumber (y m d : Nat) : Nat := daysBeforeYear y + daysBeforeMonth y m + d

/-- The weekday of the first of January, from 0 for Monday to 6 for Sunday. -/
def firstWeekday (y : Nat) : Nat := (dayNumber y 1 1 + 6) % 7

/-- The month and day of the `n`-th day of a year, counted from 1. -/
def monthAndDay (y n : Nat) : Nat × Nat :=
  let m := ((List.range 12).filter fun k => daysBeforeMonth y (k + 1) < n).length
  (m, n - daysBeforeMonth y m)

/-- The weeks of a year number 53 when it starts on a Thursday, or on a Wednesday and is a leap
year; otherwise 52. -/
def weeksInYear (y : Nat) : Nat :=
  if firstWeekday y = 3 ∨ (firstWeekday y = 2 ∧ isLeapYear y = true) then 53 else 52

/-- The year, month and day of a weekday in a numbered week, where week 1 holds the first
Thursday of the year.  The weekday counts from 1 for Monday. -/
def ofWeek? (y week weekday : Nat) : Option (Nat × Nat × Nat) :=
  if 1 ≤ y ∧ 1 ≤ week ∧ week ≤ weeksInYear y ∧ 1 ≤ weekday ∧ weekday ≤ 7 then
    let first := firstWeekday y
    -- The Monday of week 1, as a day of the year that may lie up to three days before it.
    let monday : Int := if 3 < first then 8 - first else 1 - first
    let day : Int := monday + (week - 1) * 7 + (weekday - 1)
    if day < 1 then
      let (m, d) := monthAndDay (y - 1) (daysInYear (y - 1) + day).toNat
      some (y - 1, m, d)
    else if (daysInYear y : Int) < day then
      let (m, d) := monthAndDay (y + 1) (day - daysInYear y).toNat
      some (y + 1, m, d)
    else
      let (m, d) := monthAndDay y day.toNat
      some (y, m, d)
  else none

end Calendar

structure Date where
  year : Nat
  month : Nat
  day : Nat
  isDay : Calendar.IsDay year month day := by decide
deriving DecidableEq

namespace Date

def dayNumber (d : Date) : Nat := Calendar.dayNumber d.year d.month d.day

def lt (a b : Date) : Bool :=
  a.year < b.year
    || (a.year == b.year && (a.month < b.month || (a.month == b.month && a.day < b.day)))

end Date

example : Calendar.ofWeek? 2024 1 1 = some (2024, 1, 1) := by decide
example : Calendar.ofWeek? 2020 53 7 = some (2021, 1, 3) := by decide
example : Calendar.ofWeek? 2021 1 1 = some (2021, 1, 4) := by decide

end SchemaStore
