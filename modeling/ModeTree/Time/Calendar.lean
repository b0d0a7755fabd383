/-!
# Calendar

Dates of the Gregorian calendar, extended to all years, and the number of the day that a date names.
Inside the count a year begins in March, so that a leap day is the last day of its year, and 400 years
make a cycle of 146097 days.
-/

namespace ModeTree

/-- A year, a month from 1 on, and a day of the month from 1 on. -/
structure Date where
  year : Int
  month : Nat
  day : Nat
  deriving DecidableEq, Repr

namespace Date

/-- Whether a year has a leap day. -/
def isLeapYear (year : Int) : Bool := year % 4 == 0 && (year % 100 != 0 || year % 400 == 0)

/-- The number of days of a month. -/
def daysInMonth (year : Int) (month : Nat) : Nat :=
  if month = 2 then (if isLeapYear year then 29 else 28)
  else if month = 4 ∨ month = 6 ∨ month = 9 ∨ month = 11 then 30
  else 31

/-- The month and the day exist. -/
def IsValid (d : Date) : Prop :=
  1 ≤ d.month ∧ d.month ≤ 12 ∧ 1 ≤ d.day ∧ d.day ≤ daysInMonth d.year d.month

instance (d : Date) : Decidable d.IsValid := inferInstanceAs (Decidable (_ ∧ _))

/-- The number of days in 400 years. -/
def cycleDays : Nat := 146097

/-- Number of the first day of March of the year 0, counted back from the first day of 1970. -/
def epochOffset : Int := 719468

/-- Days of a year, from March on, before the month with the index `m`. -/
def daysBeforeMonth (m : Nat) : Nat := (153 * m + 2) / 5

/-- Days of a cycle before its year with the index `y`. -/
def daysBeforeYear (y : Nat) : Nat := 365 * y + y / 4 - y / 100

/-- Number of the day, where the first day of 1970 is 0. -/
def dayNumber (d : Date) : Int :=
  -- January and February belong to the year that began in the March before
  let year := if d.month ≤ 2 then d.year - 1 else d.year
  let yearOfCycle := (year % 400).toNat
  let monthOfYear := (d.month + 9) % 12
  year / 400 * cycleDays + daysBeforeYear yearOfCycle + daysBeforeMonth monthOfYear + d.day - 1 -
    epochOffset

/-- Year of a cycle that holds the day with the index `n`, and the index of the day in that year. The
last century of a cycle and the last year of four take the leap day at their end. -/
def yearOfDay (n : Nat) : Nat × Nat :=
  let century := min 3 (n / 36524)
  let n := n - 36524 * century
  let four := n / 1461
  let n := n - 1461 * four
  let one := min 3 (n / 365)
  (100 * century + 4 * four + one, n - 365 * one)

/-- The date of the day with a given number. -/
def ofDayNumber (n : Int) : Date :=
  let n := n + epochOffset
  let (yearOfCycle, dayOfYear) := yearOfDay (n % cycleDays).toNat
  let monthOfYear := (5 * dayOfYear + 2) / 153
  let month := if monthOfYear < 10 then monthOfYear + 3 else monthOfYear - 9
  let year := n / cycleDays * 400 + yearOfCycle
  ⟨if month ≤ 2 then year + 1 else year, month, dayOfYear - daysBeforeMonth monthOfYear + 1⟩

example : (Date.mk 1970 1 1).dayNumber = 0 := by decide

example : (Date.mk 2000 2 29).dayNumber = 11016 := by decide

example : ofDayNumber 11016 = ⟨2000, 2, 29⟩ := by decide

example : ofDayNumber (-719529) = ⟨-1, 12, 31⟩ := by decide

end Date

end ModeTree
