/-!
# The calendar

Days of the proleptic Gregorian calendar, counted from the first of January 1970.  Years are counted
from March, so that the leap day ends its year, and in eras of 400 years, which all have the same
number of days.
-/

namespace Interchange

/-- A day of the calendar. -/
structure Date where
  year : Int
  month : Nat
  day : Nat
deriving DecidableEq, Repr

namespace Date

/-- Every fourth year, without the centuries that 400 does not divide. -/
def isLeap (year : Int) : Bool := year % 4 = 0 && (year % 100 ≠ 0 || year % 400 = 0)

def daysInMonth (year : Int) : Nat → Nat
  | 2 => if isLeap year then 29 else 28
  | 4 | 6 | 9 | 11 => 30
  | _ => 31

/-- Whether the calendar has the day. -/
def Valid (d : Date) : Prop :=
  1 ≤ d.month ∧ d.month ≤ 12 ∧ 1 ≤ d.day ∧ d.day ≤ daysInMonth d.year d.month

instance (d : Date) : Decidable d.Valid := by unfold Valid; infer_instance

/-- Days of an era of 400 years. -/
def eraDays : Int := 146097

/-- Days from the first of March of year zero to the first of January 1970. -/
def epochDays : Int := 719468

/-- Days since the first of January 1970. -/
def toDays (d : Date) : Int :=
  let year := if d.month ≤ 2 then d.year - 1 else d.year
  let era := year / 400
  let yearOfEra := year % 400
  let month : Int := (d.month + 9) % 12
  let dayOfYear := (153 * month + 2) / 5 + d.day - 1
  era * eraDays + (yearOfEra * 365 + yearOfEra / 4 - yearOfEra / 100 + dayOfYear) - epochDays

/-- The day so many days after the first of January 1970. -/
def ofDays (days : Int) : Date :=
  let days := days + epochDays
  let era := days / eraDays
  let dayOfEra := days % eraDays
  let yearOfEra := (dayOfEra - dayOfEra / 1460 + dayOfEra / 36524 - dayOfEra / 146096) / 365
  let dayOfYear := dayOfEra - (365 * yearOfEra + yearOfEra / 4 - yearOfEra / 100)
  let month := (5 * dayOfYear + 2) / 153
  let day := (dayOfYear - (153 * month + 2) / 5 + 1).toNat
  let year := yearOfEra + era * 400
  if month < 10 then ⟨year, (month + 3).toNat, day⟩ else ⟨year + 1, (month - 9).toNat, day⟩

/-- Counting starts at the first of January 1970. -/
theorem ofDays_zero : ofDays 0 = ⟨1970, 1, 1⟩ := by decide

end Date

end Interchange
