/-
  Dates of the proleptic Gregorian calendar, counted in days from 1970-01-01, and the six digits
  that stand for a date in a story's header.
-/

namespace ZAssembler.Calendar

structure Date where
  year : Int
  month : Nat
  day : Nat
  deriving DecidableEq, Repr

/-- The date of a day counted from 1 March of year 0, in cycles of 400 years of 146097 days; a
    year of the cycle begins in March, so that the leap day is its last day. -/
def dateOfMarchDay (days : Int) : Date :=
  let cycle := days / 146097
  let ofCycle := (days % 146097).toNat
  let yearOfCycle := (ofCycle - ofCycle / 1460 + ofCycle / 36524 - ofCycle / 146096) / 365
  let ofYear := ofCycle - (365 * yearOfCycle + yearOfCycle / 4 - yearOfCycle / 100)
  let marchMonth := (5 * ofYear + 2) / 153
  let month := if marchMonth < 10 then marchMonth + 3 else marchMonth - 9
  { year := yearOfCycle + cycle * 400 + (if month ≤ 2 then 1 else 0)
    month
    day := ofYear - (153 * marchMonth + 2) / 5 + 1 }

/-- The date of a day. 1970-01-01 is day 719468 from 1 March of year 0; the count is a 64-bit
    number and wraps. -/
def dateOfDay (days : Int64) : Date := dateOfMarchDay (days + 719468).toInt

/-- A number below 100 as two digits. -/
def twoDigits (n : Nat) : String :=
  String.ofList [Nat.digitChar (n / 10 % 10), Nat.digitChar (n % 10)]

/-- A date's year within its century, month and day, two digits each. -/
def serialOfDay (days : Int64) : String :=
  let date := dateOfDay days
  twoDigits (date.year % 100).toNat ++ twoDigits date.month ++ twoDigits date.day

end ZAssembler.Calendar
