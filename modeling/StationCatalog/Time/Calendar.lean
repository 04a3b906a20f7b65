/-!
The proleptic Gregorian calendar: dates of any year, and the days they are counted by. Day 0 is
1970-01-01, and year 0 is a leap year.
-/

namespace StationCatalog

/-- A date by year, month from 1 and day from 1. -/
structure Date where
  year : Int
  month : Nat
  day : Nat
deriving DecidableEq

namespace Date

/-- Every fourth year is a leap year, save the centuries that 400 does not divide. -/
def isLeap (year : Int) : Bool :=
  year % 4 == 0 && (year % 100 != 0 || year % 400 == 0)

def monthLengths (leap : Bool) : List Nat :=
  [31, if leap then 29 else 28, 31, 30, 31, 30, 31, 31, 30, 31, 30, 31]

def daysBeforeYear (year : Int) : Int :=
  365 * year + (year - 1) / 4 - (year - 1) / 100 + (year - 1) / 400 + 1

/-- The days from the start of year 0 to 1970-01-01. -/
def daysBeforeOrigin : Int := 719528

/-- The month and the day in it, both from 0, that lie `n` days into months of these lengths. -/
def monthAndDay : List Nat → Nat → Nat × Nat
  | [], n => (0, n)
  | l :: ls, n =>
    if n < l then (0, n)
    else
      let place := monthAndDay ls (n - l)
      (place.1 + 1, place.2)

/-- A date is real when its year has its month and its month has its day. -/
def isReal (d : Date) : Bool :=
  1 ≤ d.month && 1 ≤ d.day &&
    ((monthLengths (isLeap d.year))[d.month - 1]?).any fun length => d.day ≤ length

/-- The day a date names, counted from 1970-01-01. -/
def toDay (d : Date) : Int :=
  let before : Nat := ((monthLengths (isLeap d.year)).take (d.month - 1)).foldl (· + ·) 0
  daysBeforeYear d.year - daysBeforeOrigin + before + (d.day - 1)

/-- The year that holds a day counted from the start of year 0. -/
def yearOf (day : Int) : Int :=
  let guess := 400 * day / 146097
  if day < daysBeforeYear guess then guess - 1
  else if daysBeforeYear (guess + 1) ≤ day then guess + 1
  else guess

def ofDay (day : Int) : Date :=
  let year := yearOf (day + daysBeforeOrigin)
  let place := monthAndDay (monthLengths (isLeap year))
    (day + daysBeforeOrigin - daysBeforeYear year).toNat
  ⟨year, place.1 + 1, place.2 + 1⟩

end Date

end StationCatalog
