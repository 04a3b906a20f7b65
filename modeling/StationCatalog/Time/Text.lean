import StationCatalog.Text.Digits
import StationCatalog.Time.Calendar
import StationCatalog.Time.Instant

/-!
The written form of an instant: a date, a time of day in UTC and the fewest fraction digits, of 0,
3, 6 and 9, that are exact. Years outside 0 to 9999 carry a sign. Three styles join the same digits.
-/

namespace StationCatalog.Instant

/-- What stands between the date and the time, and what names the zone. -/
structure Style where
  separator : Char
  zone : List Char

/-- The form that instants are exchanged in, and the only one that is read. -/
def Style.zulu : Style := ⟨'T', ['Z']⟩

/-- The form inside written ranges and requests. -/
def Style.offset : Style := ⟨'T', ['+', '0', '0', ':', '0', '0']⟩

/-- The form inside messages. -/
def Style.spaced : Style := ⟨' ', [' ', 'U', 'T', 'C']⟩

def dayNanos : Int := 86400000000000

/-- Four digits and no sign from year 0 to year 9999, else a sign and as many digits as it takes. -/
def yearText (year : Int) : List Char :=
  let n := year.natAbs
  let digits := Digits.fixed 10 (if n < 10000 then 4 else if n < 100000 then 5 else 6) n
  if year < 0 then '-' :: digits else if n < 10000 then digits else '+' :: digits

/-- A point and 3, 6 or 9 digits, or nothing for a whole second. -/
def fractionText (nanos : Nat) : List Char :=
  if nanos = 0 then []
  else if nanos % 1000000 = 0 then '.' :: Digits.fixed 10 3 (nanos / 1000000)
  else if nanos % 1000 = 0 then '.' :: Digits.fixed 10 6 (nanos / 1000)
  else '.' :: Digits.fixed 10 9 nanos

/-- Hours, minutes, seconds and fraction of a nanosecond of the day. -/
def clockText (nanos : Nat) : List Char :=
  let seconds := nanos / 1000000000
  Digits.fixed 10 2 (seconds / 3600) ++ ':' :: Digits.fixed 10 2 (seconds / 60 % 60)
    ++ ':' :: Digits.fixed 10 2 (seconds % 60) ++ fractionText (nanos % 1000000000)

def dateText (d : Date) : List Char :=
  yearText d.year ++ '-' :: Digits.fixed 10 2 d.month ++ '-' :: Digits.fixed 10 2 d.day

def chars (style : Style) (t : Instant) : List Char :=
  dateText (Date.ofDay (t.nanos / dayNanos)) ++ style.separator
    :: clockText (t.nanos % dayNanos).toNat ++ style.zone

def text (style : Style) (t : Instant) : String := String.ofList (t.chars style)

def expect? (c : Char) : List Char → Option (List Char)
  | [] => none
  | d :: cs => if d = c then some cs else none

/-- Reads a signed year: at least four digits, outside 0 to 9999. -/
def readSignedYear? (negative : Bool) (cs : List Char) : Option (Int × List Char) := do
  let digits := cs.takeWhile Digits.isDecimal
  let n ← Digits.read? 10 digits
  guard (4 ≤ digits.length && if negative then 0 < n else 9999 < n)
  return (if negative then -(n : Int) else n, cs.dropWhile Digits.isDecimal)

def readYear? : List Char → Option (Int × List Char)
  | '-' :: cs => readSignedYear? true cs
  | '+' :: cs => readSignedYear? false cs
  | cs => (Digits.readFixed? 4 cs).map fun (n, rest) => ((n : Int), rest)

/-- Reads an optional fraction of one to nine digits as nanoseconds. -/
def readFraction? : List Char → Option (Nat × List Char)
  | '.' :: cs => do
    let digits := cs.takeWhile Digits.isDecimal
    guard (1 ≤ digits.length && digits.length ≤ 9)
    let n ← Digits.read? 10 digits
    return (n * Nat.pow 10 (9 - digits.length), cs.dropWhile Digits.isDecimal)
  | cs => some (0, cs)

def readDate? (cs : List Char) : Option (Date × List Char) := do
  let (year, cs) ← readYear? cs
  let (month, cs) ← Digits.readFixed? 2 (← expect? '-' cs)
  let (day, cs) ← Digits.readFixed? 2 (← expect? '-' cs)
  guard (Date.isReal ⟨year, month, day⟩)
  return (⟨year, month, day⟩, cs)

/-- Reads a time of day as nanoseconds; the last second of a minute is 59. -/
def readClock? (cs : List Char) : Option (Nat × List Char) := do
  let (hour, cs) ← Digits.readFixed? 2 cs
  let (minute, cs) ← Digits.readFixed? 2 (← expect? ':' cs)
  let (second, cs) ← Digits.readFixed? 2 (← expect? ':' cs)
  let (fraction, cs) ← readFraction? cs
  guard (hour < 24 && minute < 60 && second < 60)
  return (((hour * 60 + minute) * 60 + second) * 1000000000 + fraction, cs)

def ofChars? (cs : List Char) : Option Instant := do
  let (date, cs) ← readDate? cs
  let (clock, cs) ← readClock? (← expect? 'T' cs)
  guard (cs == Style.zulu.zone)
  ofNanos? (date.toDay * dayNanos + clock)

/-- Reads an instant in the `zulu` style. -/
def ofText? (s : String) : Option Instant := ofChars? s.toList

end StationCatalog.Instant
