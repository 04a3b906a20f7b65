import StationCatalog.Text.Digits

/-!
Lengths of time from zero to just under `2 ^ 64` seconds, to the nanosecond.
-/

namespace StationCatalog

structure Span where
  nanos : Nat
  bounded : nanos < 18446744073709551616000000000
deriving DecidableEq

namespace Span

instance : LE Span := ⟨fun a b => a.nanos ≤ b.nanos⟩
instance : LT Span := ⟨fun a b => a.nanos < b.nanos⟩
instance (a b : Span) : Decidable (a ≤ b) := inferInstanceAs (Decidable (a.nanos ≤ b.nanos))
instance (a b : Span) : Decidable (a < b) := inferInstanceAs (Decidable (a.nanos < b.nanos))

theorem lt_def {a b : Span} : a < b ↔ a.nanos < b.nanos := Iff.rfl

def zero : Span := ⟨0, by decide⟩

/-- The span of whole seconds and nanoseconds of a second, if both are in bounds. -/
def ofParts? (seconds nanos : Nat) : Option Span :=
  if h : seconds < 18446744073709551616 ∧ nanos < 1000000000 then
    some ⟨seconds * 1000000000 + nanos, by omega⟩
  else none

/-- The span as a step along the time line; steps go up to `2 ^ 63 - 1` milliseconds. -/
def step? (a : Span) : Option Nat :=
  if a.nanos ≤ 9223372036854775807 * 1000000 then some a.nanos else none

def seconds (a : Span) : Nat := a.nanos / 1000000000

def subseconds (a : Span) : Nat := a.nanos % 1000000000

/-- A count with `places` decimal places, trailing zeros and a bare point left out. -/
def decimalText (places whole fraction : Nat) : String :=
  let digits := ((Digits.fixed 10 places fraction).reverse.dropWhile (· == '0')).reverse
  toString whole ++ if digits.isEmpty then "" else "." ++ String.ofList digits

/-- A span in the largest of seconds, milliseconds, microseconds and nanoseconds that it fills. -/
def text (a : Span) : String :=
  let n := a.nanos
  if 1000000000 ≤ n then decimalText 9 (n / 1000000000) (n % 1000000000) ++ "s"
  else if 1000000 ≤ n then decimalText 6 (n / 1000000) (n % 1000000) ++ "ms"
  else if 1000 ≤ n then decimalText 3 (n / 1000) (n % 1000) ++ "µs"
  else decimalText 0 n 0 ++ "ns"

end Span

end StationCatalog
