/-!
Double-precision numbers as their 64 bits. A number is kept bit for bit; comparison is that of the
IEEE-754 standard, so the two zeros are equal and a NaN equals nothing.
-/

namespace StationCatalog

/-- A double-precision number, by its bits. -/
structure Binary64 where
  bits : UInt64
deriving DecidableEq

namespace Binary64

def magnitude (x : Binary64) : UInt64 := x.bits &&& 0x7fffffffffffffff

/-- No number at all: the exponent is all ones and the fraction is not zero. -/
def isNaN (x : Binary64) : Bool := 0x7ff0000000000000 < x.magnitude

/-- Neither infinite nor no number at all: the exponent is not all ones. -/
def isFinite (x : Binary64) : Bool := x.magnitude < 0x7ff0000000000000

/-- Equality of numbers, not of bits. -/
def equals (x y : Binary64) : Bool :=
  !x.isNaN && (x.bits == y.bits || x.magnitude == 0 && y.magnitude == 0)

theorem equals_self {x : Binary64} (finite : x.isFinite = true) : x.equals x = true := by
  have number : x.isNaN = false := by
    have below := of_decide_eq_true finite
    exact decide_eq_false fun above => absurd (UInt64.lt_trans below above) (UInt64.lt_irrefl _)
  rw [equals, number, beq_self_eq_true]
  rfl

def zero : Binary64 := ⟨0⟩

/-- The nearest double to the quotient of the nearest doubles of two counts. -/
def quotient (n d : UInt64) : Binary64 := ⟨(n.toFloat / d.toFloat).toBits⟩

end Binary64

end StationCatalog
