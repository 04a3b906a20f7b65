import StationCatalog.Range.Cut
import StationCatalog.Time.Text

/-!
Ranges of instants between two cuts. Closed, open, half-open and unbounded ranges are one type, and
a range whose cuts coincide is empty wherever it lies.
-/

namespace StationCatalog

/-- The instants between two cuts. -/
structure TimeRange where
  lower : Cut
  upper : Cut
  ordered : lower ≤ upper
deriving DecidableEq

namespace TimeRange

/-- The range between two cuts; cuts in the wrong order leave the empty range at the lower one. -/
def between (lower upper : Cut) : TimeRange :=
  if h : lower ≤ upper then ⟨lower, upper, h⟩ else ⟨lower, lower, Int.le_refl _⟩

def closed (s t : Instant) : TimeRange := between (.below s) (.above t)

def closedOpen (s t : Instant) : TimeRange := between (.below s) (.below t)

def openClosed (s t : Instant) : TimeRange := between (.above s) (.above t)

def opened (s t : Instant) : TimeRange := between (.above s) (.below t)

def atLeast (s : Instant) : TimeRange := between (.below s) .aboveAll

def all : TimeRange := between .belowAll .aboveAll

/-- A version holds from its effective time until the next one, or for ever. -/
def effective (start : Instant) : Option Instant → TimeRange
  | some stop => closedOpen start stop
  | none => atLeast start

/-- A range is empty when its cuts coincide. -/
def isEmpty (r : TimeRange) : Bool := r.lower = r.upper

def contains (r : TimeRange) (t : Instant) : Bool := r.lower.isBefore t && !r.upper.isBefore t

theorem isEmpty_iff {r : TimeRange} : r.isEmpty = true ↔ r.lower = r.upper := decide_eq_true_iff

/-- A range contains an instant when it reaches over both of the instant's cuts. -/
theorem contains_iff {r : TimeRange} {t : Instant} :
    r.contains t = true ↔ r.lower ≤ .below t ∧ .above t ≤ r.upper := by
  have : r.upper.isBefore t = false ↔ ¬r.upper ≤ .below t := by
    rw [← Cut.isBefore_iff_le, Bool.not_eq_true]
  simp only [contains, Bool.and_eq_true, Bool.not_eq_true', Cut.isBefore_iff_le, this,
    Cut.le_below_iff_lt_above (c := r.upper)]
  exact and_congr_right fun _ => Int.not_lt

/-- Two ranges touch when some cut lies within both. -/
def touches (r s : TimeRange) : Bool := r.lower ≤ s.upper && s.lower ≤ r.upper

/-- The largest range within both, if they touch. -/
def inter? (r s : TimeRange) : Option TimeRange :=
  if r.touches s then some (between (max r.lower s.lower) (min r.upper s.upper)) else none

def overlaps (r s : TimeRange) : Bool := (r.inter? s).any (!·.isEmpty)

/-- The pieces of `r` outside `s`, ascending. -/
def minus (r s : TimeRange) : List TimeRange :=
  if r.overlaps s then
    (if r.lower < s.lower then [between r.lower s.lower] else [])
      ++ (if s.upper < r.upper then [between s.upper r.upper] else [])
  else [r]

/-- The smallest range that encloses both. -/
def hull (r s : TimeRange) : TimeRange := between (min r.lower s.lower) (max r.upper s.upper)

/-- A square bracket takes the end in, a round one leaves it out. -/
def text (r : TimeRange) : String :=
  let lower := match r.lower with
    | .belowAll => "(-inf"
    | .below t => "[" ++ t.text .offset
    | .above t => "(" ++ t.text .offset
    | .aboveAll => "(+inf"
  let upper := match r.upper with
    | .belowAll => "-inf)"
    | .below t => t.text .offset ++ ")"
    | .above t => t.text .offset ++ "]"
    | .aboveAll => "+inf)"
  lower ++ ".." ++ upper

end TimeRange

end StationCatalog
