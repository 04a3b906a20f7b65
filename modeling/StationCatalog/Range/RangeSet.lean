import StationCatalog.Range.Basic

/-!
Sets of instants as ascending lists of non-empty ranges, no two of which touch.
-/

namespace StationCatalog

/-- A set of instants, by its ranges in ascending order. -/
structure RangeSet where
  ranges : List TimeRange
deriving DecidableEq

namespace RangeSet

def empty : RangeSet := ⟨[]⟩

/-- Puts a range before the first one whose lower cut is not below its own. -/
def place (r : TimeRange) : List TimeRange → List TimeRange
  | [] => [r]
  | s :: rest => if s.lower < r.lower then s :: place r rest else r :: s :: rest

/-- Takes in, one after another, the ranges that touch what has been taken in; the others stay. -/
def absorb (r : TimeRange) : List TimeRange → TimeRange × List TimeRange
  | [] => (r, [])
  | s :: rest =>
    if s.touches r then absorb (s.hull r) rest
    else
      let merged := absorb r rest
      (merged.1, s :: merged.2)

/-- Adds the instants of a range, merging it with the ranges it touches. -/
def add (set : RangeSet) (r : TimeRange) : RangeSet :=
  if r.isEmpty then set
  else
    let merged := absorb r set.ranges
    ⟨place merged.1 merged.2⟩

def remove (set : RangeSet) (r : TimeRange) : RangeSet :=
  if r.isEmpty then set
  else ⟨(set.ranges.flatMap (·.minus r)).filter (!·.isEmpty)⟩

def of (r : TimeRange) : RangeSet := empty.add r

def ofList (rs : List TimeRange) : RangeSet := rs.foldl add empty

def contains (set : RangeSet) (t : Instant) : Bool := set.ranges.any (·.contains t)

def size (set : RangeSet) : Nat := set.ranges.length

def isEmpty (set : RangeSet) : Bool := set.ranges.isEmpty

def descending (set : RangeSet) : List TimeRange := set.ranges.reverse

end RangeSet

end StationCatalog
