import StationCatalog.Range.Basic

/-!
Maps from instants to values, given by ranges. A later write wins where it overlaps earlier ones and
clips them; entries are never merged, so each keeps the range it was written with unless clipped.
-/

namespace StationCatalog

/-- A map from disjoint ranges to values, its entries in ascending order. -/
structure RangeMap (α : Type) where
  entries : List (TimeRange × α)
deriving DecidableEq

namespace RangeMap

variable {α β : Type}

def empty : RangeMap α := ⟨[]⟩

/-- What a write over `r` leaves of an entry. -/
def clip (r : TimeRange) (e : TimeRange × α) : List (TimeRange × α) :=
  ((e.1.minus r).filter (!·.isEmpty)).map (·, e.2)

/-- Puts an entry before the first one that does not begin below it. -/
def place (e : TimeRange × α) : List (TimeRange × α) → List (TimeRange × α)
  | [] => [e]
  | f :: rest => if f.1.lower < e.1.lower then f :: place e rest else e :: f :: rest

/-- Writes a value over a range; an empty range writes nothing. -/
def put (m : RangeMap α) (r : TimeRange) (v : α) : RangeMap α :=
  if r.isEmpty then m else ⟨place (r, v) (m.entries.flatMap (clip r))⟩

def putEntries (m : RangeMap α) (entries : List (TimeRange × α)) : RangeMap α :=
  entries.foldl (fun m e => m.put e.1 e.2) m

def putAll (m other : RangeMap α) : RangeMap α := m.putEntries other.entries

def ofList (entries : List (TimeRange × α)) : RangeMap α := empty.putEntries entries

def entryAt? (m : RangeMap α) (t : Instant) : Option (TimeRange × α) :=
  m.entries.find? (·.1.contains t)

def get? (m : RangeMap α) (t : Instant) : Option α := (m.entryAt? t).map (·.2)

def ranges (m : RangeMap α) : List TimeRange := m.entries.map (·.1)

def values (m : RangeMap α) : List α := m.entries.map (·.2)

/-- The smallest range that encloses every entry. -/
def span? (m : RangeMap α) : Option TimeRange :=
  match m.entries.head?, m.entries.getLast? with
  | some first, some last => some (TimeRange.between first.1.lower last.1.upper)
  | _, _ => none

/-- Maps the values and drops the entries that `f` refuses. -/
def filterMap (f : α → Option β) (m : RangeMap α) : RangeMap β :=
  ⟨m.entries.filterMap fun e => (f e.2).map (e.1, ·)⟩

def size (m : RangeMap α) : Nat := m.entries.length

def isEmpty (m : RangeMap α) : Bool := m.entries.isEmpty

end RangeMap

end StationCatalog
