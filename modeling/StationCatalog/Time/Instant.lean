/-!
Instants of a bounded time line, to the nanosecond. The line runs from the first instant of year
-262143 to the last instant of year 262142; arithmetic that leaves it answers `none`.
-/

namespace StationCatalog

/-- An instant, counted in nanoseconds from 1970-01-01T00:00:00Z, inside the time line. -/
structure Instant where
  nanos : Int
  first_le : -8334601228800000000000 ≤ nanos
  le_last : nanos ≤ 8210266876799999999999
deriving DecidableEq

namespace Instant

@[ext] theorem ext {s t : Instant} (h : s.nanos = t.nanos) : s = t := by
  cases s; cases t; cases h; rfl

instance : LE Instant := ⟨fun s t => s.nanos ≤ t.nanos⟩
instance : LT Instant := ⟨fun s t => s.nanos < t.nanos⟩
instance (s t : Instant) : Decidable (s ≤ t) := inferInstanceAs (Decidable (s.nanos ≤ t.nanos))
instance (s t : Instant) : Decidable (s < t) := inferInstanceAs (Decidable (s.nanos < t.nanos))
instance : Ord Instant := ⟨fun s t => compare s.nanos t.nanos⟩

theorem le_def {s t : Instant} : s ≤ t ↔ s.nanos ≤ t.nanos := Iff.rfl
theorem lt_def {s t : Instant} : s < t ↔ s.nanos < t.nanos := Iff.rfl

/-- The instant at a count of nanoseconds, if the time line reaches it. -/
def ofNanos? (n : Int) : Option Instant :=
  if h : -8334601228800000000000 ≤ n ∧ n ≤ 8210266876799999999999 then some ⟨n, h.1, h.2⟩ else none

theorem ofNanos?_nanos (t : Instant) : ofNanos? t.nanos = some t := by
  simp only [ofNanos?, t.first_le, t.le_last, and_self, dif_pos]

theorem nanos_of_ofNanos? {n : Int} {t : Instant} (h : ofNanos? n = some t) : t.nanos = n := by
  unfold ofNanos? at h
  split at h
  · cases h; rfl
  · cases h

/-- The first instant of 2020, from which whole hours are counted. -/
def origin : Instant := ⟨1577836800000000000, by decide, by decide⟩

/-- The instant a number of hours after `origin`; hours before it are negative. -/
def ofHours? (hours : Int) : Option Instant := ofNanos? (origin.nanos + hours * 3600000000000)

/-- The instant a number of nanoseconds earlier, if the time line reaches back to it. -/
def back? (t : Instant) (nanos : Nat) : Option Instant := ofNanos? (t.nanos - nanos)

end Instant

end StationCatalog
