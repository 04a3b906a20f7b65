import StationCatalog.Time.Instant

/-!
Cuts of the time line: places between instants, where ranges begin and end. Each cut has a position
on the integers, where instant `t` lies between `2 * t` and `2 * t + 1`; cuts order as their
positions do.
-/

namespace StationCatalog

/-- A place between instants, or before or after all of them. -/
inductive Cut
  | belowAll
  | below (t : Instant)
  | above (t : Instant)
  | aboveAll
deriving DecidableEq

namespace Cut

/-- Where a cut lies among the doubled instants. -/
def position : Cut → Int
  | belowAll => 2 * -8334601228800000000000 - 1
  | below t => 2 * t.nanos
  | above t => 2 * t.nanos + 1
  | aboveAll => 2 * 8210266876799999999999 + 2

instance : LE Cut := ⟨fun a b => a.position ≤ b.position⟩
instance : LT Cut := ⟨fun a b => a.position < b.position⟩
instance (a b : Cut) : Decidable (a ≤ b) := inferInstanceAs (Decidable (a.position ≤ b.position))
instance (a b : Cut) : Decidable (a < b) := inferInstanceAs (Decidable (a.position < b.position))
instance : Ord Cut := ⟨fun a b => compare a.position b.position⟩
instance : Max Cut := maxOfLe
instance : Min Cut := minOfLe

theorem le_def {a b : Cut} : a ≤ b ↔ a.position ≤ b.position := Iff.rfl
theorem lt_def {a b : Cut} : a < b ↔ a.position < b.position := Iff.rfl

theorem belowAll_lt_below (t : Instant) : belowAll < below t := by
  have := t.first_le
  simp only [lt_def, position]; omega

theorem above_lt_aboveAll (t : Instant) : above t < aboveAll := by
  have := t.le_last
  simp only [lt_def, position]; omega

theorem position_inj {a b : Cut} (h : a.position = b.position) : a = b := by
  match a, b with
  | belowAll, belowAll | aboveAll, aboveAll => rfl
  | below s, below t => exact congrArg below (Instant.ext (by simp only [position] at h; omega))
  | above s, above t => exact congrArg above (Instant.ext (by simp only [position] at h; omega))
  | below s, above t | above s, below t => simp only [position] at h; omega
  | belowAll, below t | belowAll, above t | below t, belowAll | above t, belowAll =>
    have := t.first_le
    simp only [position] at h; omega
  | aboveAll, below t | aboveAll, above t | below t, aboveAll | above t, aboveAll =>
    have := t.le_last
    simp only [position] at h; omega
  | belowAll, aboveAll | aboveAll, belowAll => simp only [position] at h; omega

/-- A cut lies before an instant when the instant is on its upper side. -/
def isBefore : Cut → Instant → Bool
  | belowAll, _ => true
  | below s, t => s ≤ t
  | above s, t => s < t
  | aboveAll, _ => false

/-- The cuts before an instant are those up to the one just below it. -/
theorem isBefore_iff_le {c : Cut} {t : Instant} : c.isBefore t = true ↔ c ≤ below t := by
  cases c with
  | belowAll => exact iff_of_true rfl (Int.le_of_lt (belowAll_lt_below t))
  | below s | above s =>
    simp only [isBefore, decide_eq_true_eq, le_def, position, Instant.le_def, Instant.lt_def]
    omega
  | aboveAll =>
    have := above_lt_aboveAll t
    simp only [lt_def, position] at this
    simp only [isBefore, Bool.false_eq_true, false_iff, le_def, position]
    omega

/-- Nothing lies between the two cuts of an instant. -/
theorem le_below_iff_lt_above {c : Cut} {t : Instant} : c ≤ below t ↔ c < above t := by
  simp only [le_def, lt_def, position]
  omega

/-- The instant a cut is next to, if it is next to one. -/
def endpoint? : Cut → Option Instant
  | below t | above t => some t
  | belowAll | aboveAll => none

end Cut

end StationCatalog
