import StationCatalog.Range.RangeMap
import StationCatalog.Range.RangeSet

/-!
Arithmetic of ranges. Subtraction leaves pieces of a range that lie apart from what is taken away,
so a write to a range map keeps its entries non-empty, ascending and disjoint, and nothing of a
range is lost to subtraction but what the other ranges hold.
-/

namespace StationCatalog

theorem Cut.position_below (t : Instant) : (below t).position = 2 * t.nanos := rfl

theorem Cut.position_above (t : Instant) : (above t).position = 2 * t.nanos + 1 := rfl

theorem Cut.position_max (a b : Cut) : (max a b).position = max a.position b.position := by
  change (if a ≤ b then b else a).position = _
  split <;> simp only [Cut.le_def] at * <;> omega

theorem Cut.position_min (a b : Cut) : (min a b).position = min a.position b.position := by
  change (if a ≤ b then a else b).position = _
  split <;> simp only [Cut.le_def] at * <;> omega

/-- A cut between two cuts of instants is next to an instant. -/
theorem Cut.endpoint?_isSome {c : Cut} {s t : Instant} (hs : .below s ≤ c) (ht : c ≤ .above t) :
    c.endpoint?.isSome = true := by
  have first := Cut.belowAll_lt_below s
  have last := Cut.above_lt_aboveAll t
  simp only [Cut.le_def, Cut.lt_def] at *
  cases c with
  | belowAll => omega
  | below u => rfl
  | above u => rfl
  | aboveAll => omega

theorem Cut.endpoint?_bounds {c : Cut} {t : Instant} (h : c.endpoint? = some t) :
    .below t ≤ c ∧ c ≤ .above t := by
  cases c with
  | belowAll => cases h
  | below u => cases h; simp only [Cut.le_def, Cut.position]; omega
  | above u => cases h; simp only [Cut.le_def, Cut.position]; omega
  | aboveAll => cases h

namespace TimeRange

/-- The other range lies within this one. -/
def Encloses (r s : TimeRange) : Prop := r.lower ≤ s.lower ∧ s.upper ≤ r.upper

/-- One of two ranges ends before the other begins. -/
def Apart (r s : TimeRange) : Prop := r.upper ≤ s.lower ∨ s.upper ≤ r.lower

/-- The range takes in the instant it begins at and leaves out the one it ends at, if it has such
ends. -/
structure IsClosedOpen (r : TimeRange) : Prop where
  lower : ∀ t, r.lower ≠ .above t
  upper : ∀ t, r.upper ≠ .above t

theorem Encloses.refl (r : TimeRange) : r.Encloses r := ⟨Int.le_refl _, Int.le_refl _⟩

theorem Encloses.trans {r s u : TimeRange} (h : r.Encloses s) (h' : s.Encloses u) :
    r.Encloses u := ⟨Int.le_trans h.1 h'.1, Int.le_trans h'.2 h.2⟩

theorem Encloses.contains {r s : TimeRange} (h : r.Encloses s) {t : Instant}
    (ht : s.contains t = true) : r.contains t = true := by
  obtain ⟨hlower, hupper⟩ := contains_iff.1 ht
  exact contains_iff.2 ⟨Int.le_trans h.1 hlower, Int.le_trans hupper h.2⟩

theorem lower_between (a b : Cut) : (between a b).lower = a := by
  unfold between
  split <;> rfl

theorem position_upper_between (a b : Cut) :
    (between a b).upper.position = max a.position b.position := by
  unfold between
  split
  next h => exact (Int.max_eq_right h).symm
  next h => exact (Int.max_eq_left (Int.le_of_not_le h)).symm

theorem isClosedOpen_between {a b : Cut} (ha : ∀ t, a ≠ .above t) (hb : ∀ t, b ≠ .above t) :
    (between a b).IsClosedOpen := by
  unfold between
  split
  · exact ⟨ha, hb⟩
  · exact ⟨ha, ha⟩

theorem isEmpty_eq_false_iff {r : TimeRange} : r.isEmpty = false ↔ r.lower < r.upper := by
  have ordered := r.ordered
  have same : r.lower = r.upper ↔ r.lower.position = r.upper.position :=
    ⟨congrArg _, Cut.position_inj⟩
  rw [← Bool.not_eq_true, isEmpty_iff, same]
  simp only [Cut.le_def, Cut.lt_def] at *
  omega

/-- Two ranges overlap when neither is empty and each begins before the other ends. -/
theorem overlaps_iff {r s : TimeRange} :
    r.overlaps s = true ↔
      r.lower < r.upper ∧ s.lower < s.upper ∧ r.lower < s.upper ∧ s.lower < r.upper := by
  have hr := r.ordered
  have hs := s.ordered
  simp only [overlaps, inter?, touches, Bool.and_eq_true, decide_eq_true_eq]
  split
  next h =>
    simp only [Option.any_some, Bool.not_eq_true', isEmpty_eq_false_iff, Cut.lt_def, Cut.le_def,
      lower_between, position_upper_between, Cut.position_max, Cut.position_min] at *
    omega
  next h =>
    simp only [Option.any_none, Bool.false_eq_true, false_iff, Cut.lt_def, Cut.le_def] at *
    omega

theorem overlaps_symm {r s : TimeRange} (h : r.overlaps s = true) : s.overlaps r = true := by
  obtain ⟨hr, hs, hrs, hsr⟩ := overlaps_iff.1 h
  exact overlaps_iff.2 ⟨hs, hr, hsr, hrs⟩

theorem overlaps_of_contains {r s : TimeRange} {t : Instant} (hr : r.contains t = true)
    (hs : s.contains t = true) : r.overlaps s = true := by
  rw [contains_iff] at hr hs
  rw [overlaps_iff]
  simp only [Cut.le_def, Cut.lt_def, Cut.position_below, Cut.position_above] at *
  omega

theorem mem_minus {r s p : TimeRange} :
    p ∈ r.minus s ↔
      r.overlaps s = false ∧ p = r ∨
      r.overlaps s = true ∧ (r.lower < s.lower ∧ p = between r.lower s.lower ∨
        s.upper < r.upper ∧ p = between s.upper r.upper) := by
  cases h : r.overlaps s with
  | false => simp only [minus, h, Bool.false_eq_true, if_false, List.mem_singleton, true_and,
      false_and, or_false]
  | true =>
      simp only [minus, h, if_true, List.mem_append, Bool.true_eq_false, false_and, true_and,
        false_or]
      refine or_congr ?_ ?_ <;> split <;>
        simp only [*, List.mem_singleton, List.not_mem_nil, true_and, false_and]

theorem encloses_of_mem_minus {r s p : TimeRange} (h : p ∈ r.minus s) : r.Encloses p := by
  have hr := r.ordered
  rcases mem_minus.1 h with ⟨-, rfl⟩ | ⟨hov, ⟨hlt, rfl⟩ | ⟨hlt, rfl⟩⟩
  · exact .refl p
  all_goals
    rw [overlaps_iff] at hov
    simp only [Encloses, Cut.le_def, Cut.lt_def, lower_between, position_upper_between] at *
    omega

theorem IsClosedOpen.of_mem_minus {r s p : TimeRange} (hr : r.IsClosedOpen) (hs : s.IsClosedOpen)
    (h : p ∈ r.minus s) : p.IsClosedOpen := by
  rcases mem_minus.1 h with ⟨-, rfl⟩ | ⟨-, ⟨-, rfl⟩ | ⟨-, rfl⟩⟩
  · exact hr
  · exact isClosedOpen_between hr.lower hs.lower
  · exact isClosedOpen_between hs.upper hr.upper

theorem apart_of_mem_minus {r s p : TimeRange} (hs : s.isEmpty = false) (hp : p.isEmpty = false)
    (h : p ∈ r.minus s) : p.Apart s := by
  rw [isEmpty_eq_false_iff] at hs hp
  rcases mem_minus.1 h with ⟨hov, rfl⟩ | ⟨hov, ⟨hlt, rfl⟩ | ⟨hlt, rfl⟩⟩
  · rw [← Bool.not_eq_true, overlaps_iff] at hov
    simp only [Apart, Cut.le_def, Cut.lt_def] at *
    omega
  all_goals
    simp only [Apart, Cut.le_def, Cut.lt_def, lower_between, position_upper_between] at *
    omega

theorem pairwise_minus (r s : TimeRange) :
    (r.minus s).Pairwise fun a b => a.upper < b.lower := by
  have hs := s.ordered
  simp only [minus]
  split
  next hov =>
    rw [overlaps_iff] at hov
    refine List.pairwise_append.2 ⟨?_, ?_, ?_⟩
    · split
      · exact List.pairwise_singleton _ _
      · exact .nil
    · split
      · exact List.pairwise_singleton _ _
      · exact .nil
    · intro a ha b hb
      split at ha <;> split at hb <;> try contradiction
      rw [List.mem_singleton.1 ha, List.mem_singleton.1 hb]
      simp only [Cut.le_def, Cut.lt_def, lower_between, position_upper_between] at *
      omega
  next => exact List.pairwise_singleton _ r

end TimeRange

end StationCatalog
