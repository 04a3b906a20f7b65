import StationCatalog.Proofs.Gaps

/-!
Overlap and instants in common. Overlap is told by cuts, and between two different cuts there is an
instant unless they adjoin: they are the cuts after one instant and before the next, or those at an
end of the time line. So ranges that overlap have an instant in common, unless what is in both lies
between cuts that adjoin, which takes a range that begins just after an instant or before all of
them.
-/

namespace StationCatalog

namespace Instant

/-- The first instant of the time line. -/
def first : Instant := ⟨-8334601228800000000000, by decide, by decide⟩

/-- The last instant of the time line. -/
def last : Instant := ⟨8210266876799999999999, by decide, by decide⟩

end Instant

namespace Cut

/-- The second cut comes after the first, and no instant lies between them. -/
inductive Adjoins : Cut → Cut → Prop
  | first : Adjoins .belowAll (.below .first)
  | next {s t : Instant} (next : t.nanos = s.nanos + 1) : Adjoins (.above s) (.below t)
  | last : Adjoins (.above .last) .aboveAll

/-- Every other position is that of a cut before an instant, or of the last cut of all; a cut
adjoins the one that comes right after it when its own position is not among them. -/
theorem adjoins_iff {a b : Cut} :
    a.Adjoins b ↔ b.position = a.position + 1 ∧ a.position % 2 = 1 := by
  constructor
  · intro h
    cases h with
    | first => exact ⟨rfl, rfl⟩
    | next next => simp only [position_below, position_above]; omega
    | last => exact ⟨rfl, rfl⟩
  · rintro ⟨after, odd⟩
    cases a with
    | belowAll =>
        cases b with
        | below t =>
            have same : t = .first := by
              refine Instant.ext ?_
              simp only [position] at after
              simp only [Instant.first]
              omega
            exact same ▸ .first
        | belowAll | above | aboveAll => simp only [position] at after; omega
    | below s => simp only [position] at odd; omega
    | above s =>
        cases b with
        | belowAll => have := s.first_le; simp only [position] at after; omega
        | below t => exact .next (by simp only [position] at after; omega)
        | above t => simp only [position] at after; omega
        | aboveAll =>
            have same : s = .last := by
              refine Instant.ext ?_
              simp only [position] at after
              simp only [Instant.last]
              omega
            exact same ▸ .last
    | aboveAll => simp only [position] at odd; omega

theorem position_bounds (c : Cut) :
    2 * Instant.first.nanos - 1 ≤ c.position ∧ c.position ≤ 2 * Instant.last.nanos + 2 := by
  cases c with
  | belowAll | aboveAll => exact ⟨by decide, by decide⟩
  | below t | above t =>
      have lower := t.first_le
      have upper := t.le_last
      simp only [position, Instant.first, Instant.last]
      omega

/-- Between two cuts of which one comes before the other there is an instant, unless they adjoin. -/
theorem exists_between_iff {a b : Cut} :
    (∃ t, a ≤ .below t ∧ .above t ≤ b) ↔ a < b ∧ ¬a.Adjoins b := by
  simp only [adjoins_iff, le_def, lt_def, position_below, position_above]
  constructor
  · rintro ⟨t, hlower, hupper⟩
    omega
  · rintro ⟨before, apart⟩
    have lower := a.position_bounds.1
    have upper := b.position_bounds.2
    simp only [Instant.first, Instant.last] at lower upper
    exact ⟨⟨(a.position + 1) / 2, by omega, by omega⟩, by dsimp only; omega, by dsimp only; omega⟩

end Cut

namespace TimeRange

/-- Both ranges contain an instant that lies between the later of the lower cuts and the earlier of
the upper ones, and no other. -/
theorem contains_both_iff {a b : TimeRange} {t : Instant} :
    a.contains t = true ∧ b.contains t = true ↔
      max a.lower b.lower ≤ .below t ∧ .above t ≤ min a.upper b.upper := by
  simp only [contains_iff, Cut.le_def, Cut.position_max, Cut.position_min]
  omega

/-- Two ranges overlap when the later lower cut comes before the earlier upper one. -/
theorem overlaps_iff_lt {a b : TimeRange} :
    a.overlaps b = true ↔ max a.lower b.lower < min a.upper b.upper := by
  rw [overlaps_iff]
  simp only [Cut.lt_def, Cut.position_max, Cut.position_min]
  omega

/-- Two ranges overlap exactly when they have an instant in common or what is in both lies between
cuts that adjoin, where no instant is. The second does not happen when the later of the lower cuts
is one just before an instant, as in ranges that take their beginning in: these overlap exactly when
they have an instant in common. -/
theorem overlaps_iff_shared (a b : TimeRange) :
    let lower := max a.lower b.lower
    let upper := min a.upper b.upper
    let shared := ∃ t, a.contains t = true ∧ b.contains t = true
    (a.overlaps b = true ↔ shared ∨ lower.Adjoins upper) ∧
    (shared ↔ a.overlaps b = true ∧ ¬lower.Adjoins upper) ∧
    ((∃ s, lower = .below s) → (a.overlaps b = true ↔ shared)) := by
  intro lower upper shared
  have between : shared ↔ a.overlaps b = true ∧ ¬lower.Adjoins upper := by
    rw [overlaps_iff_lt, ← Cut.exists_between_iff]
    exact exists_congr fun t => contains_both_iff
  have adjoining : lower.Adjoins upper → a.overlaps b = true := by
    intro h
    have after := (Cut.adjoins_iff.1 h).1
    rw [overlaps_iff_lt, Cut.lt_def, after]
    exact Int.lt_succ _
  refine ⟨?_, between, ?_⟩
  · rw [between]
    constructor
    · intro meet
      by_cases h : lower.Adjoins upper
      · exact .inr h
      · exact .inl ⟨meet, h⟩
    · rintro (⟨meet, -⟩ | h)
      · exact meet
      · exact adjoining h
  · rintro ⟨s, hs⟩
    refine ⟨fun meet => between.2 ⟨meet, fun h => ?_⟩, fun h => (between.1 h).1⟩
    rw [hs] at h
    cases h

/-- The range between an instant and the next one, neither of them in it, overlaps itself and
contains no instant. -/
theorem overlaps_unshared :
    let next : Instant := ⟨Instant.origin.nanos + 1, by decide, by decide⟩
    let r := TimeRange.opened .origin next
    r.overlaps r = true ∧ ¬∃ t, r.contains t = true ∧ r.contains t = true := by
  intro next r
  have adjoins : (Cut.above .origin).Adjoins (.below next) := .next rfl
  refine ⟨by decide, ?_⟩
  rintro ⟨t, ht, -⟩
  obtain ⟨hlower, hupper⟩ := contains_iff.1 ht
  exact (Cut.exists_between_iff.1 ⟨t, hlower, hupper⟩).2 adjoins

end TimeRange

end StationCatalog
