import Mathlib.Data.List.Pairwise
import StationCatalog.Proofs.RangeMaps
import StationCatalog.Tier.Cached.Within

/-!
The gaps of a range: its maximal sub-ranges that none of the cached ranges overlaps. Taking the
cached ranges away one after another leaves exactly these, latest first, whatever the cached ranges
are and in whatever order they come.
-/

namespace StationCatalog

namespace TimeRange

/-- The range reaches over the place just above a cut. -/
def Covers (r : TimeRange) (c : Cut) : Prop := r.lower ≤ c ∧ c < r.upper

/-- A largest sub-range of the requested range that no cached range overlaps. -/
structure IsGap (requested : TimeRange) (cached : List TimeRange) (g : TimeRange) : Prop where
  within : requested.Encloses g
  nonempty : g.isEmpty = false
  uncovered : ∀ r ∈ cached, r.overlaps g = false
  maximal : ∀ g', requested.Encloses g' → (∀ r ∈ cached, r.overlaps g' = false) →
    g'.Encloses g → g' = g

/-- The cached ranges together reach over the whole of the requested range. -/
def CoveredBy (requested : TimeRange) (cached : List TimeRange) : Prop :=
  ∀ c, requested.Covers c → ∃ r ∈ cached, r.Covers c

theorem ext_ends {r s : TimeRange} (hlower : r.lower = s.lower) (hupper : r.upper = s.upper) :
    r = s := by
  cases r
  cases s
  cases hlower
  cases hupper
  rfl

theorem Encloses.antisymm {r s : TimeRange} (h : r.Encloses s) (h' : s.Encloses r) : r = s := by
  refine ext_ends (Cut.position_inj ?_) (Cut.position_inj ?_)
  · exact Int.le_antisymm h.1 h'.1
  · exact Int.le_antisymm h'.2 h.2

theorem contains_iff_covers {r : TimeRange} {t : Instant} :
    r.contains t = true ↔ r.Covers (.below t) := by
  rw [contains_iff]
  simp only [Covers, Cut.le_def, Cut.lt_def, Cut.position_below, Cut.position_above]
  omega

theorem covers_lower {r : TimeRange} : r.Covers r.lower ↔ r.isEmpty = false := by
  rw [isEmpty_eq_false_iff]
  exact and_iff_right (Int.le_refl _)

theorem Covers.isEmpty_eq_false {r : TimeRange} {c : Cut} (h : r.Covers c) : r.isEmpty = false :=
  isEmpty_eq_false_iff.2 (Int.lt_of_le_of_lt h.1 h.2)

theorem not_covers_of_isEmpty {r : TimeRange} {c : Cut} (h : r.isEmpty = true) : ¬r.Covers c := by
  intro reached
  rw [reached.isEmpty_eq_false] at h
  cases h

theorem Encloses.covers {r s : TimeRange} (h : r.Encloses s) {c : Cut} (hc : s.Covers c) :
    r.Covers c := ⟨Int.le_trans h.1 hc.1, Int.lt_of_lt_of_le hc.2 h.2⟩

/-- Ranges overlap when they reach over a common place. -/
theorem overlaps_iff_covers {r s : TimeRange} :
    r.overlaps s = true ↔ ∃ c, r.Covers c ∧ s.Covers c := by
  rw [overlaps_iff]
  constructor
  · rintro ⟨hr, hs, hrs, hsr⟩
    refine ⟨max r.lower s.lower, ?_⟩
    simp only [Covers, Cut.le_def, Cut.lt_def, Cut.position_max] at *
    omega
  · rintro ⟨c, hr, hs⟩
    simp only [Covers, Cut.le_def, Cut.lt_def] at *
    omega

theorem overlaps_eq_false_iff {r s : TimeRange} :
    r.overlaps s = false ↔ ∀ c, s.Covers c → ¬r.Covers c := by
  rw [← Bool.not_eq_true, overlaps_iff_covers]
  constructor
  · exact fun h c hs hr => h ⟨c, hr, hs⟩
  · rintro h ⟨c, hr, hs⟩
    exact h c hs hr

theorem encloses_of_covers {r s : TimeRange} (nonempty : s.isEmpty = false)
    (h : ∀ c, s.Covers c → r.Covers c) : r.Encloses s := by
  have first := h s.lower (covers_lower.2 nonempty)
  refine ⟨first.1, Int.not_lt.1 ?_⟩
  intro longer
  have past : s.Covers r.upper := ⟨Int.le_of_lt first.2, longer⟩
  exact absurd (h r.upper past).2 (Int.lt_irrefl _)

theorem covers_between {a b c : Cut} : (between a b).Covers c ↔ a ≤ c ∧ c < b := by
  simp only [Covers, lower_between, Cut.lt_def, position_upper_between, Cut.le_def]
  omega

/-- Subtraction takes away what the other range reaches over, and nothing else. -/
theorem exists_mem_minus_covers {r s : TimeRange} {c : Cut} :
    (∃ p ∈ r.minus s, p.Covers c) ↔ r.Covers c ∧ ¬s.Covers c := by
  cases hov : r.overlaps s with
  | false =>
      have apart := overlaps_eq_false_iff.1 hov
      simp only [minus, hov, Bool.false_eq_true, if_false, List.mem_singleton, exists_eq_left]
      exact ⟨fun hr => ⟨hr, fun hs => apart c hs hr⟩, And.left⟩
  | true =>
      have both := overlaps_iff.1 hov
      constructor
      · rintro ⟨p, hp, hc⟩
        rcases mem_minus.1 hp with ⟨hnot, -⟩ | ⟨-, ⟨-, rfl⟩ | ⟨-, rfl⟩⟩
        · rw [hov] at hnot
          cases hnot
        all_goals
          rw [covers_between] at hc
          simp only [Covers, Cut.le_def, Cut.lt_def] at *
          omega
      · rintro ⟨hr, hs⟩
        by_cases hlt : c < s.lower
        · have first : r.lower < s.lower := Int.lt_of_le_of_lt hr.1 hlt
          exact ⟨_, mem_minus.2 (.inr ⟨hov, .inl ⟨first, rfl⟩⟩), covers_between.2 ⟨hr.1, hlt⟩⟩
        · have reached : s.upper ≤ c := by
            simp only [Covers, Cut.le_def, Cut.lt_def] at *
            omega
          have last : s.upper < r.upper := Int.lt_of_le_of_lt reached hr.2
          exact ⟨_, mem_minus.2 (.inr ⟨hov, .inr ⟨last, rfl⟩⟩), covers_between.2 ⟨reached, hr.2⟩⟩

/-! ### Closed ranges -/

theorem lower_closed (start stop : Instant) : (closed start stop).lower = .below start :=
  lower_between _ _

theorem position_upper_closed {start stop : Instant} (ordered : start ≤ stop) :
    (closed start stop).upper.position = 2 * stop.nanos + 1 := by
  rw [Instant.le_def] at ordered
  rw [closed, position_upper_between, Cut.position_below, Cut.position_above]
  omega

/-- A closed range contains the instants from the one that it begins at to the one it ends at. -/
theorem contains_closed_iff {start stop t : Instant} (ordered : start ≤ stop) :
    (closed start stop).contains t = true ↔ start ≤ t ∧ t ≤ stop := by
  have upper := position_upper_closed ordered
  rw [contains_iff, lower_closed]
  simp only [Cut.le_def, Cut.position_below, Cut.position_above, Instant.le_def]
  omega

theorem contains_closed {start stop t : Instant} (hstart : start ≤ t) (hstop : t ≤ stop) :
    (closed start stop).contains t = true :=
  (contains_closed_iff (Int.le_trans hstart hstop)).2 ⟨hstart, hstop⟩

/-- Ranges that leave out the instants they end at cover a range when they contain its instants. -/
theorem coveredBy_of_contains {start stop : Instant} {cached : List TimeRange}
    (ends : ∀ r ∈ cached, r.IsClosedOpen)
    (h : ∀ t, start ≤ t → t ≤ stop → ∃ r ∈ cached, r.contains t = true) :
    (closed start stop).CoveredBy cached := by
  rintro c ⟨lower, upper⟩
  rw [lower_closed] at lower
  rw [Cut.lt_def, closed, position_upper_between] at upper
  have first := Cut.belowAll_lt_below start
  have last := Cut.above_lt_aboveAll stop
  simp only [Cut.le_def, Cut.position_below, Cut.position_above] at lower upper
  simp only [Cut.lt_def, Cut.position_below, Cut.position_above] at first last
  cases c with
  | belowAll => omega
  | aboveAll => omega
  | below t =>
      simp only [Cut.position_below] at lower upper
      obtain ⟨r, hr, ht⟩ := h t (Instant.le_def.2 (by omega)) (Instant.le_def.2 (by omega))
      exact ⟨r, hr, contains_iff_covers.1 ht⟩
  | above t =>
      simp only [Cut.position_above] at lower upper
      obtain ⟨r, hr, ht⟩ := h t (Instant.le_def.2 (by omega)) (Instant.le_def.2 (by omega))
      obtain ⟨begins, reaches⟩ := contains_iff.1 ht
      have further : r.upper.position ≠ (Cut.above t).position :=
        fun same => (ends r hr).upper t (Cut.position_inj same)
      refine ⟨r, hr, ?_⟩
      simp only [Covers, Cut.le_def, Cut.lt_def, Cut.position_below, Cut.position_above] at *
      omega

/-- A range within a closed one has ends, no further out than the ends of that one. -/
theorem exists_endpoints {start stop : Instant} {r : TimeRange} (ordered : start ≤ stop)
    (within : (closed start stop).Encloses r) :
    ∃ first last, r.lower.endpoint? = some first ∧ r.upper.endpoint? = some last ∧
      start ≤ first ∧ last ≤ stop := by
  obtain ⟨lower, upper⟩ := within
  have order := r.ordered
  have edge := position_upper_closed ordered
  rw [lower_closed] at lower
  have last : r.upper ≤ .above stop := by
    rw [Cut.le_def, Cut.position_above, ← edge]
    exact upper
  have hasLower := Cut.endpoint?_isSome lower (Int.le_trans order last)
  have hasUpper := Cut.endpoint?_isSome (Int.le_trans lower order) last
  obtain ⟨first, hfirst⟩ := Option.isSome_iff_exists.1 hasLower
  obtain ⟨last, hlast⟩ := Option.isSome_iff_exists.1 hasUpper
  have bounds := Cut.endpoint?_bounds hfirst
  have bounds' := Cut.endpoint?_bounds hlast
  refine ⟨first, last, hfirst, hlast, ?_, ?_⟩
  all_goals
    simp only [Cut.le_def, Cut.position_below, Cut.position_above, Instant.le_def] at *
    omega

/-- The instants of a range lie between its ends. -/
theorem between_endpoints {r : TimeRange} {t first last : Instant} (h : r.contains t = true)
    (hfirst : r.lower.endpoint? = some first) (hlast : r.upper.endpoint? = some last) :
    first ≤ t ∧ t ≤ last := by
  obtain ⟨lower, upper⟩ := contains_iff.1 h
  have bounds := Cut.endpoint?_bounds hfirst
  have bounds' := Cut.endpoint?_bounds hlast
  simp only [Cut.le_def, Cut.position_below, Cut.position_above, Instant.le_def] at *
  omega

end TimeRange

namespace RangeSet

/-- Non-empty ranges in ascending order, with something left out between one and the next. -/
structure WellFormed (set : RangeSet) : Prop where
  nonempty : ∀ r ∈ set.ranges, r.isEmpty = false
  separated : set.ranges.Pairwise fun a b => a.upper < b.lower

theorem ranges_of {r : TimeRange} (h : r.isEmpty = false) : (of r).ranges = [r] := by
  simp only [of, add, h, Bool.false_eq_true, if_false, empty, absorb, place]

theorem ranges_of_empty {r : TimeRange} (h : r.isEmpty = true) : (of r).ranges = [] := by
  rw [of, add, h, if_pos rfl, empty]

theorem WellFormed.of (r : TimeRange) : (of r).WellFormed := by
  cases h : r.isEmpty with
  | true =>
      constructor
      · intro s hs
        rw [ranges_of_empty h] at hs
        cases hs
      · rw [ranges_of_empty h]
        exact .nil
  | false =>
      constructor
      · intro s hs
        rw [ranges_of h, List.mem_singleton] at hs
        rw [hs, h]
      · rw [ranges_of h]
        exact List.pairwise_singleton _ r

theorem WellFormed.remove {set : RangeSet} (h : set.WellFormed) (r : TimeRange) :
    (set.remove r).WellFormed := by
  unfold RangeSet.remove
  split
  · exact h
  · constructor
    · intro p hp
      simpa only [Bool.not_eq_true'] using (List.mem_filter.1 hp).2
    · refine List.Pairwise.filter _ (List.pairwise_flatMap.2 ⟨?_, ?_⟩)
      · exact fun q _ => TimeRange.pairwise_minus q r
      · apply h.separated.imp
        intro a b hab p hp q hq
        have hp := TimeRange.encloses_of_mem_minus hp
        have hq := TimeRange.encloses_of_mem_minus hq
        exact Int.lt_of_le_of_lt hp.2 (Int.lt_of_lt_of_le hab hq.1)

theorem exists_covers_of {r : TimeRange} {c : Cut} :
    (∃ p ∈ (of r).ranges, p.Covers c) ↔ r.Covers c := by
  cases h : r.isEmpty with
  | true =>
      have none : ¬r.Covers c := TimeRange.not_covers_of_isEmpty h
      simp only [ranges_of_empty h, List.not_mem_nil, false_and, exists_false, none]
  | false => simp only [ranges_of h, List.mem_singleton, exists_eq_left]

theorem exists_covers_remove {set : RangeSet} {r : TimeRange} {c : Cut} :
    (∃ p ∈ (set.remove r).ranges, p.Covers c) ↔
      (∃ p ∈ set.ranges, p.Covers c) ∧ ¬r.Covers c := by
  cases h : r.isEmpty with
  | true =>
      have none : ¬r.Covers c := TimeRange.not_covers_of_isEmpty h
      simp only [remove, h, if_true, none, not_false_eq_true, and_true]
  | false =>
      simp only [remove, h, Bool.false_eq_true, if_false, List.mem_filter, List.mem_flatMap,
        Bool.not_eq_true']
      constructor
      · rintro ⟨p, ⟨⟨q, hq, hp⟩, -⟩, hc⟩
        obtain ⟨hqc, hr⟩ := TimeRange.exists_mem_minus_covers.1 ⟨p, hp, hc⟩
        exact ⟨⟨q, hq, hqc⟩, hr⟩
      · rintro ⟨⟨q, hq, hqc⟩, hr⟩
        obtain ⟨p, hp, hc⟩ := TimeRange.exists_mem_minus_covers.2 ⟨hqc, hr⟩
        exact ⟨p, ⟨⟨q, hq, hp⟩, hc.isEmpty_eq_false⟩, hc⟩

/-- Removing ranges one after another leaves what none of them reaches over. -/
theorem foldl_remove {set : RangeSet} (h : set.WellFormed) (rs : List TimeRange) :
    (rs.foldl remove set).WellFormed ∧ ∀ c, (∃ p ∈ (rs.foldl remove set).ranges, p.Covers c) ↔
      (∃ p ∈ set.ranges, p.Covers c) ∧ ∀ r ∈ rs, ¬r.Covers c := by
  induction rs generalizing set with
  | nil => exact ⟨h, fun c => (and_iff_left fun _ hr => absurd hr List.not_mem_nil).symm⟩
  | cons r rs ih =>
      obtain ⟨wellFormed, covers⟩ := ih (h.remove r)
      refine ⟨wellFormed, fun c => ?_⟩
      rw [List.foldl_cons, covers, exists_covers_remove, List.forall_mem_cons, and_assoc]

end RangeSet

namespace Cached

open TimeRange

variable {requested : TimeRange} {cached : List TimeRange}

theorem nonempty_of_mem_gaps {g : TimeRange} (h : g ∈ gaps requested cached) :
    g.isEmpty = false :=
  (RangeSet.foldl_remove (.of requested) cached).1.nonempty g (List.mem_reverse.1 h)

/-- Gaps come latest first, with something cached between one and the next. -/
theorem pairwise_gaps : (gaps requested cached).Pairwise fun a b => b.upper < a.lower :=
  List.pairwise_reverse.2 (RangeSet.foldl_remove (.of requested) cached).1.separated

theorem exists_mem_gaps_covers {c : Cut} :
    (∃ g ∈ gaps requested cached, g.Covers c) ↔
      requested.Covers c ∧ ∀ r ∈ cached, ¬r.Covers c := by
  have left := (RangeSet.foldl_remove (.of requested) cached).2 c
  rw [RangeSet.exists_covers_of] at left
  simpa only [gaps, RangeSet.descending, List.mem_reverse] using left

theorem apart_of_mem_gaps {g h : TimeRange} (hg : g ∈ gaps requested cached)
    (hh : h ∈ gaps requested cached) : g = h ∨ g.upper < h.lower ∨ h.upper < g.lower := by
  have later : (gaps requested cached).Pairwise fun a b =>
      a = b ∨ a.upper < b.lower ∨ b.upper < a.lower := pairwise_gaps.imp fun h => .inr (.inr h)
  have earlier : (gaps requested cached).Pairwise (flip fun a b =>
      a = b ∨ a.upper < b.lower ∨ b.upper < a.lower) := pairwise_gaps.imp fun h => .inr (.inl h)
  exact later.forall_of_forall_of_flip (fun _ _ => .inl rfl) earlier hg hh

/-- Nothing is left of a range that is covered. -/
theorem gaps_eq_nil (h : requested.CoveredBy cached) : gaps requested cached = [] := by
  rw [List.eq_nil_iff_forall_not_mem]
  intro g hg
  have first : g.Covers g.lower := covers_lower.2 (nonempty_of_mem_gaps hg)
  obtain ⟨within, uncovered⟩ := exists_mem_gaps_covers.1 ⟨g, hg, first⟩
  obtain ⟨r, hr, hc⟩ := h g.lower within
  exact uncovered r hr hc

/-- An instant that is requested and not cached lies in a gap. -/
theorem exists_mem_gaps {t : Instant} (ht : requested.contains t = true)
    (h : ∀ r ∈ cached, r.contains t = false) :
    ∃ gap ∈ gaps requested cached, gap.contains t = true := by
  simp only [contains_iff_covers, ← Bool.not_eq_true] at *
  exact exists_mem_gaps_covers.2 ⟨ht, h⟩

/-- What comes after a gap is cached, or no longer requested. -/
theorem not_uncovered_upper {g : TimeRange} (hg : g ∈ gaps requested cached) :
    ¬(requested.Covers g.upper ∧ ∀ r ∈ cached, ¬r.Covers g.upper) := by
  rw [← exists_mem_gaps_covers]
  rintro ⟨h, hh, hc⟩
  have hord := h.ordered
  have gord := g.ordered
  rcases apart_of_mem_gaps hg hh with rfl | apart | apart <;>
    simp only [Covers, Cut.le_def, Cut.lt_def] at * <;> omega

theorem uncovered_of_mem_gaps {g : TimeRange} (hg : g ∈ gaps requested cached) :
    ∀ r ∈ cached, r.overlaps g = false := by
  intro r hr
  rw [overlaps_eq_false_iff]
  intro c hc
  exact (exists_mem_gaps_covers.1 ⟨g, hg, hc⟩).2 r hr

theorem encloses_of_mem_gaps {g : TimeRange} (h : g ∈ gaps requested cached) :
    requested.Encloses g :=
  encloses_of_covers (nonempty_of_mem_gaps h) fun _ hc => (exists_mem_gaps_covers.1 ⟨g, h, hc⟩).1

/-- A sub-range that no cached range overlaps lies within one gap. -/
theorem exists_mem_gaps_encloses {g : TimeRange} (within : requested.Encloses g)
    (nonempty : g.isEmpty = false) (uncovered : ∀ r ∈ cached, r.overlaps g = false) :
    ∃ h ∈ gaps requested cached, h.Encloses g := by
  have free : ∀ c, g.Covers c → requested.Covers c ∧ ∀ r ∈ cached, ¬r.Covers c :=
    fun c hc => ⟨within.covers hc, fun r hr => overlaps_eq_false_iff.1 (uncovered r hr) c hc⟩
  obtain ⟨h, hh, first⟩ := exists_mem_gaps_covers.2 (free _ (covers_lower.2 nonempty))
  refine ⟨h, hh, first.1, Int.not_lt.1 ?_⟩
  intro longer
  have reached : g.Covers h.upper := ⟨Int.le_of_lt first.2, longer⟩
  exact not_uncovered_upper hh (free _ reached)

/-- The gaps are the largest sub-ranges that no cached range overlaps. -/
theorem mem_gaps_iff {g : TimeRange} :
    g ∈ gaps requested cached ↔ IsGap requested cached g := by
  constructor
  · intro hg
    refine ⟨encloses_of_mem_gaps hg, nonempty_of_mem_gaps hg, uncovered_of_mem_gaps hg, ?_⟩
    intro g' within uncovered larger
    have nonempty : g'.isEmpty = false := by
      have := isEmpty_eq_false_iff.1 (nonempty_of_mem_gaps hg)
      rw [isEmpty_eq_false_iff]
      exact Int.lt_of_le_of_lt larger.1 (Int.lt_of_lt_of_le this larger.2)
    obtain ⟨h, hh, hin⟩ := exists_mem_gaps_encloses within nonempty uncovered
    have same : g = h := by
      have hin := hin.trans larger
      have := isEmpty_eq_false_iff.1 (nonempty_of_mem_gaps hg)
      rcases apart_of_mem_gaps hg hh with same | apart | apart
      · exact same
      all_goals
        simp only [Encloses, Cut.le_def, Cut.lt_def] at *
        omega
    rw [← same] at hin
    exact larger.antisymm hin
  · intro hg
    obtain ⟨h, hh, hin⟩ := exists_mem_gaps_encloses hg.within hg.nonempty hg.uncovered
    have same := hg.maximal h (encloses_of_mem_gaps hh) (uncovered_of_mem_gaps hh) hin
    exact same ▸ hh

end Cached

end StationCatalog
