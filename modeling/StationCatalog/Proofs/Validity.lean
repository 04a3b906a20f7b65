import StationCatalog.Entity.Basic
import StationCatalog.Proofs.Gaps

/-!
When versions hold: at the instants of their validity, and within a range as soon as they hold at an
instant of it, are cached over part of it, or are brought by the call for a gap in it.
-/

namespace StationCatalog

variable {k : Kind}

/-- A version holds at the instants of its validity. -/
theorem Validity.range_contains {v : Validity} {t : Instant} :
    v.range.contains t = (decide (v.start ≤ t) && v.stop.all (t < ·)) := by
  rw [Bool.eq_iff_iff, TimeRange.contains_iff, Bool.and_eq_true, decide_eq_true_eq]
  obtain ⟨start, stop⟩ := v
  cases stop with
  | none =>
      have last := Cut.above_lt_aboveAll t
      have first := Cut.above_lt_aboveAll start
      simp only [Validity.range, TimeRange.effective, TimeRange.atLeast, TimeRange.lower_between,
        Cut.le_def, Cut.lt_def, TimeRange.position_upper_between, Cut.position_below,
        Cut.position_above, Instant.le_def, Option.all_none, and_true] at *
      omega
  | some stop =>
      simp only [Validity.range, TimeRange.effective, TimeRange.closedOpen,
        TimeRange.lower_between, Cut.le_def, TimeRange.position_upper_between, Cut.position_below,
        Cut.position_above, Instant.le_def, Instant.lt_def, Option.all_some, decide_eq_true_eq]
      omega

theorem Validity.lower_range (v : Validity) : v.range.lower = .below v.start := by
  obtain ⟨start, stop⟩ := v
  cases stop <;> exact TimeRange.lower_between _ _

/-- Validities that overlap have an instant in common: that at which the later one starts. -/
theorem Validity.exists_contains_of_overlaps {a b : Validity}
    (h : a.range.overlaps b.range = true) :
    ∃ t, a.range.contains t = true ∧ b.range.contains t = true := by
  obtain ⟨ha, hb, hab, hba⟩ := TimeRange.overlaps_iff.1 h
  simp only [lower_range] at ha hb hab hba
  simp only [TimeRange.contains_iff_covers, TimeRange.Covers, lower_range]
  by_cases later : a.start ≤ b.start
  · refine ⟨b.start, ⟨?_, hba⟩, Int.le_refl _, hb⟩
    simp only [Cut.le_def, Cut.position_below, Instant.le_def] at *
    omega
  · refine ⟨a.start, ⟨Int.le_refl _, ha⟩, ?_, hab⟩
    simp only [Cut.le_def, Cut.position_below, Instant.le_def] at *
    omega

theorem Entity.holdsAt_iff {e : Entity k} {t : Instant} :
    e.holdsAt t = true ↔ (∃ s, e.start? = some s ∧ s ≤ t) ∧ ∀ u, e.stop? = some u → t < u := by
  simp only [holdsAt, Bool.and_eq_true, Option.any_eq_true, Option.all_eq_true, decide_eq_true_eq]

theorem Entity.holdsAt_populated (id : EntityId k) (validity : Validity) (data : EntityData k)
    (t : Instant) :
    (populated id validity data).holdsAt t = validity.range.contains t :=
  Validity.range_contains.symm

namespace Entity

theorem holdsWithin_iff {e : Entity k} {start stop : Instant} :
    e.holdsWithin start stop = true ↔
      (∃ s, e.start? = some s ∧ s ≤ stop) ∧ ∀ u, e.stop? = some u → start < u := by
  simp only [holdsWithin, Bool.and_eq_true, Option.any_eq_true, Option.all_eq_true,
    decide_eq_true_eq]

theorem holdsWithin_of_holdsAt {e : Entity k} {start stop t : Instant} (h : e.holdsAt t = true)
    (hstart : start ≤ t) (hstop : t ≤ stop) : e.holdsWithin start stop = true := by
  obtain ⟨⟨s, hs, hst⟩, hu⟩ := holdsAt_iff.1 h
  exact holdsWithin_iff.2 ⟨⟨s, hs, Int.le_trans hst hstop⟩,
    fun u h => Int.lt_of_le_of_lt hstart (hu u h)⟩

theorem holdsWithin_mono {e : Entity k} {start stop first last : Instant}
    (h : e.holdsWithin first last = true) (hstart : start ≤ first) (hstop : last ≤ stop) :
    e.holdsWithin start stop = true := by
  obtain ⟨⟨s, hs, hlast⟩, hu⟩ := holdsWithin_iff.1 h
  exact holdsWithin_iff.2 ⟨⟨s, hs, Int.le_trans hlast hstop⟩,
    fun u h => Int.lt_of_le_of_lt hstart (hu u h)⟩

theorem holdsWithin_of_overlaps {id : EntityId k} {validity : Validity} {data : EntityData k}
    {f : TimeRange} {start stop : Instant} (within : validity.range.Encloses f)
    (h : f.overlaps (.closed start stop) = true) (ordered : start ≤ stop) :
    (populated id validity data).holdsWithin start stop = true := by
  obtain ⟨first, last⟩ := validity
  obtain ⟨lower, upper⟩ := within
  have edge := TimeRange.position_upper_closed ordered
  rw [TimeRange.overlaps_iff, TimeRange.lower_closed] at h
  refine holdsWithin_iff.2 ⟨⟨first, rfl, ?_⟩, ?_⟩
  · rw [Validity.lower_range] at lower
    simp only [Cut.le_def, Cut.lt_def, Cut.position_below, Instant.le_def] at *
    omega
  · rintro u ⟨⟩
    simp only [Validity.range, TimeRange.effective, TimeRange.closedOpen, TimeRange.lower_between,
      Cut.le_def, Cut.lt_def, TimeRange.position_upper_between, Cut.position_below,
      Instant.lt_def] at *
    omega

/-- The call for a gap brings the entity: it holds within the ends of the gap. -/
def BroughtBy (e : Entity k) (gap : TimeRange) : Prop :=
  ∃ first last, gap.lower.endpoint? = some first ∧ gap.upper.endpoint? = some last ∧
    e.holdsWithin first last = true

theorem BroughtBy.holdsWithin {e : Entity k} {gap : TimeRange} (h : e.BroughtBy gap)
    {start stop : Instant} (ordered : start ≤ stop)
    (within : (TimeRange.closed start stop).Encloses gap) : e.holdsWithin start stop = true := by
  obtain ⟨first, last, hfirst, hlast, holds⟩ := h
  obtain ⟨first', last', hfirst', hlast', hstart, hstop⟩ :=
    TimeRange.exists_endpoints ordered within
  obtain rfl := Option.some.inj (hfirst.symm.trans hfirst')
  obtain rfl := Option.some.inj (hlast.symm.trans hlast')
  exact holdsWithin_mono holds hstart hstop

theorem broughtBy_of_holdsAt {e : Entity k} {gap : TimeRange} {t : Instant}
    (h : e.holdsAt t = true) (hin : gap.contains t = true) {start stop : Instant}
    (ordered : start ≤ stop) (within : (TimeRange.closed start stop).Encloses gap) :
    e.BroughtBy gap := by
  obtain ⟨first, last, hfirst, hlast, -⟩ := TimeRange.exists_endpoints ordered within
  obtain ⟨hft, htl⟩ := TimeRange.between_endpoints hin hfirst hlast
  exact ⟨first, last, hfirst, hlast, holdsWithin_of_holdsAt h hft htl⟩

end Entity

end StationCatalog
