import StationCatalog.Proofs.StoredVersions
import StationCatalog.Proofs.Validity

/-!
Two ways to tell when a stored version holds: by its start and stop, as the repository does, and by
the range of its validity, as the cache does. They agree at every instant. Over a range they agree
on every version but those that stop no later than they start: such a version holds at no instant
and its validity overlaps nothing, yet the repository finds it.
-/

namespace StationCatalog

variable {k : Kind}

namespace Validity

/-- A validity is empty when it stops no later than it starts. -/
theorem isEmpty_range_iff {v : Validity} :
    v.range.isEmpty = true ↔ ∃ u, v.stop = some u ∧ u ≤ v.start := by
  obtain ⟨start, stop⟩ := v
  rw [← Bool.not_eq_false, TimeRange.isEmpty_eq_false_iff, lower_range]
  cases stop with
  | none =>
      have last := Cut.above_lt_aboveAll start
      simp only [range, TimeRange.effective, TimeRange.atLeast, Cut.lt_def,
        TimeRange.position_upper_between, Cut.position_below, Cut.position_above, reduceCtorEq,
        false_and, exists_false, iff_false, not_not] at *
      omega
  | some u =>
      simp only [range, TimeRange.effective, TimeRange.closedOpen, Cut.lt_def,
        TimeRange.position_upper_between, Cut.position_below, Option.some.injEq, exists_eq_left',
        Instant.le_def]
      omega

/-- A validity overlaps a closed range when it is not empty, starts before the range ends and stops
after it begins. -/
theorem overlaps_closed_iff {v : Validity} {first last : Instant} (ordered : first ≤ last) :
    v.range.overlaps (.closed first last) = true ↔
      v.range.isEmpty = false ∧ v.start ≤ last ∧ ∀ u, v.stop = some u → first < u := by
  have edge := TimeRange.position_upper_closed ordered
  obtain ⟨start, stop⟩ := v
  rw [TimeRange.overlaps_iff, TimeRange.isEmpty_eq_false_iff, TimeRange.lower_closed, lower_range]
  refine and_congr_right fun nonempty => ?_
  cases stop with
  | none =>
      have top := Cut.above_lt_aboveAll first
      simp only [range, TimeRange.effective, TimeRange.atLeast, Cut.lt_def,
        TimeRange.position_upper_between, Cut.position_below, Cut.position_above, Instant.le_def,
        reduceCtorEq, false_implies, implies_true, and_true] at *
      omega
  | some u =>
      simp only [range, TimeRange.effective, TimeRange.closedOpen, Cut.lt_def,
        TimeRange.position_upper_between, Cut.position_below, Option.some.injEq, forall_eq',
        Instant.le_def, Instant.lt_def] at *
      omega

end Validity

namespace Entity

/-- The entity as a version: when it holds is told by its start and its stop. -/
theorem holdsAt_of_start? {e : Entity k} {s : Instant} (started : e.start? = some s) (t : Instant) :
    e.holdsAt t = (TimeRange.effective s e.stop?).contains t := by
  rw [holdsAt, started, Option.any_some]
  exact (Validity.range_contains (v := ⟨s, e.stop?⟩)).symm

theorem holdsWithin_of_start? {e : Entity k} {s : Instant} (started : e.start? = some s)
    (first last : Instant) : e.holdsWithin first last = true ↔
      s ≤ last ∧ ∀ u, e.stop? = some u → first < u := by
  rw [holdsWithin_iff, started]
  simp only [Option.some.injEq, exists_eq_left']

end Entity

namespace Operation

/-- Whatever was stored, in whichever order and in how many calls: a stored version holds at the
instants of its validity, and if this is not empty, the version is found over a range exactly when
the two overlap. A version whose validity is empty overlaps nothing and is found all the same when
it starts before the range ends and stops after it begins. -/
theorem stored_validity (ops : List Operation) (window : TimeRange) (id : EntityId k)
    {first last : Instant} (ordered : first ≤ last) :
    let r := (run ops (.fresh window)).repository
    ∀ e ∈ r.history id, ∃ s, e.start? = some s ∧
      let v := TimeRange.effective s e.stop?
      let found := e ∈ r.versionsWithin [id] first last
      (∀ t, e.holdsAt t = v.contains t) ∧
      (v.isEmpty = false → (found ↔ v.overlaps (.closed first last) = true)) ∧
      (v.isEmpty = true ↔ ∃ u, e.stop? = some u ∧ u ≤ s) ∧
      (v.isEmpty = true → v.overlaps (.closed first last) = false ∧
        (found ↔ s ≤ last ∧ ∀ u, e.stop? = some u → first < u)) := by
  intro r e he
  have versions : r.versions k = (stored k ops (.fresh window)).foldl Repository.storeVersion [] :=
    versions_run ops _ k
  obtain ⟨s, stored⟩ := (Repository.mem_history_iff versions).1 he
  have started : e.start? = some s := (of_lastStored_eq_some stored).2
  have found : e ∈ r.versionsWithin [id] first last ↔
      s ≤ last ∧ ∀ u, e.stop? = some u → first < u := by
    obtain ⟨there, own⟩ := List.mem_filter.1 he
    rw [Source.mem_versionsWithin, ← Entity.holdsWithin_of_start? started]
    exact ⟨fun h => h.2.2, fun h => ⟨there, List.mem_singleton.2 (of_decide_eq_true own), h⟩⟩
  have overlaps := Validity.overlaps_closed_iff (v := ⟨s, e.stop?⟩) ordered
  refine ⟨s, started, Entity.holdsAt_of_start? started, fun nonempty => ?_,
    Validity.isEmpty_range_iff (v := ⟨s, e.stop?⟩), fun empty => ⟨?_, found⟩⟩
  · exact found.trans (overlaps.trans (and_iff_right nonempty)).symm
  · refine Bool.eq_false_iff.2 fun meet => ?_
    exact absurd empty (ne_true_of_eq_false (overlaps.1 meet).1)

/-- Two versions of a response, one that holds from the start to the change and one that would stop
before the change at which it starts. -/
def storesInverted : List Operation :=
  [.store .response [Sample.response (.ofUuid (.ofNat 7)) ⟨.origin, some Sample.change⟩,
    Sample.response (.ofUuid (.ofNat 7)) ⟨Sample.change, some Sample.midway⟩]]

/-- The version that holds up to the change is found where its validity overlaps the range. -/
theorem stored_validity_inverted :
    let r := (run storesInverted (.fresh .all)).repository
    let e := Sample.response (.ofUuid (.ofNat 7)) ⟨.origin, some Sample.change⟩
    Instant.origin ≤ Sample.midway ∧ e ∈ r.history (.ofUuid (.ofNat 7)) ∧ ∃ s, e.start? = some s ∧
      (TimeRange.effective s e.stop?).isEmpty = false ∧
      (e ∈ r.versionsWithin [.ofUuid (.ofNat 7)] .origin Sample.midway ↔
        (TimeRange.effective s e.stop?).overlaps (.closed .origin Sample.midway) = true) := by
  intro r e
  have ordered : Instant.origin ≤ Sample.midway := by decide
  have stored : e ∈ r.history (.ofUuid (.ofNat 7)) := .head _
  obtain ⟨s, started, -, nonempty, -, -⟩ :=
    stored_validity storesInverted .all (.ofUuid (.ofNat 7)) ordered e stored
  obtain rfl := Option.some.inj started
  exact ⟨ordered, stored, .origin, rfl, by decide, nonempty (by decide)⟩

/-- The version that would stop before it starts is found over a range that its validity does not
overlap, at none of whose instants it holds. -/
theorem stored_validity_fails :
    let r := (run storesInverted (.fresh .all)).repository
    let e := Sample.response (.ofUuid (.ofNat 7)) ⟨Sample.change, some Sample.midway⟩
    e ∈ r.history (.ofUuid (.ofNat 7)) ∧
      e ∈ r.versionsWithin [.ofUuid (.ofNat 7)] .origin Sample.change ∧
      (TimeRange.effective Sample.change (some Sample.midway)).overlaps
        (.closed .origin Sample.change) = false := by
  intro r e
  refine ⟨.tail _ (.head _), .tail _ (.head _), by decide⟩

end Operation

end StationCatalog
