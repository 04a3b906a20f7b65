import StationCatalog.Proofs.Finds
import StationCatalog.Proofs.Gaps
import StationCatalog.Proofs.Yields

/-!
What a range lookup finds cached of an entity, and what it fetches. Lookups of other entities leave
what is cached of this one. Over a range each stored version that holds in it is recalled, or a call
for a gap brings it.
-/

namespace StationCatalog

open Lookup

variable {k : Kind}

namespace Stack

/-- The cached versions of an entity with their ranges, latest first. -/
def cachedVersions (s : Stack) (id : EntityId k) : List (TimeRange × Entity k) :=
  match s.versionCache.rangeMap? k (.ofId id) with
  | some cached => cached.entries.reverse
  | none => []

def cachedRanges (s : Stack) (id : EntityId k) : List TimeRange := (s.cachedVersions id).map (·.1)

/-- The version is cached over some part of a range. -/
def RecallsWithin (s : Stack) (start stop : Instant) (v : Entity k) : Prop :=
  ∃ f ∈ s.cachedVersions v.id, f.2.version = v.version ∧
    f.1.overlaps (.closed start stop) = true

/-- The call for some gap in what is cached over a range brings the version. -/
def FetchesWithin (s : Stack) (start stop : Instant) (v : Entity k) : Prop :=
  ∃ g, (TimeRange.closed start stop).IsGap (s.cachedRanges v.id) g ∧ v.BroughtBy g

theorem not_recallsWithin_over (r : Repository) (w : TimeRange) (start stop : Instant)
    (v : Entity k) : ¬(Stack.over r w).RecallsWithin start stop v := by
  rintro ⟨f, hf, -⟩
  exact absurd hf List.not_mem_nil

theorem cachedVersions_congr {s s' : Stack} {id : EntityId k}
    (h : s'.versionCache.history? (.ofId id) = s.versionCache.history? (.ofId id)) :
    s'.cachedVersions id = s.cachedVersions id := by
  simp only [cachedVersions, VersionCache.rangeMap?, h]

/-- Caching versions of other entities, with the responses they carry, leaves what is cached of an
entity. -/
theorem cachedVersions_keep {id : EntityId k} (s : Stack) (w : TimeRange) {es : List (Entity k)}
    (h : ∀ e ∈ es, e.id ≠ id) :
    ({ s with versionCache :=
        (s.versionCache.keep w es).keep w (Entity.carriedResponses es) } : Stack).cachedVersions
      id = s.cachedVersions id := by
  apply cachedVersions_congr
  have own : ∀ e ∈ es, VersionKey.ofId e.id ≠ .ofId id := by
    intro e he same
    exact h e he (EntityId.ext (congrArg VersionKey.id same))
  have carried : ∀ e ∈ Entity.carriedResponses es, VersionKey.ofId e.id ≠ .ofId id := by
    intro e he same
    cases k with
    | channel => exact Kind.noConfusion (congrArg VersionKey.kind same)
    | stationGroup | station | channelGroup | response => exact absurd he List.not_mem_nil
  exact (VersionCache.history?_keep_of_forall_ne _ w carried).trans
    (VersionCache.history?_keep_of_forall_ne _ w own)

/-- Lookups of another kind leave what is cached under a key, unless they may bring responses. -/
theorem Effect.history?_eq {j : Kind} {s s' : Stack} (h : Effect j s s') (key : VersionKey)
    (hk : key.kind ≠ j) (hresponse : key.kind ≠ .response) :
    s'.versionCache.history? key = s.versionCache.history? key := by
  cases h with
  | call ids time => rfl
  | read id t => rfl
  | keep es stored working =>
      exact (VersionCache.history?_keep_of_ne _ _ _ hresponse).trans
        (VersionCache.history?_keep_of_ne _ _ _ hk)

theorem Effect.cachedVersions_eq {j : Kind} {s s' : Stack} (h : Effect j s s') (hk : k ≠ j)
    (hresponse : k ≠ .response) (id : EntityId k) : s'.cachedVersions id = s.cachedVersions id :=
  cachedVersions_congr (h.history?_eq (.ofId id) hk hresponse)

theorem mem_cachedVersions {S : Versions} {s : Stack} (h : s.versionCache.DrawnFrom S)
    {id : EntityId k} {f : TimeRange × Entity k} (hf : f ∈ s.cachedVersions id) :
    ∃ validity data, S k (.populated id validity data) ∧
      f.2 = (Entity.populated id validity data).demote ∧ validity.range.Encloses f.1 := by
  unfold cachedVersions at hf
  split at hf
  next m hm => exact (h.rangeMap? hm (List.mem_reverse.1 hf)).2
  next => exact absurd hf List.not_mem_nil

theorem all_cachedVersions {Q : AnyEntity → Prop} {s : Stack} (h : s.versionCache.All Q)
    {id : EntityId k} {f : TimeRange × Entity k} (hf : f ∈ s.cachedVersions id) : Q ⟨k, f.2⟩ := by
  unfold cachedVersions at hf
  split at hf
  next m hm => exact h.rangeMap? hm (List.mem_reverse.1 hf)
  next => exact absurd hf List.not_mem_nil

theorem cachedRanges_isClosedOpen {S : Versions} {s : Stack} (h : s.versionCache.DrawnFrom S)
    (id : EntityId k) : ∀ r ∈ s.cachedRanges id, r.IsClosedOpen := by
  intro r hr
  obtain ⟨f, hf, rfl⟩ := List.mem_map.1 hr
  unfold cachedVersions at hf
  split at hf
  next m hm =>
    obtain ⟨history, hhist, rfl⟩ := Option.map_eq_some_iff.1 hm
    obtain ⟨g, hg, hfg⟩ := List.mem_filterMap.1 (List.mem_reverse.1 hf)
    obtain ⟨e, -, rfl⟩ := Option.map_eq_some_iff.1 hfg
    have drawn := (h.histories _ (VersionCache.mem_of_history?_eq_some hhist)).drawn g hg
    obtain ⟨-, -, -, -, -, -, -, ends⟩ := drawn
    exact ends
  next => exact absurd hf List.not_mem_nil

variable {r : Repository} {s : Stack} {start stop : Instant}

/-- A range is cached as a whole if each of its instants is. -/
theorem coveredBy_cachedRanges {S : Versions} (h : s.versionCache.DrawnFrom S) {id : EntityId k}
    (instants : ∀ t, start ≤ t → t ≤ stop → ∃ c ∈ s.cachedRanges id, c.contains t = true) :
    (TimeRange.closed start stop).CoveredBy (s.cachedRanges id) :=
  TimeRange.coveredBy_of_contains (cachedRanges_isClosedOpen h id) instants

theorem FetchesWithin.holdsWithin {v : Entity k} (h : s.FetchesWithin start stop v)
    (ordered : start ≤ stop) : v.holdsWithin start stop = true := by
  obtain ⟨g, gap, brought⟩ := h
  exact brought.holdsWithin ordered gap.within

/-- Within a range a stored version holds at some instant; either a cached range contains it, and
what is cached there is this very version, or a gap does. -/
theorem recallsWithin_or_fetchesWithin (hr : r.Consistent)
    (drawn : s.versionCache.DrawnFrom fun j e => j = k → e ∈ r.versions j) {v : Entity k}
    (hv : v ∈ r.versions k) (ordered : start ≤ stop) (holds : v.holdsWithin start stop = true) :
    s.RecallsWithin start stop v ∨ s.FetchesWithin start stop v := by
  obtain ⟨t, ht, hstart, hstop⟩ := hr.exists_holdsAt hv ordered holds
  have inside := TimeRange.contains_closed hstart hstop
  by_cases hit : ∃ f ∈ s.cachedVersions v.id, f.1.contains t = true
  · obtain ⟨f, hf, hft⟩ := hit
    obtain ⟨validity, data, stored, hval, within⟩ := mem_cachedVersions drawn hf
    have same : v = .populated v.id validity data := by
      apply hr.disjoint k v hv _ (stored rfl) rfl t ht
      rw [Entity.holdsAt_populated]
      exact within.contains hft
    refine .inl ⟨f, hf, ?_, TimeRange.overlaps_of_contains hft inside⟩
    rw [hval, Entity.version_demote, ← same]
  · have uncovered : ∀ c ∈ s.cachedRanges v.id, c.contains t = false := by
      intro c hc
      obtain ⟨f, hf, rfl⟩ := List.mem_map.1 hc
      rw [← Bool.not_eq_true]
      exact fun hft => hit ⟨f, hf, hft⟩
    obtain ⟨gap, hgap, hin⟩ := Cached.exists_mem_gaps inside uncovered
    have isGap := Cached.mem_gaps_iff.1 hgap
    exact .inr ⟨gap, isGap, Entity.broughtBy_of_holdsAt ht hin ordered isGap.within⟩

end Stack

namespace Cached

theorem perform_recallWithin (id : EntityId k) (s : Stack) :
    (recallWithin k id).perform s = (.ok (s.cachedVersions id), s) := by
  simp only [recallWithin, perform_bind, perform_get, Stack.cachedVersions]
  cases s.versionCache.rangeMap? k (.ofId id) <;> rfl

/-- Where no gap is left, a lookup over a range resolves what is cached and does no more. -/
theorem perform_versionsWithin_of_covered (resolve : Entity k → Lookup (Option (Entity k)))
    {w : TimeRange} {start stop : Instant} {id : EntityId k} {s : Stack}
    (covered : gaps (.closed start stop) (s.cachedRanges id) = []) :
    (versionsWithin resolve w start stop id).perform s =
      (collect (fun e => resolve e.2)
        ((s.cachedVersions id).filter (·.1.overlaps (.closed start stop)))).perform s := by
  rw [versionsWithin, perform_bind, perform_recallWithin]
  dsimp only
  rw [show (s.cachedVersions id).map (·.1) = s.cachedRanges id from rfl, covered]
  simp only [gather, pure_bind, List.append_nil, bind_pure]

section

variable {id j : EntityId k} {cached : List (TimeRange × Entity k)}

/-- A call for one entity leaves what is cached of the others. -/
theorem yields_fetchWithin_of_ne (h : id ≠ j) (w : TimeRange) (start stop : Instant) :
    Yields (·.cachedVersions j = cached) (fetchWithin w k [id] start stop) fun _ => True := by
  rintro s rfl
  refine ⟨?_, fun _ _ => trivial⟩
  simp only [fetchWithin, perform_bind, Source.perform_findWithin]
  cases working : s.repository.failure with
  | some e => rfl
  | none =>
      have fetched : ∀ e ∈ s.repository.versionsWithin [id] start stop, e.id ≠ j := by
        rintro e he rfl
        exact h (List.mem_singleton.1 (Source.mem_versionsWithin.1 he).2.1).symm
      exact (Stack.cachedVersions_keep _ w fetched).trans (Stack.cachedVersions_congr rfl)

theorem yields_fetchGap_of_ne (h : id ≠ j) (w gap : TimeRange) :
    Yields (·.cachedVersions j = cached) (fetchGap w k id gap) fun _ => True := by
  unfold fetchGap
  split
  · exact yields_fetchWithin_of_ne h w _ _
  · exact .pure trivial

theorem yields_fetchGaps_of_ne (h : id ≠ j) (w : TimeRange) (gs : List TimeRange) :
    Yields (·.cachedVersions j = cached) (gather (fetchGap w k id) gs) fun _ => True := by
  have each : ∀ g ∈ gs, Yields (·.cachedVersions j = cached) (fetchGap w k id g)
      fun es => ∀ e ∈ es, True :=
    fun g _ => (yields_fetchGap_of_ne h w g).mono fun _ _ _ _ => trivial
  exact (Yields.gather each).mono fun _ _ => trivial

end

end Cached

end StationCatalog
