import StationCatalog.Proofs.Coverage
import StationCatalog.Proofs.RangeLookups

/-!
Lookups over a range that resolve nothing: those of any kind but stations, and those of stations of
which nothing is cached. They cache only the entities that are looked up and what these carry.
-/

namespace StationCatalog

open Lookup

variable {k : Kind}

namespace VersionCache

variable {A : (k : Kind) → EntityId k → Prop} {c : VersionCache}

/-- Only entities with `A` are cached. -/
def Keyed (A : (k : Kind) → EntityId k → Prop) (c : VersionCache) : Prop :=
  ∀ (k : Kind) (id : EntityId k), c.hasKey (.ofId id) = true → A k id

theorem not_hasKey_of_empty (empty : c.entries = []) (key : VersionKey) :
    ¬c.hasKey key = true := by
  rw [hasKey, history?, empty]
  exact Bool.false_ne_true

theorem keyed_clear (c : VersionCache) : c.clear.Keyed A := fun _ _ h => nomatch h

theorem Keyed.keep (h : c.Keyed A) (window : TimeRange) {es : List (Entity k)}
    (hes : ∀ e ∈ es, A k e.id) : (c.keep window es).Keyed A := by
  intro j id cached
  by_cases own : ∃ e ∈ es, VersionKey.ofId e.id = .ofId id
  · obtain ⟨e, he, same⟩ := own
    obtain rfl : k = j := congrArg VersionKey.kind same
    exact EntityId.ext (congrArg VersionKey.id same) ▸ hes e he
  · have others : ∀ e ∈ es, VersionKey.ofId e.id ≠ .ofId id := fun e he same => own ⟨e, he, same⟩
    rw [hasKey, history?_keep_of_forall_ne c window others] at cached
    exact h j id cached

end VersionCache

/-- A stack whose repository fails, and in which nothing is cached. -/
structure Stack.Failing (s : Stack) : Prop where
  failing : s.repository.failure ≠ none
  empty : s.versionCache.entries = []

/-- In the cache there is nothing of an entity that is not cached. -/
theorem Stack.cachedVersions_of_not_hasKey {s : Stack} {id : EntityId k}
    (h : ¬s.versionCache.hasKey (.ofId id) = true) : s.cachedVersions id = [] := by
  rw [VersionCache.hasKey, Bool.not_eq_true, Option.isSome_eq_false_iff,
    Option.isNone_iff_eq_none] at h
  rw [cachedVersions, VersionCache.rangeMap?, h, Option.map_none]

namespace Cached

section

variable {start stop : Instant} {ids : List (EntityId k)}
  {resolve : Entity k → Lookup (Option (Entity k))}

theorem perform_bind_congr {α β : Type} {x : Lookup α} {f g : α → Lookup β} {s : Stack}
    (h : ∀ a s', x.perform s = (.ok a, s') → (f a).perform s' = (g a).perform s') :
    (x >>= f).perform s = (x >>= g).perform s := by
  rw [perform_bind, perform_bind]
  rcases result : x.perform s with ⟨_ | a, s'⟩
  · rfl
  · exact h a s' result

/-- What every call within the range keeps, a lookup of one entity keeps. -/
theorem yields_versionsWithin {P : Stack → Prop} {w : TimeRange} {id : EntityId k}
    (ordered : start ≤ stop) (fetch : ∀ first last, start ≤ first → last ≤ stop →
      Yields P (fetchWithin w k [id] first last) fun _ => True) :
    Yields P (versionsWithin (fun e => return some e) w start stop id) fun _ => True := by
  have recalled : Yields P (recallWithin k id) fun _ => True := by
    intro s hs
    rw [perform_recallWithin]
    exact ⟨hs, fun _ _ => trivial⟩
  refine recalled.bind fun found _ => ?_
  have resolved : Yields P
      (collect (fun e => (return some e.2 : Lookup (Option (Entity k))))
        (found.filter (·.1.overlaps (.closed start stop)))) fun es => ∀ e ∈ es, True :=
    .collect fun _ _ => .pure fun _ _ => trivial
  have fetched : Yields P
      (gather (fetchGap w k id) (gaps (.closed start stop) (found.map (·.1))))
      fun es => ∀ e ∈ es, True := by
    refine .gather fun gap hgap => ?_
    obtain ⟨first, last, hfirst, hlast, hstart, hstop⟩ :=
      TimeRange.exists_endpoints ordered (encloses_of_mem_gaps hgap)
    simp only [fetchGap, hfirst, hlast]
    exact (fetch first last hstart hstop).mono fun _ _ _ _ => trivial
  exact resolved.bind fun _ _ => fetched.bind fun _ _ => .pure trivial

theorem perform_gather_of_vacant (w : TimeRange) {s : Stack} (ordered : start ≤ stop)
    (distinct : ids.Nodup) (vacant : ∀ id ∈ ids, s.cachedVersions id = []) :
    (gather (versionsWithin resolve w start stop) ids).perform s =
      (gather (versionsWithin (fun e => return some e) w start stop) ids).perform s := by
  induction ids generalizing s with
  | nil => rfl
  | cons id ids ih =>
      obtain ⟨other, distinct⟩ := List.nodup_cons.1 distinct
      obtain ⟨first, vacant⟩ := List.forall_mem_cons.1 vacant
      have same : (versionsWithin resolve w start stop id).perform s =
          (versionsWithin (fun e => return some e) w start stop id).perform s := by
        simp only [versionsWithin, perform_bind, perform_recallWithin, first, List.filter_nil]
        rfl
      rw [gather, gather, perform_bind, same, ← perform_bind]
      apply perform_bind_congr
      intro found s' left
      rw [perform_bind, ih distinct, ← perform_bind]
      intro i hi
      have apart : id ≠ i := by
        rintro rfl
        exact other hi
      have spared := (yields_versionsWithin (w := w) ordered
        (fun first last _ _ => yields_fetchWithin_of_ne apart w first last) s (vacant i hi)).1
      rw [left] at spared
      exact spared

/-- Where nothing is cached of the wanted entities, nothing is resolved. -/
theorem perform_rangeLookup_of_vacant {s : Stack} (vacant : ∀ id ∈ ids, s.cachedVersions id = []) :
    (rangeLookup resolve ids start stop).perform s =
      (rangeLookup (fun e => return some e) ids start stop).perform s := by
  apply perform_bind_congr
  intro _ s₁ checked
  obtain rfl : s = s₁ := by
    simpa only [checked] using (Yields.requireIds ids s rfl).1
  apply perform_bind_congr
  intro _ s₂ checked
  obtain ⟨same, ordered⟩ := Yields.requireOrder (P := (s = ·)) start stop s rfl
  rw [checked] at same ordered
  obtain rfl : s = s₂ := same
  apply perform_bind_congr
  rintro _ _ ⟨⟩
  have distinct := Sorted.nodup_of_pairwise (EntityId.pairwise_distinct ids)
  rw [perform_bind, perform_gather_of_vacant _ (ordered _ rfl) distinct fun id hid =>
    vacant id (EntityId.mem_distinct.1 hid), ← perform_bind]

theorem ends_fetchWithin_of_failing (w : TimeRange) (ids : List (EntityId k)) :
    Ends Stack.Failing (fetchWithin w k ids start stop) (fun _ _ => False) fun _ => True := by
  rintro s ⟨failing, -⟩
  simp only [fetchWithin, perform_bind, Source.perform_findWithin]
  cases failed : s.repository.failure with
  | none => exact absurd failed failing
  | some e =>
      refine ⟨?_, fun _ _ => trivial⟩
      rintro _ ⟨⟩

theorem ends_versionsWithin_of_failing (w : TimeRange) (ordered : start ≤ stop) (id : EntityId k) :
    Ends Stack.Failing (versionsWithin (fun e => return some e) w start stop id)
      (fun _ _ => False) fun _ => True := by
  have recalled : Ends Stack.Failing (recallWithin k id)
      (fun cached s => s.Failing ∧ cached = []) fun _ => True := by
    rintro s ⟨failing, empty⟩
    rw [perform_recallWithin]
    refine ⟨?_, fun _ _ => trivial⟩
    rintro _ ⟨⟩
    exact ⟨⟨failing, empty⟩,
      Stack.cachedVersions_of_not_hasKey (VersionCache.not_hasKey_of_empty empty _)⟩
  refine recalled.bind fun cached => .given ?_
  rintro rfl
  -- nothing covers the start of the range, so there is a gap, and the call for it fails
  have uncovered : ∀ c ∈ ([] : List TimeRange), c.contains start = false :=
    fun _ h => absurd h List.not_mem_nil
  obtain ⟨gap, hgap, -⟩ :=
    exists_mem_gaps (TimeRange.contains_closed (Int.le_refl _) ordered) uncovered
  have each : ∀ g ∈ gaps (.closed start stop) [],
      Ends Stack.Failing (fetchGap w k id g) (fun _ _ => False) fun _ => True := by
    intro g hg
    obtain ⟨first, last, hfirst, hlast, -⟩ :=
      TimeRange.exists_endpoints ordered (encloses_of_mem_gaps hg)
    simp only [fetchGap, hfirst, hlast]
    exact ends_fetchWithin_of_failing w [id]
  have fetched := Ends.gather_mem hgap (each gap hgap)
    (fun g hg => (each g hg).mono fun _ _ => False.elim) fun _ _ _ => False.elim
  exact fetched.bind fun _ _ => False.elim

/-- While the repository fails and nothing is cached, a lookup over a range of something fails. -/
theorem ends_rangeLookup_of_failing (wanted : ids ≠ []) :
    Ends Stack.Failing (rangeLookup (fun e => return some e) ids start stop) (fun _ _ => False)
      fun _ => True := by
  refine (Ends.requireIds fun _ => trivial).bind fun _ => .given fun _ =>
    (Ends.of_yields (Yields.requireOrder start stop)).bind fun _ => Ends.weaken (.given ?_)
      fun _ hs => hs.symm
  refine fun ordered => .get_bind fun s _ => ?_
  have each := ends_versionsWithin_of_failing s.window (ordered : start ≤ stop) (k := k)
  obtain ⟨id, hid⟩ := List.exists_mem_of_ne_nil ids wanted
  have found := Ends.gather_mem (EntityId.mem_distinct.2 hid) (each id)
    (fun i _ => (each i).mono fun _ _ => False.elim) fun _ _ _ => False.elim
  exact found.bind fun _ _ => False.elim

/-- A lookup over a range of nothing finds nothing. -/
theorem ends_rangeLookup_nil (P : Stack → Prop) (resolve : Entity k → Lookup (Option (Entity k))) :
    Ends P (rangeLookup resolve [] start stop) (fun es s => P s ∧ es = []) fun _ => True := by
  refine (Ends.requireIds fun _ => trivial).bind fun _ => .given fun _ =>
    (Ends.of_yields (Yields.requireOrder start stop)).bind fun _ => Ends.weaken (.get_bind
      fun s _ => ?_) fun _ hs => hs.2
  exact .pure fun _ hs => ⟨hs, rfl⟩

end

section

variable {r : Repository} {w : TimeRange} {P : Stack → Prop} {start stop : Instant}
  {ids : List (EntityId k)} {A : (k : Kind) → EntityId k → Prop}

theorem ends_rangeLookup_named (resolve : Entity k → Lookup (Option (Entity k))) :
    Ends P (rangeLookup resolve ids start stop) (fun _ _ => Named ids) fun _ => True :=
  (Ends.requireIds fun _ => trivial).bind fun _ => .given fun named =>
    (Ends.any _).mono fun _ _ _ => named

variable (hP : Stack.Grounded r w k P)

include hP

/-- The versions that a lookup over a range finds, if its names are let through. -/
theorem ends_rangeLookup_found (hr : r.Consistent) (ordered : start ≤ stop) :
    Ends P (rangeLookup (fun e => return some e) ids start stop)
      (fun es s => (∀ e, e ∈ es.map Entity.demote ↔ ∃ v ∈ r.versions k, v.id ∈ ids ∧
        v.holdsWithin start stop = true ∧ v.demote = e) ∧ P s) fun _ => True := by
  by_cases named : Named ids
  · exact (Ends.of_leads (finds_rangeLookup hr hP named ordered)).mono
      fun _ _ h => ⟨h.1.2, h.2⟩
  · exact (ends_rangeLookup_named _).mono fun _ _ h => absurd h named

/-- What is known of the cache stays known as long as it survives caching stored versions of the
wanted entities that hold within the range, with the responses they carry. -/
theorem yields_rangeLookup_cached {I : VersionCache → Prop}
    (kept : ∀ c, I c → ∀ es : List (Entity k), (∀ e ∈ es, e ∈ r.versions k ∧ e.id ∈ ids ∧
      e.holdsWithin start stop = true) → I ((c.keep w es).keep w (Entity.carriedResponses es))) :
    Yields (fun s => P s ∧ I s.versionCache)
      (rangeLookup (fun e => return some e) ids start stop) fun _ => True := by
  have fetched : ∀ id ∈ ids, ∀ first last, start ≤ first → last ≤ stop →
      Yields (fun s => P s ∧ I s.versionCache) (fetchWithin w k [id] first last)
        fun _ => True := by
    rintro id hid first last hstart hstop s ⟨hs, cached⟩
    obtain ⟨-, -, -, left⟩ := finds_fetchWithin hP.toServed [id] first last s hs
    refine ⟨⟨left, ?_⟩, fun _ _ => trivial⟩
    have serving := hP.serving s hs
    simp only [fetchWithin, perform_bind, Source.perform_findWithin, serving.working]
    refine kept _ cached _ fun e he => ?_
    obtain ⟨stored, own, holds⟩ := Source.mem_versionsWithin.1 he
    rw [serving.versions] at stored
    exact ⟨stored, List.mem_singleton.1 own ▸ hid, Entity.holdsWithin_mono holds hstart hstop⟩
  refine (Yields.requireIds ids).bind fun _ _ => (Yields.requireOrder start stop).bind
    fun _ ordered => .get_bind ?_
  rintro s ⟨hs, -⟩
  rw [(hP.serving s hs).window]
  have each : ∀ id ∈ EntityId.distinct ids, Yields (fun s => P s ∧ I s.versionCache)
      (versionsWithin (fun e => return some e) w start stop id) fun es => ∀ e ∈ es, True :=
    fun id hid => (yields_versionsWithin ordered (fetched id (EntityId.mem_distinct.1 hid))).mono
      fun _ _ _ _ => trivial
  exact (Yields.gather each).bind fun _ _ => .pure trivial

/-- Only what is looked up is cached, and what it carries. -/
theorem yields_rangeLookup_keyed (own : ∀ id ∈ ids, A k id)
    (carried : ∀ v ∈ r.versions k, v.id ∈ ids → v.holdsWithin start stop = true →
      ∀ e ∈ Entity.carriedResponses [v], A .response e.id) :
    Yields (fun s => P s ∧ s.versionCache.Keyed A)
      (rangeLookup (fun e => return some e) ids start stop) fun _ => True := by
  refine yields_rangeLookup_cached hP fun c keyed es brought => ?_
  refine (keyed.keep w fun e he => own _ (brought e he).2.1).keep w fun e he => ?_
  cases k with
  | channel =>
      obtain ⟨c, hc, hce⟩ := List.mem_filterMap.1 he
      obtain ⟨stored, hid, holds⟩ := brought c hc
      exact carried c stored hid holds e (List.mem_filterMap.2 ⟨c, List.mem_cons_self, hce⟩)
  | stationGroup | station | channelGroup | response => exact absurd he List.not_mem_nil

end

end Cached

end StationCatalog
