import StationCatalog.Proofs.CachedVersions
import StationCatalog.Proofs.ComposedLookups

/-!
What lookups depend on. Stacks agree when they store the same versions, fail alike, have the same
window and cache the same versions, whatever calls and lookups they have counted and whatever
requests they remember. A lookup of the version cache has one result over both, and leaves them in
agreement.
-/

namespace StationCatalog

open Lookup

variable {k : Kind} {w : TimeRange}

/-- Two stacks that a lookup of the version cache cannot tell apart. -/
structure Stack.Agree (s s' : Stack) : Prop where
  versions : s.repository.versions = s'.repository.versions
  failure : s.repository.failure = s'.repository.failure
  window : s.window = s'.window
  entries : s.versionCache.entries = s'.versionCache.entries

namespace VersionCache

variable {c c' : VersionCache}

theorem put_congr (h : c.entries = c'.entries) (key : VersionKey) (versions : RangeMap (Entity k)) :
    (c.put key versions).entries = (c'.put key versions).entries := by
  unfold put
  split
  · exact h
  · exact congrArg (alter key (·.put versions)) h

/-- What is cached on top depends on what was cached, not on how lookups fared. -/
theorem keep_congr (h : c.entries = c'.entries) (window : TimeRange) (es : List (Entity k)) :
    (c.keep window es).entries = (c'.keep window es).entries := by
  unfold keep
  dsimp only
  generalize EntityId.distinct _ = ids
  induction ids generalizing c c' with
  | nil => exact h
  | cons id ids ih => exact ih (put_congr h _ _)

theorem history?_congr (h : c.entries = c'.entries) (key : VersionKey) :
    c.history? key = c'.history? key := by
  rw [history?, h, ← history?]

end VersionCache

namespace Lookup

variable {α β : Type}

/-- From stacks that agree and have the window `w`, a lookup has one result, and leaves stacks that
agree and have that window. -/
def Determined (w : TimeRange) (x : Lookup α) : Prop :=
  ∀ s s', s.window = w → s.Agree s' →
    (x.perform s).1 = (x.perform s').1 ∧ (x.perform s).2.Agree (x.perform s').2 ∧
      (x.perform s).2.window = w

theorem Determined.pure (a : α) : Determined w (pure a : Lookup α) :=
  fun _ _ hs agree => ⟨rfl, agree, hs⟩

theorem Determined.throw (e : CatalogError) : Determined w (throw e : Lookup α) :=
  fun _ _ hs agree => ⟨rfl, agree, hs⟩

theorem Determined.bind {x : Lookup α} {f : α → Lookup β} (hx : Determined w x)
    (hf : ∀ a, Determined w (f a)) : Determined w (x >>= f) := by
  intro s s' hs agree
  obtain ⟨same, left, window⟩ := hx s s' hs agree
  rw [perform_bind, perform_bind]
  rcases h : x.perform s with ⟨_ | a, s₁⟩ <;> rcases h' : x.perform s' with ⟨_ | a', s₁'⟩ <;>
    rw [h] at same left window <;> rw [h'] at same left <;> cases same
  · exact ⟨rfl, left, window⟩
  · exact hf a s₁ s₁' window left

theorem Determined.closed : Closed w (Determined w) where
  pure := .pure
  refuse _ := .throw _
  bind := .bind
  window := by
    intro _ f reads hf s s' hs agree
    rw [perform_bind, perform_bind, perform_get, perform_get]
    dsimp only
    rw [← reads s s' agree.window]
    exact hf s hs s s' hs agree

end Lookup

namespace Cached

theorem determined_recallAt (id : EntityId k) (t : Instant) : Determined w (recallAt k id t) := by
  intro s s' hs agree
  have cached : s'.versionCache.hasKey (.ofId id) = s.versionCache.hasKey (.ofId id) := by
    rw [VersionCache.hasKey, ← VersionCache.history?_congr agree.entries, ← VersionCache.hasKey]
  rw [perform_recallAt, perform_recallAt, VersionCache.find?_congr agree.entries.symm, cached]
  split
  · exact ⟨rfl, ⟨agree.versions, agree.failure, agree.window, agree.entries⟩, hs⟩
  · exact ⟨rfl, agree, hs⟩

theorem determined_recallWithin (id : EntityId k) : Determined w (recallWithin k id) := by
  intro s s' hs agree
  rw [perform_recallWithin, perform_recallWithin,
    Stack.cachedVersions_congr (VersionCache.history?_congr agree.entries _)]
  exact ⟨rfl, agree, hs⟩

theorem determined_keep (es : List (Entity k)) : Determined w (keep w es) := by
  intro s s' hs agree
  refine ⟨rfl, ⟨agree.versions, agree.failure, agree.window, ?_⟩, hs⟩
  exact VersionCache.keep_congr (VersionCache.keep_congr agree.entries w es) w _

theorem determined_sourceFindAt (ids : List (EntityId k)) (t : Instant) :
    Determined w (Source.findAt k ids t) := by
  intro s s' hs agree
  rw [Source.perform_findAt, Source.perform_findAt, agree.failure]
  simp only [Repository.versionsAt, Repository.history, agree.versions, true_and]
  exact ⟨⟨agree.versions, agree.failure, agree.window, agree.entries⟩, hs⟩

theorem determined_sourceFindWithin (ids : List (EntityId k)) (start stop : Instant) :
    Determined w (Source.findWithin k ids start stop) := by
  intro s s' hs agree
  rw [Source.perform_findWithin, Source.perform_findWithin, agree.failure]
  simp only [Repository.versionsWithin, Repository.history, agree.versions, true_and]
  exact ⟨⟨agree.versions, agree.failure, agree.window, agree.entries⟩, hs⟩

theorem determined_pointParts (t : Instant) : PointParts w (Determined w) t k where
  cached _ id := determined_recallAt id t
  fetch ids := by
    refine (determined_sourceFindAt ids t).bind fun fetched => ?_
    split
    · exact (determined_keep fetched).bind fun _ => .pure fetched
    · exact .pure fetched

theorem determined_rangeParts : RangeParts w (Determined w) k where
  cached := determined_recallWithin
  fetch ids start stop := (determined_sourceFindWithin ids start stop).bind fun fetched =>
    (determined_keep fetched).bind fun _ => .pure fetched

end Cached

end StationCatalog
