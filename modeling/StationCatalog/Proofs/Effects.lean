import Mathlib.Logic.Relation
import StationCatalog.Tier.Cached.Point

/-!
What lookups do to a stack, one effect at a time: a call is noted, a cached version is read, fetched
versions are cached. A lookup is traced by a relation when the stack it leaves is reached by steps
of the relation, whether it succeeds or fails, and the window stays as it is.
-/

namespace StationCatalog

open Relation (ReflTransGen)

/-- One thing that lookups of entities of a kind do to a stack. -/
inductive Stack.Effect (k : Kind) : Stack → Stack → Prop
  | call (s : Stack) (ids : List (EntityId k)) (time : RequestTime) :
    Effect k s { s with repository := s.repository.record ids time }
  | read (s : Stack) (id : EntityId k) (t : Instant) :
    Effect k s { s with versionCache := (s.versionCache.read k (.ofId id) t).2 }
  | keep (s : Stack) (es : List (Entity k)) (stored : ∀ e ∈ es, e ∈ s.repository.versions k)
    (working : s.repository.failure = none) :
    Effect k s { s with
      versionCache := (s.versionCache.keep s.window es).keep s.window (Entity.carriedResponses es) }

theorem Stack.Effect.window_eq {k : Kind} {s s' : Stack} (h : Effect k s s') :
    s'.window = s.window := by
  cases h <;> rfl

theorem Stack.Effect.versions_eq {k : Kind} {s s' : Stack} (h : Effect k s s') :
    s'.repository.versions = s.repository.versions := by
  cases h <;> rfl

theorem Stack.Effect.failure_eq {k : Kind} {s s' : Stack} (h : Effect k s s') :
    s'.repository.failure = s.repository.failure := by
  cases h <;> rfl

namespace Lookup

variable {α β : Type}

/-- A transitive relation of the stacks before and after each part of a lookup is one of the stacks
before and after the whole. A lookup that fails has run its first part only. -/
theorem relates_bind {R : Stack → Stack → Prop} (trans : ∀ {s s' s''}, R s s' → R s' s'' → R s s'')
    {x : Lookup α} {f : α → Lookup β} (hx : ∀ s, R s (x.perform s).2)
    (hf : ∀ a s, R s ((f a).perform s).2) (s : Stack) : R s ((x >>= f).perform s).2 := by
  have first := hx s
  rw [perform_bind]
  rcases h : x.perform s with ⟨_ | a, s'⟩ <;> rw [h] at first
  · exact first
  · exact trans first (hf a s')

/-- From the window `w`, the stack that a lookup leaves is reached by steps of `R`. -/
def Traced (R : Stack → Stack → Prop) (w : TimeRange) (x : Lookup α) : Prop :=
  ∀ s, s.window = w → (x.perform s).2.window = w ∧ ReflTransGen R s (x.perform s).2

variable {R : Stack → Stack → Prop} {w : TimeRange}

theorem Traced.pure (a : α) : Traced R w (pure a : Lookup α) := fun _ hs => ⟨hs, .refl⟩

theorem Traced.throw (e : CatalogError) : Traced R w (throw e : Lookup α) :=
  fun _ hs => ⟨hs, .refl⟩

theorem Traced.bind {x : Lookup α} {f : α → Lookup β} (hx : Traced R w x)
    (hf : ∀ a, Traced R w (f a)) : Traced R w (x >>= f) := by
  refine relates_bind (R := fun s s' => s.window = w → s'.window = w ∧ ReflTransGen R s s')
    ?_ hx hf
  intro s s' s'' first second hs
  obtain ⟨window, steps⟩ := first hs
  obtain ⟨window', steps'⟩ := second window
  exact ⟨window', steps.trans steps'⟩

/-- What a lookup reads off the stack is read where the window is known. -/
theorem Traced.get_bind {f : Stack → Lookup α} (hf : ∀ s, s.window = w → Traced R w (f s)) :
    Traced R w (get >>= f) := by
  intro s hs
  rw [perform_bind, perform_get]
  exact hf s hs s hs

end Lookup

open Lookup

variable {k : Kind} {R : Stack → Stack → Prop} {w : TimeRange}

namespace Source

theorem perform_receive (ids : List (EntityId k)) (time : RequestTime) (s : Stack) :
    (receive ids time).perform s =
      (match s.repository.failure with
        | some e => .error (.storage e)
        | none => .ok (), { s with repository := s.repository.record ids time }) := by
  simp only [receive, requireWorking, perform_bind, perform_modify, perform_get]
  cases h : s.repository.failure with
  | none => simp only [Repository.record, h, perform_pure]
  | some e => simp only [Repository.record, h, perform_throw]

theorem perform_findAt (ids : List (EntityId k)) (t : Instant) (s : Stack) :
    (findAt k ids t).perform s =
      (match s.repository.failure with
        | some e => .error (.storage e)
        | none => .ok (s.repository.versionsAt ids t),
        { s with repository := s.repository.record ids (.at t) }) := by
  simp only [findAt, perform_bind, perform_receive]
  cases s.repository.failure with
  | none => rfl
  | some e => rfl

theorem perform_findWithin (ids : List (EntityId k)) (start stop : Instant) (s : Stack) :
    (findWithin k ids start stop).perform s =
      (match s.repository.failure with
        | some e => .error (.storage e)
        | none => .ok (s.repository.versionsWithin ids start stop),
        { s with repository := s.repository.record ids (.within start stop) }) := by
  simp only [findWithin, perform_bind, perform_receive]
  cases s.repository.failure with
  | none => rfl
  | some e => rfl

theorem mem_of_mem_versionsAt {r : Repository} {ids : List (EntityId k)} {t : Instant}
    {e : Entity k} (h : e ∈ r.versionsAt ids t) : e ∈ r.versions k := by
  obtain ⟨id, -, he⟩ := List.mem_filterMap.1 h
  exact (List.mem_filter.1 (List.mem_of_find?_eq_some he)).1

theorem mem_versionsWithin {r : Repository} {ids : List (EntityId k)} {start stop : Instant}
    {e : Entity k} :
    e ∈ r.versionsWithin ids start stop ↔
      e ∈ r.versions k ∧ e.id ∈ ids ∧ e.holdsWithin start stop = true := by
  simp only [Repository.versionsWithin, Repository.history, List.mem_flatMap, List.mem_filter,
    decide_eq_true_eq]
  constructor
  · rintro ⟨id, hid, ⟨he, rfl⟩, holds⟩
    exact ⟨he, hid, holds⟩
  · rintro ⟨he, hid, holds⟩
    exact ⟨e.id, hid, ⟨he, rfl⟩, holds⟩

theorem traced_findAt (hR : ∀ s s', Stack.Effect k s s' → R s s') (ids : List (EntityId k))
    (t : Instant) : Traced R w (findAt k ids t) := by
  intro s hs
  rw [perform_findAt]
  exact ⟨hs, .single (hR _ _ (.call s ids _))⟩

theorem traced_findWithin (hR : ∀ s s', Stack.Effect k s s' → R s s') (ids : List (EntityId k))
    (start stop : Instant) : Traced R w (findWithin k ids start stop) := by
  intro s hs
  rw [perform_findWithin]
  exact ⟨hs, .single (hR _ _ (.call s ids _))⟩

end Source

namespace Cached

theorem perform_recallAt (id : EntityId k) (t : Instant) (s : Stack) :
    (recallAt k id t).perform s =
      (.ok (s.versionCache.find? k (.ofId id) t),
        if s.versionCache.hasKey (.ofId id) then
          { s with versionCache := (s.versionCache.read k (.ofId id) t).2 }
        else s) := by
  simp only [recallAt, perform_bind, perform_get]
  split
  next => rfl
  next h =>
    rw [VersionCache.hasKey, Bool.not_eq_true, Option.isSome_eq_false_iff,
      Option.isNone_iff_eq_none] at h
    simp only [perform_pure, VersionCache.find?, h, Option.bind_none]

theorem perform_keep (window : TimeRange) (es : List (Entity k)) (s : Stack) :
    (keep window es).perform s = (.ok (), { s with
      versionCache := (s.versionCache.keep window es).keep window (Entity.carriedResponses es) }) :=
  rfl

theorem traced_recallAt (hR : ∀ s s', Stack.Effect k s s' → R s s') (id : EntityId k)
    (t : Instant) : Traced R w (recallAt k id t) := by
  intro s hs
  rw [perform_recallAt]
  split
  · exact ⟨hs, .single (hR _ _ (.read s id t))⟩
  · exact ⟨hs, .refl⟩

/-- Caching what has just been fetched is an effect, since only a working repository answers. -/
theorem traced_keep_of_fetch (hR : ∀ s s', Stack.Effect k s s' → R s s')
    {fetch : Lookup (List (Entity k))} (hfetch : Traced R w fetch)
    (answers : ∀ s es s', fetch.perform s = (.ok es, s') →
      (∀ e ∈ es, e ∈ s'.repository.versions k) ∧ s'.repository.failure = none)
    (wanted : Bool) :
    Traced R w (do
      let fetched ← fetch
      if wanted then keep w fetched
      return fetched) := by
  intro s hs
  have first := hfetch s hs
  rw [perform_bind]
  rcases h : fetch.perform s with ⟨_ | es, s'⟩ <;> rw [h] at first
  · exact first
  · obtain ⟨stored, working⟩ := answers s es s' h
    cases wanted with
    | false => exact first
    | true =>
        obtain ⟨rfl, reached⟩ := first
        exact ⟨rfl, reached.tail (hR _ _ (.keep s' es stored working))⟩

theorem traced_fetchAt (hR : ∀ s s', Stack.Effect k s s' → R s s') (ids : List (EntityId k))
    (t : Instant) : Traced R w (fetchAt w k ids t) := by
  refine traced_keep_of_fetch hR (Source.traced_findAt hR ids t) ?_ (w.contains t)
  intro s es s' h
  rw [Source.perform_findAt] at h
  cases working : s.repository.failure with
  | none =>
      rw [working] at h
      cases h
      exact ⟨fun _ => Source.mem_of_mem_versionsAt, working⟩
  | some e =>
      rw [working] at h
      cases h

theorem traced_fetchWithin (hR : ∀ s s', Stack.Effect k s s' → R s s') (ids : List (EntityId k))
    (start stop : Instant) : Traced R w (fetchWithin w k ids start stop) := by
  refine traced_keep_of_fetch hR (Source.traced_findWithin hR ids start stop) ?_ true
  intro s es s' h
  rw [Source.perform_findWithin] at h
  cases working : s.repository.failure with
  | none =>
      rw [working] at h
      cases h
      exact ⟨fun _ he => (Source.mem_versionsWithin.1 he).1, working⟩
  | some e =>
      rw [working] at h
      cases h

end Cached

end StationCatalog
