import StationCatalog.Proofs.Coverage

/-!
Caches of whole versions. Writing clips what was cached before, but over a consistent content what
overlaps is the same version; so as long as only stored versions are cached, each stays cached over
the whole of its validity.
-/

namespace StationCatalog

variable {k : Kind} {S : Versions}

/-- An entry holds a version of the source, cut down, over the whole of its validity. -/
def WholeEntry (S : Versions) (key : VersionKey) (f : TimeRange × AnyEntity) : Prop :=
  ∃ (id : EntityId key.kind) (validity : Validity) (data : EntityData key.kind),
    id.text = key.id ∧ S key.kind (.populated id validity data) ∧
      f = (validity.range, ⟨key.kind, (Entity.populated id validity data).demote⟩)

theorem WholeEntry.of_cacheable? {window : TimeRange} {e : Entity k} {f : TimeRange × Entity k}
    (h : VersionCache.cacheable? window e = some f) (source : S k e) :
    WholeEntry S (.ofId f.2.id) (f.1, ⟨k, f.2⟩) := by
  obtain ⟨id, validity, data, rfl, rfl⟩ := VersionCache.cacheable?_eq_some h
  exact ⟨id, validity, data, rfl, source, rfl⟩

/-- Nothing is left of a whole version but the version itself, where another is written. -/
theorem WholeEntry.clips {r : Repository} (hr : r.Consistent) {key : VersionKey}
    (stored : ∀ e, S key.kind e → e ∈ r.versions key.kind) :
    RangeMap.Clips (WholeEntry S key) := by
  rintro _ _ p ⟨id, validity, data, hid, source, rfl⟩ ⟨id', validity', data', hid', source', rfl⟩ hp
  rcases TimeRange.mem_minus.1 hp with ⟨-, rfl⟩ | ⟨overlap, clipped⟩
  · exact ⟨id, validity, data, hid, source, rfl⟩
  · obtain ⟨t, inside, inside'⟩ := Validity.exists_contains_of_overlaps overlap
    have same := hr.disjoint _ _ (stored _ source) _ (stored _ source')
      (EntityId.ext (hid.trans hid'.symm)) t (by rwa [Entity.holdsAt_populated])
      (by rwa [Entity.holdsAt_populated])
    cases same
    rcases clipped with ⟨before, -⟩ | ⟨after, -⟩
    · exact absurd before (Int.lt_irrefl _)
    · exact absurd after (Int.lt_irrefl _)

namespace VersionCache

variable {c : VersionCache}

/-- Save for responses, only versions of the source are cached, each whole. -/
def Whole (S : Versions) (c : VersionCache) : Prop :=
  c.Each fun key f => key.kind ≠ .response → WholeEntry S key f

theorem Whole.cleared (c : VersionCache) : c.clear.Whole S := fun _ h => absurd h List.not_mem_nil

/-- Caching stored versions, with the responses they carry, keeps a cache of whole versions. -/
theorem Whole.keep (h : c.Whole S) {r : Repository} (hr : r.Consistent)
    (stored : ∀ k e, S k e → e ∈ r.versions k) (window : TimeRange) {es : List (Entity k)}
    (hes : ∀ e ∈ es, S k e) :
    ((c.keep window es).keep window (Entity.carriedResponses es)).Whole S := by
  have own : (c.keep window es).Whole S := by
    refine Each.keep h ?_ window ?_
    · intro id e f p he hf hp other
      exact WholeEntry.clips hr (stored _) _ _ p (he other) (hf other) hp
    · intro e he f kept _
      exact .of_cacheable? kept (hes e he)
  refine Each.keep own ?_ window ?_
  · exact fun _ _ _ _ _ _ _ other => absurd rfl other
  · exact fun _ _ _ _ other => absurd rfl other

/-- What is cached of an entity is just these versions, cut down, each over the whole of its
validity and in order; without any of them there is no key of the entity. -/
structure HoldsExactly (c : VersionCache) (id : EntityId k) (versions : Entity k → Prop) :
    Prop where
  keyed : c.hasKey (.ofId id) = true ↔ ∃ v, versions v
  wellFormed : ∀ h, c.history? (.ofId id) = some h → h.versions.WellFormed
  entries : ∀ h, c.history? (.ofId id) = some h → ∀ f, f ∈ h.versions.entries ↔
    ∃ validity data, versions (.populated id validity data) ∧
      f = (validity.range, ⟨k, (Entity.populated id validity data).demote⟩)

/-- A cache of whole versions that holds each of them at some instant holds just these. -/
theorem Whole.holdsExactly (h : c.Whole S) (hk : k ≠ .response) {T : Versions}
    (drawn : c.DrawnFrom T) {r : Repository} (hr : r.Consistent) {id : EntityId k}
    (stored : ∀ v, S k v → v ∈ r.versions k)
    (held : ∀ v, S k v → v.id = id → ∃ t, v.holdsAt t = true ∧ c.HeldAt (.ofId id) t) :
    c.HoldsExactly id fun v => S k v ∧ v.id = id := by
  have whole : ∀ history, c.history? (.ofId id) = some history →
      ∀ f ∈ history.versions.entries, ∃ validity data, S k (.populated id validity data) ∧
        f = (validity.range, ⟨k, (Entity.populated id validity data).demote⟩) := by
    intro history hhist f hf
    obtain ⟨i, validity, data, hid, source, hval⟩ :=
      h _ (mem_of_history?_eq_some hhist) f hf hk
    have same : i = id := EntityId.ext hid
    exact ⟨validity, data, same ▸ source, same ▸ hval⟩
  refine ⟨⟨fun cached => ?_, ?_⟩, fun history hhist => ?_, fun history hhist f => ⟨?_, ?_⟩⟩
  · obtain ⟨history, hhist⟩ := Option.isSome_iff_exists.1 cached
    obtain ⟨f, hf⟩ := List.exists_mem_of_ne_nil _
      (drawn.histories _ (mem_of_history?_eq_some hhist)).held
    obtain ⟨validity, data, source, -⟩ := whole history hhist f hf
    exact ⟨_, source, rfl⟩
  · rintro ⟨v, source, own⟩
    obtain ⟨t, -, history, hhist, -⟩ := held v source own
    rw [hasKey, hhist]
    rfl
  · exact (drawn.histories _ (mem_of_history?_eq_some hhist)).wellFormed
  · intro hf
    obtain ⟨validity, data, source, same⟩ := whole history hhist f hf
    exact ⟨validity, data, ⟨source, rfl⟩, same⟩
  · rintro ⟨validity, data, ⟨source, -⟩, rfl⟩
    obtain ⟨t, holds, history', hhist', g, hg, inside⟩ := held _ source rfl
    obtain rfl := Option.some.inj (hhist.symm.trans hhist')
    obtain ⟨validity', data', source', rfl⟩ := whole history hhist g hg
    -- what is cached at an instant of the version is the version, since no other holds there
    have same := hr.disjoint k _ (stored _ source') _ (stored _ source) rfl t
      (by rwa [Entity.holdsAt_populated]) holds
    cases same
    exact hg

end VersionCache

end StationCatalog
