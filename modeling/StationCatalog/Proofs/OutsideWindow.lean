import StationCatalog.Proofs.ArgumentChecks
import StationCatalog.Proofs.CalledLookups

/-!
Lookups at an instant outside the window. They neither read nor write the version cache, at any
depth and on either tier, so the first thing they do is to ask the repository for all they want.
-/

namespace StationCatalog

open Lookup

variable {k : Kind} {w : TimeRange} {t : Instant}

/-- The version cache as it was, with its boundaries and its statistics. -/
def Stack.SparesVersions (s s' : Stack) : Prop := s'.versionCache = s.versionCache

open Stack (SparesVersions)

theorem Stack.SparesVersions.of_steps {s s' : Stack}
    (h : Relation.ReflTransGen SparesVersions s s') : s.SparesVersions s' := by
  induction h with
  | refl => rfl
  | tail _ step ih => exact Eq.trans step ih

namespace Cached

section

variable (outside : w.contains t = false)

include outside

/-- What is fetched outside the window is not cached. -/
theorem fetchAt_of_outside (ids : List (EntityId k)) : fetchAt w k ids t = Source.findAt k ids t := by
  simp only [fetchAt, outside, Bool.false_eq_true, if_false, bind_pure]

theorem sparing_pointParts (k : Kind) : PointParts w (Traced SparesVersions w) t k where
  cached inside _ := absurd inside (Bool.eq_false_iff.1 outside)
  fetch ids := by
    rw [fetchAt_of_outside outside]
    intro s hs
    rw [Source.perform_findAt]
    exact ⟨hs, .single rfl⟩

end

variable {s : Stack}

/-- Outside the window nothing is recalled, so everything wanted is asked for at once. -/
theorem perform_findAt_of_outside (outside : s.window.contains t = false) {ids : List (EntityId k)}
    (named : Named ids) (some : ids ≠ []) :
    (findAt k ids t).perform s = (do
      let fetched ← Source.findAt k (EntityId.distinct ids) t
      return Entity.distinctVersions (← collect (resolveAt t k) fetched)).perform s := by
  obtain ⟨id, hid⟩ := List.exists_mem_of_ne_nil ids some
  have wanted : (EntityId.distinct ids).isEmpty = false :=
    List.isEmpty_eq_false_iff.2 (List.ne_nil_of_mem (EntityId.mem_distinct.2 hid))
  have missing : unanswered (EntityId.distinct ids) ([] : List (Entity k)) =
      EntityId.distinct ids := List.filter_eq_self.2 fun _ _ => rfl
  rw [findAt_eq_pointLookup, pointLookup_eq, requireIds_of_named named, pure_bind, perform_bind,
    perform_get]
  simp only [recallWanted, outside, Bool.false_eq_true, if_false, pure_bind, missing, fetchMissing,
    wanted, fetchAt_of_outside outside, List.nil_append, bind_assoc]

/-- The call for what is wanted comes first, and the calls after it are for kinds below. -/
theorem calls_findAt_of_outside (outside : s.window.contains t = false)
    (working : s.repository.failure = none) {ids : List (EntityId k)} (named : Named ids)
    (some : ids ≠ []) :
    ∃ rest, ((findAt k ids t).perform s).2.repository.calls =
        s.repository.calls ++ ⟨k, (EntityId.distinct ids).map (·.text), .at t⟩ :: rest ∧
      ∀ call ∈ rest, k.rank < call.kind.rank := by
  rw [perform_findAt_of_outside outside named some, perform_bind, Source.perform_findAt, working]
  dsimp only
  have resolving : ∀ fetched : List (Entity k), Traced (Stack.AsksBelow k) s.window
      (do return Entity.distinctVersions (← collect (resolveAt t k) fetched)) :=
    fun fetched => (Traced.closed.collect (traced_resolveAt_below t) fetched).bind fun _ => .pure _
  let asked : Stack := { s with repository := s.repository.record (EntityId.distinct ids) (.at t) }
  obtain ⟨rest, added, below⟩ := Stack.AsksBelow.of_steps (resolving _ asked rfl).2
  exact ⟨rest, added.trans (List.append_assoc s.repository.calls [_] rest), below⟩

end Cached

namespace CachingTier

/-- Lookups out of the window retain nothing: whatever they return, plain or faceted, on either tier
they leave the version cache and the window exactly as they were. On the tier with the version cache
a plain lookup over a working repository always makes one call of its own kind, before any other,
for all that it wants. -/
theorem find_out_of_window {s : Stack} {t : Instant} (outside : s.window.contains t = false)
    (k : Kind) (ids : List (EntityId k)) :
    (∀ tier : CachingTier,
      let plain := (tier.find k ids (.at t)).perform s
      plain.2.versionCache = s.versionCache ∧ plain.2.window = s.window) ∧
    (∀ (tier : CachingTier) (f : Faceting),
      let faceted := (tier.findFaceted k ids t f).perform s
      faceted.2.versionCache = s.versionCache ∧ faceted.2.window = s.window) ∧
    (s.repository.failure = none → Named ids → ids ≠ [] →
      ∃ (wanted : List (EntityId k)) (rest : List Call),
        wanted.Pairwise (EntityId.compare · · = .lt) ∧ (∀ id, id ∈ wanted ↔ id ∈ ids) ∧
        ((cached.find k ids (.at t)).perform s).2.repository.calls =
          s.repository.calls ++ ⟨k, wanted.map (·.text), .at t⟩ :: rest ∧
        ∀ call ∈ rest, k.rank < call.kind.rank) := by
  have spared : ∀ {x : Lookup (List (Entity k))}, Traced SparesVersions s.window x →
      (x.perform s).2.versionCache = s.versionCache ∧ (x.perform s).2.window = s.window :=
    fun traced => ⟨SparesVersions.of_steps (traced s rfl).2, (traced s rfl).1⟩
  have parts := fun k => Cached.sparing_pointParts outside k
  have consults : Memoised.Consults (Traced SparesVersions s.window)
      (Traced SparesVersions s.window) := Memoised.traced_consult fun _ _ => rfl
  refine ⟨fun tier => spared ?_, fun tier f => spared ?_, fun working named some => ?_⟩
  · cases tier with
    | cached => exact Traced.closed.findAt parts k ids
    | memoised => exact Traced.closed.memoisedFindAt Traced.closed consults parts k ids
  · cases tier with
    | cached => exact Traced.closed.findFaceted parts k ids f
    | memoised => exact Traced.closed.memoisedFindFaceted Traced.closed consults parts k ids f
  · obtain ⟨rest, calls, below⟩ := Cached.calls_findAt_of_outside outside working named some
    exact ⟨EntityId.distinct ids, rest, EntityId.pairwise_distinct ids,
      fun _ => EntityId.mem_distinct, calls, below⟩

/-- The window has moved on since the sample station was cached with its children, and the station
is asked for twice. -/
theorem find_out_of_window_network :
    let ops := [.storeNetwork, .findAt (.caching .cached) .station [⟨"STA", rfl⟩] .origin,
      .setWindow (.closed Sample.change Sample.change)]
    let s := Operation.run ops (.fresh .all)
    let ids : List (EntityId .station) := [⟨"STA", rfl⟩, ⟨"STA", rfl⟩]
    let plain := (cached.find .station ids (.at .origin)).perform s
    s.window.contains .origin = false ∧ s.repository.failure = none ∧ Named ids ∧ ids ≠ [] ∧
      s.versionCache.size = 4 ∧ plain.2.versionCache = s.versionCache ∧
      (∀ (tier : CachingTier) (f : Faceting),
        ((tier.findFaceted .station ids .origin f).perform s).2.versionCache = s.versionCache) ∧
      ∃ (wanted : List (EntityId .station)) (rest : List Call), (∀ id, id ∈ wanted ↔ id ∈ ids) ∧
        plain.2.repository.calls =
          s.repository.calls ++ ⟨.station, wanted.map (·.text), .at .origin⟩ :: rest := by
  intro ops s ids plain
  have outside : s.window.contains .origin = false := by decide +kernel
  have working : s.repository.failure = none := by decide +kernel
  have held : s.versionCache.size = 4 := by decide +kernel
  have named : Named ids := fun _ => by decide
  have some : ids ≠ [] := List.cons_ne_nil _ _
  -- what the run left matters no more
  clear_value s
  obtain ⟨retained, faceted, asked⟩ := find_out_of_window outside .station ids
  obtain ⟨wanted, rest, -, same, calls, -⟩ := asked working named some
  exact ⟨outside, working, named, some, held, (retained cached).1, fun tier f => (faceted tier f).1,
    wanted, rest, same, calls⟩

end CachingTier

end StationCatalog
