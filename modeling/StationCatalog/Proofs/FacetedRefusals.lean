import StationCatalog.Proofs.CalledLookups
import StationCatalog.Proofs.Remembered

/-!
Faceting definitions for entities of another kind. The kind of a definition is looked at when an
entity is faceted, so a definition is refused after the entities were looked up, and is let through
where the lookup finds none.
-/

namespace StationCatalog

open Lookup

variable {k : Kind}

namespace Populate

/-- What is made of entities by a definition of another kind: it is refused if there are any. -/
def refuse (k found : Kind) : List (Entity k) → Except CatalogError (List (Entity k))
  | [] => .ok []
  | _ :: _ => .error (wrongKind k found)

theorem facet_of_kind_ne {f : Faceting} (hf : f.kind ≠ k) (find : Finder) (t : Instant)
    (children : Faceting → Entity k → Lookup (Option (Entity k))) (e : Entity k) :
    facet find t children f e = throw (wrongKind k f.kind) := by
  rw [facet, if_pos hf]
  rfl

theorem entity_of_kind_ne {f : Faceting} (hf : f.kind ≠ k) (find : Finder) (t : Instant)
    (e : Entity k) : entity find t k f e = throw (wrongKind k f.kind) := by
  cases k <;>
    simp only [entity, stationGroup, station, channelGroup, channel, response, facet_of_kind_ne hf]

theorem perform_collect_of_kind_ne {f : Faceting} (hf : f.kind ≠ k) (find : Finder) (t : Instant)
    (es : List (Entity k)) (s : Stack) :
    (collect (entity find t k f) es).perform s = (refuse k f.kind es, s) := by
  cases es with
  | nil => rfl
  | cons e es =>
      simp only [collect, gather, entity_of_kind_ne hf]
      rfl

end Populate

namespace Cached

/-- A lookup of entities that the cache does not answer finds some only by a call. -/
theorem ends_findAt_of_uncached {s : Stack} {ids : List (EntityId k)} {t : Instant}
    (uncached : s.window.contains t = true → ∀ id ∈ ids,
      s.versionCache.find? k (.ofId id) t = none) :
    Ends (· = s) (findAt k ids t)
      (fun es s' => es ≠ [] → s.repository.calls.length < s'.repository.calls.length)
      fun _ => True := by
  cases ids with
  | nil =>
      rintro s rfl
      rw [perform_findAt_nil]
      refine ⟨?_, fun _ _ => trivial⟩
      rintro _ ⟨⟩ some
      exact absurd rfl some
  | cons id ids =>
      have called : Ends (fun s' => s'.window = s.window ∧
            s'.versionCache.entries = s.versionCache.entries ∧
            s'.repository.calls = s.repository.calls) (findAt k (id :: ids) t)
          (fun _ => Stack.Called s.window s.repository.calls.length) fun _ => True := by
        rw [findAt_eq_pointLookup]
        refine ends_pointLookup_called (A := fun _ => False) ?_
          (traced_resolveAt Stack.goes_of_effect t k) ?_ ⟨id, List.mem_cons_self, fun h => h⟩
        · rintro s' ⟨window, -, calls⟩
          exact ⟨window, calls ▸ Nat.le_refl _⟩
        · intro j hj inside
          refine ends_answerAt (fun _ hs => hs) ?_ fun _ hs =>
            .inr ⟨hs, fun _ h => absurd h (Option.not_mem_none _)⟩
          intro s' e hs' found
          rw [VersionCache.find?_congr hs'.2.1, uncached inside j hj] at found
          cases found
      refine (called.weaken ?_).mono fun _ _ h _ => h.2
      rintro _ rfl
      exact ⟨rfl, rfl, rfl⟩

/-- What a plain lookup finds is refused, and what it leaves of the stack stays. -/
theorem perform_findFaceted_of_kind_ne {f : Faceting} (hf : f.kind ≠ k) (ids : List (EntityId k))
    (t : Instant) (s : Stack) :
    (findFaceted k ids t f).perform s =
      (((findAt k ids t).perform s).1 >>= Populate.refuse k f.kind,
        ((findAt k ids t).perform s).2) := by
  rw [findFaceted, perform_bind]
  rcases (findAt k ids t).perform s with ⟨e | found, s'⟩
  · rfl
  · dsimp only
    rw [perform_bind, Populate.perform_collect_of_kind_ne hf]
    cases found <;> rfl

end Cached

/-- A lookup at an instant leaves the window and the request cache as they are. -/
theorem Cached.findAt_spares (ids : List (EntityId k)) (t : Instant) (s : Stack) :
    ((findAt k ids t).perform s).2.window = s.window ∧
      ((findAt k ids t).perform s).2.requestCache = s.requestCache := by
  have spared : ∀ j s s', Stack.Effect j s s' → s'.requestCache = s.requestCache := by
    intro j s s' h
    cases h <;> rfl
  obtain ⟨window, steps⟩ := traced_findAt (w := s.window) spared k ids t s rfl
  refine ⟨window, ?_⟩
  generalize ((findAt k ids t).perform s).2 = s' at steps
  induction steps with
  | refl => rfl
  | tail _ step ih => exact step.trans ih

namespace CachingTier

/-- Unless it remembers the request, a tier goes on to the plain lookup, and refuses what that
finds; what it remembers it refuses at once. -/
theorem perform_findFaceted_of_kind_ne {f : Faceting} (hf : f.kind ≠ k) {ids : List (EntityId k)}
    (named : Named ids) (t : Instant) (s : Stack) (tier : CachingTier) :
    let request := Request.ofIds ids (.at t) (some f)
    let plain := (Cached.findAt k ids t).perform (tier.asked k request s)
    (tier.findFaceted k ids t f).perform s =
      match tier.remembered k request s with
      | [] => (plain.1 >>= Populate.refuse k f.kind, plain.2)
      | _ :: _ => (.error (Populate.wrongKind k f.kind), tier.asked k request s) := by
  intro request
  dsimp only
  cases tier with
  | cached => exact Cached.perform_findFaceted_of_kind_ne hf ids t s
  | memoised =>
      simp only [findFaceted, Memoised.findFaceted, requireIds_of_named named, pure_bind]
      rw [perform_bind, Memoised.perform_retrieve]
      cases memoised.remembered k request s with
      | nil =>
          simp only [List.isEmpty_nil, if_true, Memoised.learn]
          rw [perform_bind, Cached.perform_findFaceted_of_kind_ne hf]
          rcases (Cached.findAt k ids t).perform (memoised.asked k request s) with
            ⟨_ | _ | _, s'⟩ <;> rfl
      | cons e es =>
          simp only [List.isEmpty_cons, Bool.false_eq_true, if_false]
          rw [perform_bind, Populate.perform_collect_of_kind_ne hf]
          rfl

/-- A faceting definition of another kind is not refused before any access. A tier that remembers
the request refuses it at once; otherwise the plain lookup comes first, with all it fetches and
caches, and the definition is refused if that finds anything, which takes a call or a version cached
at the instant, and let through if it finds nothing. -/
theorem findFaceted_of_kind_ne {f : Faceting} (hf : f.kind ≠ k) {ids : List (EntityId k)}
    (named : Named ids) (t : Instant) (s : Stack) (tier : CachingTier) :
    let request := Request.ofIds ids (.at t) (some f)
    let plain := (Cached.findAt k ids t).perform (tier.asked k request s)
    let result := (tier.findFaceted k ids t f).perform s
    (tier.remembered k request s ≠ [] →
      result = (.error (Populate.wrongKind k f.kind), tier.asked k request s)) ∧
    (tier.remembered k request s = [] → result.2 = plain.2 ∧
      (∀ e, plain.1 = .error e → result.1 = .error e) ∧
      (plain.1 = .ok [] → result.1 = .ok []) ∧
      ∀ es, plain.1 = .ok es → es ≠ [] → result.1 = .error (Populate.wrongKind k f.kind) ∧
        (s.repository.calls.length < result.2.repository.calls.length ∨
          s.window.contains t = true ∧
            ∃ id ∈ ids, ∃ e, s.versionCache.find? k (.ofId id) t = some e)) ∧
    result.2.window = s.window ∧ result.2.requestCache.memos = s.requestCache.memos := by
  intro request plain result
  have performed : result = match tier.remembered k request s with
      | [] => (plain.1 >>= Populate.refuse k f.kind, plain.2)
      | _ :: _ => (.error (Populate.wrongKind k f.kind), tier.asked k request s) :=
    perform_findFaceted_of_kind_ne hf named t s tier
  obtain ⟨window, repository, versions, memos⟩ := asked_same k request s tier
  have spared := Cached.findAt_spares ids t (tier.asked k request s)
  cases remembers : tier.remembered k request s with
  | cons e es =>
      rw [remembers] at performed
      refine ⟨fun _ => performed, fun none => absurd none (List.cons_ne_nil e es), ?_⟩
      rw [performed]
      exact ⟨window, memos⟩
  | nil =>
      rw [remembers] at performed
      have left : result.2 = plain.2 := by rw [performed]
      have answer : result.1 = plain.1 >>= Populate.refuse k f.kind := by rw [performed]
      refine ⟨fun some => absurd rfl some, fun _ => ⟨left, ?_, ?_, ?_⟩, ?_⟩
      · intro e failed
        rw [answer, failed]
        rfl
      · intro found
        rw [answer, found]
        rfl
      · intro es found some
        constructor
        · rw [answer, found]
          cases es with
          | nil => exact absurd rfl some
          | cons e es => rfl
        · by_cases hit : s.window.contains t = true ∧
              ∃ id ∈ ids, ∃ e, s.versionCache.find? k (.ofId id) t = Option.some e
          · exact .inr hit
          · have uncached : (tier.asked k request s).window.contains t = true → ∀ id ∈ ids,
                (tier.asked k request s).versionCache.find? k (.ofId id) t = none := by
              intro inside id hid
              rw [window] at inside
              rw [versions, Option.eq_none_iff_forall_ne_some]
              exact fun e he => hit ⟨inside, id, hid, e, he⟩
            have called := (Cached.ends_findAt_of_uncached uncached _ rfl).1 es found some
            rw [repository] at called
            exact .inl (left ▸ called)
      · rw [left]
        exact ⟨spared.1.trans window, spared.2 ▸ memos⟩

/-- The sample channel is looked up before a definition for stations is refused. -/
theorem findFaceted_of_kind_ne_network :
    let f := Faceting.leaf .station true
    let ids : List (EntityId .channel) := [⟨"STA.BHZ", rfl⟩]
    let s := Stack.over Sample.network.repository .all
    let result := (cached.findFaceted .channel ids .origin f).perform s
    f.kind ≠ .channel ∧ Named ids ∧
      result.2 = ((Cached.findAt .channel ids .origin).perform s).2 ∧
      result.1 = .error (Populate.wrongKind .channel .station) ∧
      (s.repository.calls.length < result.2.repository.calls.length ∨
        s.window.contains .origin = true ∧
          ∃ id ∈ ids, ∃ e, s.versionCache.find? .channel (.ofId id) .origin = some e) := by
  intro f ids s result
  have hf : f.kind ≠ .channel := by decide
  have named : Named ids := fun _ => by decide
  obtain ⟨-, plainly, -⟩ := findFaceted_of_kind_ne hf named .origin s cached
  obtain ⟨left, -, -, refused⟩ := plainly rfl
  obtain ⟨answer, accessed⟩ := refused _ rfl (by decide)
  exact ⟨hf, named, left, answer, accessed⟩

/-- Over the sample network a definition for stations is refused for a channel after two calls, with
what they brought cached, and over an empty repository it is let through. -/
theorem findFaceted_late :
    let lookup := cached.findFaceted .channel [⟨"STA.BHZ", rfl⟩] .origin (.leaf .station true)
    let result := lookup.perform (.over Sample.network.repository .all)
    result.1 = .error (Populate.wrongKind .channel .station) ∧
      result.2.repository.callsFor .channel = [⟨.channel, ["STA.BHZ"], .at .origin⟩] ∧
      result.2.versionCache.size = 2 ∧ (lookup.perform (.fresh .all)).1 = .ok [] := by
  intro lookup result
  exact ⟨rfl, rfl, rfl, rfl⟩

end CachingTier

end StationCatalog
