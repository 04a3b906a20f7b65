import StationCatalog.Proofs.NestedRefusals
import StationCatalog.Proofs.Remembered

/-!
The checks of arguments. Invalid arguments are refused before anything is done. Valid ones are let
through, but the names of children are checked in the same way when they are looked up, so a lookup
of valid arguments may be refused after accesses, on account of what is stored.
-/

namespace StationCatalog

open Lookup

variable {k : Kind}

/-- The plain lookup of a tier, at an instant or over a range. -/
def CachingTier.find (tier : CachingTier) (k : Kind) (ids : List (EntityId k)) :
    RequestTime → Lookup (List (Entity k))
  | .at t => (Tier.caching tier).findAt k ids t
  | .within start stop => (Tier.caching tier).findWithin k ids start stop

/-- A range does not end before it starts. -/
def RequestTime.Ordered : RequestTime → Prop
  | .at _ => True
  | .within start stop => start ≤ stop

/-- Arguments of a lookup: no name is blank, and the time is in order. -/
structure ValidArguments (ids : List (EntityId k)) (time : RequestTime) : Prop where
  named : Named ids
  ordered : time.Ordered

namespace Lookup

/-- What a lookup does first. -/
def requireValid (ids : List (EntityId k)) : RequestTime → Lookup Unit
  | .at _ => requireIds ids
  | .within start stop => do
    requireIds ids
    requireOrder start stop

variable {ids : List (EntityId k)} {time : RequestTime}

theorem requireValid_of_valid (h : ValidArguments ids time) : requireValid ids time = pure () := by
  obtain ⟨named, ordered⟩ := h
  cases time with
  | «at» t => exact requireIds_of_named named
  | within start stop =>
      have inOrder : ¬stop < start := Int.not_lt.2 ordered
      rw [requireValid, requireIds_of_named named, pure_bind, requireOrder, if_neg inOrder]

theorem requireValid_of_not_valid (h : ¬ValidArguments ids time) :
    ∃ e, requireValid ids time = throw (.validation e) := by
  by_cases named : Named ids
  · cases time with
    | «at» t => exact absurd ⟨named, trivial⟩ h
    | within start stop =>
        have reversed : stop < start := Int.not_le.1 fun ordered => h ⟨named, ordered⟩
        refine ⟨.invalidTimeRange start stop, ?_⟩
        rw [requireValid, requireIds_of_named named, pure_bind, requireOrder, if_pos reversed]
  · obtain ⟨field, -, refused⟩ := requireIds_of_not_named named
    refine ⟨.requiredFieldMissing field, ?_⟩
    cases time with
    | «at» t => exact refused
    | within start stop => rw [requireValid, refused]; rfl

/-- From one stack, a lookup that may be refused is refused just when it is to be. -/
theorem RefusedIff.validation_iff {α : Type} {x : Lookup α} {s : Stack} {c : Prop}
    {P : Stack → Prop} (h : RefusedIff (· = s) x c P) :
    (∃ e, (x.perform s).1 = .error (.validation e)) ↔ c := by
  constructor
  · rintro ⟨e, refused⟩
    by_contra hc
    obtain ⟨a, found, -⟩ := h.succeeds hc s rfl
    rw [found] at refused
    cases refused
  · intro hc
    obtain ⟨succeeded, failed⟩ := h.refused hc s rfl
    cases result : (x.perform s).1 with
    | ok a => exact (succeeded a result).elim
    | error e =>
        obtain ⟨field, rfl⟩ := failed e result
        exact ⟨_, rfl⟩

end Lookup

namespace CachingTier

variable {ids : List (EntityId k)} {time : RequestTime}

/-- Every lookup checks its arguments before it goes on. -/
theorem exists_find_eq (tier : CachingTier) (k : Kind) (ids : List (EntityId k))
    (time : RequestTime) :
    ∃ x, tier.find k ids time = requireValid ids time >>= fun _ => x := by
  cases time with
  | «at» t =>
      cases tier with
      | memoised => exact ⟨_, rfl⟩
      | cached =>
          change ∃ x, Cached.findAt k ids t = _
          rw [Cached.findAt_eq_pointLookup]
          exact ⟨_, rfl⟩
  | within start stop =>
      simp only [requireValid, bind_assoc]
      cases tier with
      | memoised => exact ⟨_, rfl⟩
      | cached => cases k <;> exact ⟨_, rfl⟩

theorem perform_find_of_not_valid (invalid : ¬ValidArguments ids time) (s : Stack)
    (tier : CachingTier) : ∃ e, (tier.find k ids time).perform s = (.error (.validation e), s) := by
  obtain ⟨x, same⟩ := exists_find_eq tier k ids time
  obtain ⟨e, refused⟩ := requireValid_of_not_valid invalid
  refine ⟨e, ?_⟩
  rw [same, refused]
  rfl

theorem find_memoised_of_valid (valid : ValidArguments ids time) :
    memoised.find k ids time =
      Memoised.answer (.entities k) (.ofIds ids time none) (cached.find k ids time) := by
  have checked := requireValid_of_valid valid
  cases time with
  | «at» t =>
      have whole : memoised.find k ids (.at t) = requireValid ids (.at t) >>= fun _ =>
          Memoised.answer (.entities k) (.ofIds ids (.at t) none) (cached.find k ids (.at t)) := rfl
      rw [whole, checked, pure_bind]
  | within start stop =>
      have whole : memoised.find k ids (.within start stop) =
          requireValid ids (.within start stop) >>= fun _ =>
            Memoised.answer (.entities k) (.ofIds ids (.within start stop) none)
              (cached.find k ids (.within start stop)) := by
        rw [requireValid, bind_assoc]
        rfl
      rw [whole, checked, pure_bind]

/-- A tier refuses valid arguments just when it does not remember the request and the version cache
refuses them. -/
theorem refusedIff_find (valid : ValidArguments ids time) {s : Stack} {c : Prop}
    {P : Stack → Prop} (tier : CachingTier)
    (plain : RefusedIff (· = tier.asked k (.ofIds ids time none) s) (cached.find k ids time) c P) :
    RefusedIff (· = s) (tier.find k ids time)
      (tier.remembered k (.ofIds ids time none) s = [] ∧ c) fun _ => True := by
  cases tier with
  | cached => exact (plain.weaken (fun _ h => h) fun _ _ => trivial).congr (and_iff_right rfl).symm
  | memoised =>
      rw [find_memoised_of_valid valid]
      have learnt : RefusedIff (· = memoised.asked k (.ofIds ids time none) s)
          (Memoised.learn (.entities k) (.ofIds ids time none) (cached.find k ids time)) c
          fun _ => True :=
        plain.bind_pure fun results _ _ => ⟨results, rfl, trivial, trivial⟩
      constructor
      · rintro neither s rfl
        rw [Memoised.perform_answer]
        cases remembers : memoised.remembered k (.ofIds ids time none) s with
        | nil => exact learnt.succeeds (fun hc => neither ⟨remembers, hc⟩) _ rfl
        | cons e es => exact ⟨_, rfl, trivial, trivial⟩
      · rintro ⟨remembers, hc⟩ s rfl
        rw [Memoised.perform_answer, remembers]
        exact learnt.refused hc _ rfl

end CachingTier

/-- A lookup over a content trips: a version of a wanted entity that it resolves names, somewhere
below, a blank name. -/
def Stack.Trips (s : Stack) (r : Repository) (k : Kind) (ids : List (EntityId k)) :
    RequestTime → Prop
  | .at t => ∃ v ∈ r.versions k, v.id ∈ ids ∧ v.holdsAt t = true ∧ r.Trips t v
  | .within start stop => s.TripsWithin r start stop k ids

namespace CachingTier

variable {ids : List (EntityId k)} {time : RequestTime} {s : Stack} {r : Repository}

theorem trips_asked_iff (request : Request) (tier : CachingTier) :
    (tier.asked k request s).Trips r k ids time ↔ s.Trips r k ids time := by
  cases tier with
  | cached => exact Iff.rfl
  | memoised => cases time <;> exact Iff.rfl

theorem refusedIff_find_of_unblanked (valid : ValidArguments ids time)
    (working : s.repository.failure = none) (clean : ¬s.HoldsBlank) (tier : CachingTier) :
    RefusedIff (· = s) (tier.find k ids time)
      (tier.remembered k (.ofIds ids time none) s = [] ∧ False) fun _ => True := by
  obtain ⟨stored, kept⟩ := not_or.1 clean
  have spared : ∀ k, ∀ e ∈ s.repository.versions k, ¬e.NamesBlank :=
    fun k e he named => stored ⟨k, e, he, named⟩
  obtain ⟨window, repository, versions, -⟩ := tier.asked_same k (.ofIds ids time none) s
  have begun : ∀ s', s' = tier.asked k (.ofIds ids time none) s →
      s'.Unblanked s.repository s.window := by
    rintro _ rfl
    refine ⟨⟨congrArg _ repository, (congrArg _ repository).trans working, window⟩, ?_⟩
    rw [versions]
    exact fun e he f hf named => kept ⟨e, he, f, hf, named⟩
  have none : ¬Named ids ↔ False := iff_of_false (not_not.2 valid.named) id
  have plain : RefusedIff (Stack.Unblanked s.repository s.window) (cached.find k ids time) False
      (Stack.Unblanked s.repository s.window) := by
    cases time with
    | «at» t => exact (Cached.refusedIff_findAt_of_unblanked spared k ids).congr none
    | within start stop =>
        exact (Cached.refusedIff_findWithin_of_unblanked spared k ids valid.ordered).congr none
  exact refusedIff_find valid tier (plain.weaken begun fun _ hs => hs)

theorem refusedIff_find_of_rooted (hr : r.Consistent) (valid : ValidArguments ids time)
    (rooted : s.Rooted r s.window) (tier : CachingTier) :
    RefusedIff (· = s) (tier.find k ids time)
      (tier.remembered k (.ofIds ids time none) s = [] ∧ s.Trips r k ids time) fun _ => True := by
  obtain ⟨window, repository, versions, -⟩ := tier.asked_same k (.ofIds ids time none) s
  have upheld := Stack.upheld_rooted r s.window
  have begun : (tier.asked k (.ofIds ids time none) s).Rooted r s.window := by
    refine ⟨⟨?_, ?_, window⟩, versions ▸ rooted.drawn⟩
    · rw [repository, rooted.versions]
    · rw [repository, rooted.working]
  have plain : RefusedIff (· = tier.asked k (.ofIds ids time none) s) (cached.find k ids time)
      (¬Named ids ∨ (tier.asked k (.ofIds ids time none) s).Trips r k ids time)
      (Stack.Rooted r s.window) := by
    cases time with
    | «at» t =>
        refine (Cached.refusedIff_findAt hr (fun j _ => upheld.served j) upheld.drawn
          ids).weaken ?_ fun _ hs => hs
        rintro _ rfl
        exact begun
    | within start stop => exact Cached.refusedIff_findWithin hr upheld begun valid.ordered ids
  refine refusedIff_find valid tier (plain.congr ?_)
  rw [or_iff_right (not_not.2 valid.named), trips_asked_iff]

end CachingTier

/-- Invalid arguments are refused at once, and nothing is changed. Valid arguments are refused only
over a stack that holds a version with a blank child name; after a run without stores just when the
tier does not remember the request and a version it resolves has such a name somewhere below it. -/
theorem Operation.find_refused {s : Stack} (working : s.repository.failure = none)
    (tier : CachingTier) (k : Kind) (ids : List (EntityId k)) (time : RequestTime) :
    let result := (tier.find k ids time).perform s
    (¬ValidArguments ids time → ∃ e, result = (.error (.validation e), s)) ∧
    (ValidArguments ids time → (∃ es, result.1 = .ok es) ∨ s.HoldsBlank) ∧
    ∀ (r : Repository) (ops : List Operation) (w : TimeRange), r.Consistent →
      (∀ op ∈ ops, op.isStore = false ∧ op.isCacheWrite = false) → s = run ops (.over r w) →
      ((∃ e, result.1 = .error (.validation e)) ↔
        ¬ValidArguments ids time ∨
          tier.remembered k (.ofIds ids time none) s = [] ∧ s.Trips r k ids time) := by
  intro result
  refine ⟨fun invalid => tier.perform_find_of_not_valid invalid s, ?_, ?_⟩
  · intro valid
    by_cases blank : s.HoldsBlank
    · exact .inr blank
    · obtain ⟨es, found, -⟩ := (CachingTier.refusedIff_find_of_unblanked valid working blank
        tier).succeeds And.right s rfl
      exact .inl ⟨es, found⟩
  · rintro r ops w hr hops reached
    by_cases valid : ValidArguments ids time
    · have within : (Stack.over r w).repository.Within fun k e =>
          k = .response ∨ e ∈ r.versions k := Repository.within_rooted rfl
      obtain ⟨versions, drawn⟩ := run_drawn hops within .empty
      rw [← reached] at versions drawn
      have rooted : s.Rooted r s.window := ⟨⟨versions, working, rfl⟩, drawn⟩
      rw [or_iff_right (not_not.2 valid)]
      exact (CachingTier.refusedIff_find_of_rooted hr valid rooted tier).validation_iff
    · obtain ⟨e, refused⟩ := tier.perform_find_of_not_valid valid s
      exact iff_of_true ⟨e, congrArg Prod.fst refused⟩ (.inl valid)

/-- After a lookup in the sample network a blank name is refused, and nothing is changed. -/
theorem Operation.find_refused_network :
    let ops := [.findAt (.caching .memoised) .station [⟨"STA", rfl⟩] .origin]
    let s := run ops (.over Sample.network.repository .all)
    let ids : List (EntityId .station) := [⟨" ", rfl⟩]
    let result := (CachingTier.memoised.find .station ids (.at .origin)).perform s
    s.repository.failure = none ∧ (∃ e, result = (.error (.validation e), s)) ∧
      ((∃ e, result.1 = .error (.validation e)) ↔ ¬ValidArguments ids (.at .origin) ∨
        CachingTier.memoised.remembered .station (.ofIds ids (.at .origin) none) s = [] ∧
          s.Trips Sample.network.repository .station ids (.at .origin)) := by
  intro ops s ids result
  have working : s.repository.failure = none := rfl
  have hops : ∀ op ∈ ops, op.isStore = false ∧ op.isCacheWrite = false := by decide
  have invalid : ¬ValidArguments ids (.at .origin) := fun valid =>
    absurd (valid.named rfl) (by decide)
  obtain ⟨refused, -, exactly⟩ := find_refused working .memoised .station ids (.at .origin)
  exact ⟨working, refused invalid,
    exactly _ ops .all Sample.orderly_network.consistent hops rfl⟩

/-- A station group that lists a station with a blank name is called for and cached before the
lookup of it, whose arguments are valid, is refused. -/
theorem Operation.find_refused_late :
    let group := Sample.stationGroup ⟨"PRIMARY", rfl⟩ .origin [.reference ⟨"", rfl⟩]
    let s := run [.store .stationGroup [group]] (.fresh .all)
    let ids : List (EntityId .stationGroup) := [⟨"PRIMARY", rfl⟩]
    let result := (CachingTier.cached.find .stationGroup ids (.at .origin)).perform s
    s.repository.failure = none ∧ ValidArguments ids (.at .origin) ∧
      result.1 = .error (.validation (.requiredFieldMissing "station_names")) ∧
      result.2.repository.calls = [⟨.stationGroup, ["PRIMARY"], .at .origin⟩] ∧
      result.2.versionCache.size = 1 := by
  intro group s ids result
  exact ⟨rfl, ⟨fun _ => by decide, trivial⟩, rfl, rfl, rfl⟩

end StationCatalog
