import StationCatalog.Proofs.FacetTrees
import StationCatalog.Proofs.Inquiries

/-!
What requests are told apart by. Two requests are equal just when they ask for the same entities of
one kind, at the same time and under the same faceting; and lookups that ask for the same entities
do the same, so that what is remembered for one answers the other.
-/

namespace StationCatalog

open Lookup

variable {j k : Kind}

/-- Identifiers of any kinds leave the same sorted texts just when they have the same texts. -/
theorem EntityId.map_text_distinct_eq_iff {ids : List (EntityId k)} {ids' : List (EntityId j)} :
    (distinct ids).map (·.text) = (distinct ids').map (·.text) ↔
      ∀ text, (∃ id ∈ ids, id.text = text) ↔ ∃ id ∈ ids', id.text = text := by
  have told : ∀ {k : Kind} (ids : List (EntityId k)) (text : String),
      text ∈ (distinct ids).map (·.text) ↔ ∃ id ∈ ids, id.text = text := by
    intro k ids text
    simp only [List.mem_map, mem_distinct]
  have sorted : ∀ {k : Kind} (ids : List (EntityId k)),
      ((distinct ids).map (·.text)).Pairwise (Ord.compare · · = .lt) :=
    fun ids => List.pairwise_map.2 (pairwise_distinct ids)
  constructor
  · intro same text
    rw [← told, ← told, same]
  · intro same
    refine Sorted.eq_of_mem_iff (sorted ids) (sorted ids') fun text => ?_
    rw [told, told, same]

/-- Facetings, if any, are equal just when they are equal as trees. -/
theorem Faceting.rel_same_iff {f f' : Option Faceting} (hf : ∀ d ∈ f, d.Built)
    (hf' : ∀ d ∈ f', d.Built) : f = f' ↔ Option.Rel Same f f' := by
  cases f with
  | none =>
      cases f' with
      | none => exact iff_of_true rfl .none
      | some d' => exact iff_of_false nofun nofun
  | some d =>
      cases f' with
      | none => exact iff_of_false nofun nofun
      | some d' =>
          rw [Option.some.injEq, (hf d rfl).eq_iff (hf' d' rfl)]
          exact ⟨.some, fun | .some same => same⟩

theorem Request.ofIds_eq_iff {ids : List (EntityId k)} {ids' : List (EntityId j)}
    {time time' : RequestTime} {f f' : Option Faceting} (hf : ∀ d ∈ f, d.Built)
    (hf' : ∀ d ∈ f', d.Built) :
    ofIds ids time f = ofIds ids' time' f' ↔
      k = j ∧ (∀ text, (∃ id ∈ ids, id.text = text) ↔ ∃ id ∈ ids', id.text = text) ∧
        time = time' ∧ Option.Rel Faceting.Same f f' := by
  rw [ofIds, ofIds, mk.injEq, EntityId.map_text_distinct_eq_iff, Faceting.rel_same_iff hf hf']

section

variable {ids ids' : List (EntityId k)} (same : ∀ id, id ∈ ids ↔ id ∈ ids')

include same

theorem Lookup.requireIds_congr : requireIds ids = requireIds ids' := by
  have blank : (ids.map (·.text)).any isBlank = (ids'.map (·.text)).any isBlank := by
    rw [Bool.eq_iff_iff]
    simp only [List.any_map, List.any_eq_true, same]
  unfold requireIds
  split
  · rw [requireNames, requireNames, blank]
  · rfl

theorem Request.ofIds_congr (time : RequestTime) (f : Option Faceting) :
    ofIds ids time f = ofIds ids' time f := by
  rw [ofIds, ofIds, EntityId.distinct_congr same]

namespace Cached

theorem findAt_congr (t : Instant) : findAt k ids t = findAt k ids' t := by
  rw [findAt_eq_pointLookup, findAt_eq_pointLookup, pointLookup, pointLookup,
    requireIds_congr same, EntityId.distinct_congr same]

theorem rangeLookup_congr (resolve : Entity k → Lookup (Option (Entity k)))
    (start stop : Instant) :
    rangeLookup resolve ids start stop = rangeLookup resolve ids' start stop := by
  rw [rangeLookup, rangeLookup, requireIds_congr same, EntityId.distinct_congr same]

theorem findWithin_congr (start stop : Instant) :
    findWithin k ids start stop = findWithin k ids' start stop := by
  cases k <;> exact rangeLookup_congr same _ start stop

theorem findFaceted_congr (t : Instant) (f : Faceting) :
    findFaceted k ids t f = findFaceted k ids' t f := by
  rw [findFaceted, findFaceted, findAt_congr same]

end Cached

namespace Memoised

theorem findAt_congr (t : Instant) : findAt k ids t = findAt k ids' t := by
  rw [findAt, findAt, requireIds_congr same, Request.ofIds_congr same, Cached.findAt_congr same]

theorem findWithin_congr (start stop : Instant) :
    findWithin k ids start stop = findWithin k ids' start stop := by
  rw [findWithin, findWithin, requireIds_congr same, Request.ofIds_congr same,
    Cached.findWithin_congr same]

theorem findFaceted_congr (t : Instant) (f : Faceting) :
    findFaceted k ids t f = findFaceted k ids' t f := by
  rw [findFaceted, findFaceted, requireIds_congr same, Request.ofIds_congr same,
    Cached.findFaceted_congr same]

end Memoised

end

namespace CachingTier

/-- Requests are keyed soundly. They are equal just when they are of one kind and agree in the texts
of their identifiers, in their time and in their faceting, as trees; and on either tier, at every
stack, lookups after the same entities, however listed, find the same and leave the same stack. -/
theorem lookups_keyed_soundly :
    (∀ (j k : Kind) (ids : List (EntityId j)) (ids' : List (EntityId k))
      (time time' : RequestTime) (f f' : Option Faceting), (∀ d ∈ f, d.Built) →
      (∀ d ∈ f', d.Built) →
      (Request.ofIds ids time f = .ofIds ids' time' f' ↔
        j = k ∧ (∀ text, (∃ id ∈ ids, id.text = text) ↔ ∃ id ∈ ids', id.text = text) ∧
          time = time' ∧ Option.Rel Faceting.Same f f')) ∧
    ∀ (tier : CachingTier) (k : Kind) (ids ids' : List (EntityId k)),
      (∀ id, id ∈ ids ↔ id ∈ ids') → ∀ s : Stack,
      (∀ t, ((Tier.caching tier).findAt k ids t).perform s =
        ((Tier.caching tier).findAt k ids' t).perform s) ∧
      (∀ start stop, ((Tier.caching tier).findWithin k ids start stop).perform s =
        ((Tier.caching tier).findWithin k ids' start stop).perform s) ∧
      ∀ t f, (tier.findFaceted k ids t f).perform s = (tier.findFaceted k ids' t f).perform s := by
  constructor
  · exact fun j k ids ids' time time' f f' => Request.ofIds_eq_iff
  · intro tier k ids ids' same s
    cases tier with
    | cached =>
        exact ⟨fun t => congrArg (·.perform s) (Cached.findAt_congr same t),
          fun start stop => congrArg (·.perform s) (Cached.findWithin_congr same start stop),
          fun t f => congrArg (·.perform s) (Cached.findFaceted_congr same t f)⟩
    | memoised =>
        exact ⟨fun t => congrArg (·.perform s) (Memoised.findAt_congr same t),
          fun start stop => congrArg (·.perform s) (Memoised.findWithin_congr same start stop),
          fun t f => congrArg (·.perform s) (Memoised.findFaceted_congr same t f)⟩

/-- Two stations are named in two orders, one of them twice, under a faceting whose children were
added in two orders. -/
theorem lookups_keyed_soundly_network :
    let ids : List (EntityId .station) := [⟨"STA", rfl⟩, ⟨"STB", rfl⟩, ⟨"STA", rfl⟩]
    let ids' : List (EntityId .station) := [⟨"STB", rfl⟩, ⟨"STA", rfl⟩]
    let groups := Faceting.leaf .channelGroup true
    let channels := Faceting.leaf .channel false
    let f := ((Faceting.leaf .station true).withFacet Faceting.groupsKey groups).withFacet
      Faceting.channelsKey channels
    let f' := ((Faceting.leaf .station true).withFacet Faceting.channelsKey channels).withFacet
      Faceting.groupsKey groups
    let s := Operation.run [.storeNetwork] (.fresh .all)
    Request.ofIds ids (.at .origin) (some f) = .ofIds ids' (.at .origin) (some f') ∧
      (memoised.findFaceted .station ids .origin f).perform s =
        (memoised.findFaceted .station ids' .origin f).perform s := by
  intro ids ids' groups channels f f' s
  have same : ∀ id, id ∈ ids ↔ id ∈ ids' := by
    intro id
    simp only [ids, ids', List.mem_cons, List.not_mem_nil, or_false]
    tauto
  have built : f.Built := .withFacet _ (.withFacet _ (.leaf _ _) (.leaf _ _)) (.leaf _ _)
  have built' : f'.Built := .withFacet _ (.withFacet _ (.leaf _ _) (.leaf _ _)) (.leaf _ _)
  have trees : f.Same f' := (show f = f' by decide) ▸ built.same_self
  obtain ⟨keys, lookups⟩ := lookups_keyed_soundly
  constructor
  · refine (keys .station .station ids ids' _ _ (some f) (some f') ?_ ?_).2
      ⟨rfl, fun text => exists_congr fun id => and_congr_left' (same id), rfl, .some trees⟩
    · exact fun d hd => Option.some.inj hd ▸ built
    · exact fun d hd => Option.some.inj hd ▸ built'
  · exact (lookups memoised .station ids ids' same s).2.2 .origin f

end CachingTier

end StationCatalog
