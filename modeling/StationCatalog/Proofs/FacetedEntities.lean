import StationCatalog.Proofs.FacetRelations
import StationCatalog.Proofs.MetFacets

/-!
What faceting makes of an entity when the repository itself is asked for what is missing. The outcome
is the entity that was faceted, conforms to the definition down through all its children, and comes
out of a second faceting unchanged. The channel groups and the raw channels of a faceted station go
together, whatever is asked.
-/

namespace StationCatalog

open Lookup

variable {k : Kind} {f : Faceting} {t : Instant}

namespace Entity

/-- An entity is listed as a child of another, under the key that definitions know it by. -/
inductive HasChild : {j k : Kind} → Entity j → String → Entity k → Prop
  | station {g : Entity .stationGroup} {s : Entity .station} (listed : s ∈ g.stations) :
    HasChild g Faceting.stationsKey s
  | group {s : Entity .station} {g : Entity .channelGroup} (listed : g ∈ s.groups) :
    HasChild s Faceting.groupsKey g
  | rawChannel {s : Entity .station} {c : Entity .channel} (listed : c ∈ s.rawChannels) :
    HasChild s Faceting.channelsKey c
  | channel {g : Entity .channelGroup} {c : Entity .channel} (listed : c ∈ g.channels) :
    HasChild g Faceting.channelsKey c
  | response {c : Entity .channel} {r : Entity .response} (carried : c.response? = some r) :
    HasChild c Faceting.responseKey r

/-- None of the lists of children that a parent cannot do without is empty. -/
def HasRequired : {k : Kind} → Entity k → Prop
  | .stationGroup, g => g.stations ≠ []
  | .station, s => s.groups ≠ [] ∧ s.rawChannels ≠ []
  | .channelGroup, g => g.channels ≠ []
  | .channel, _ | .response, _ => True

end Entity

/-- An entity is as a definition of its kind wants it: without data if it is not wanted populated, or
else with data, and so is every child that stands under a key the definition names. -/
inductive Faceting.Conforms : {k : Kind} → Faceting → Entity k → Prop
  | reduced {k : Kind} {f : Faceting} {e : Entity k} (kind : f.kind = k)
    (unwanted : f.populated = false) (reference : e.isPopulated = false) : Conforms f e
  | populated {k : Kind} {f : Faceting} {e : Entity k} (kind : f.kind = k)
    (wanted : f.populated = true) (present : e.isPopulated = true)
    (children : ∀ {j : Kind} (key : String) (c : Entity j) (g : Faceting), e.HasChild key c →
      f.facet? key = some g → Conforms g c) : Conforms f e

namespace Populate

/-! ### Conformance -/

section

variable {Stays : {k : Kind} → Entity k → Prop} {C : Faceting → Entity k → Prop} {e : Entity k}

/-- Only what is wanted populated is. -/
theorem Meets.wanted (h : Meets Stays C f e) (populated : e.isPopulated = true) :
    f.populated = true := by
  cases wanted : f.populated with
  | true => rfl
  | false =>
      rw [← h.reduced wanted, Entity.isPopulated_toVersionReference] at populated
      cases populated

theorem Meets.conforms (h : Meets (fun _ => False) C f e)
    (hchildren : C f e → ∀ {j : Kind} (key : String) (c : Entity j) (g : Faceting),
      e.HasChild key c → f.facet? key = some g → g.Conforms c) : f.Conforms e := by
  cases wanted : f.populated with
  | false =>
      refine .reduced h.kind wanted ?_
      rw [← h.reduced wanted, Entity.isPopulated_toVersionReference]
  | true =>
      cases present : e.isPopulated with
      | false => exact (h.missing wanted present).elim
      | true => exact .populated h.kind wanted present (hchildren (h.populated wanted present))

end

theorem MeetsResponse.conforms {e : Entity .response} (h : MeetsResponse (fun _ => False) f e) :
    f.Conforms e := by
  refine Meets.conforms h fun _ _ key c g child _ => ?_
  cases child

theorem MeetsChannel.conforms {e : Entity .channel} (h : MeetsChannel (fun _ => False) f e) :
    f.Conforms e := by
  refine Meets.conforms h fun met _ key c g child named => ?_
  cases child with
  | response carried => exact (met g named _ (Option.mem_toList.2 carried)).conforms

theorem MeetsGroup.conforms {e : Entity .channelGroup} (h : MeetsGroup (fun _ => False) f e) :
    f.Conforms e := by
  refine Meets.conforms h fun met _ key c g child named => ?_
  cases child with
  | channel listed => exact (met.2 g named _ listed).conforms

theorem MeetsStation.conforms {e : Entity .station} (h : MeetsStation (fun _ => False) f e) :
    f.Conforms e := by
  refine Meets.conforms h fun ⟨groups, channels, _⟩ _ key c g child named => ?_
  cases child with
  | group listed => exact (groups.2 g named _ listed).conforms
  | rawChannel listed => exact (channels.2 g named _ listed).conforms

theorem MeetsStationGroup.conforms {e : Entity .stationGroup}
    (h : MeetsStationGroup (fun _ => False) f e) : f.Conforms e := by
  refine Meets.conforms h fun met _ key c g child named => ?_
  cases child with
  | station listed => exact (met.2 g named _ listed).conforms

theorem MeetsFacets.conforms {e : Entity k} (h : MeetsFacets (fun _ => False) k f e) :
    f.Conforms e := by
  cases k with
  | stationGroup => exact MeetsStationGroup.conforms h
  | station => exact MeetsStation.conforms h
  | channelGroup => exact MeetsGroup.conforms h
  | channel => exact MeetsChannel.conforms h
  | response => exact MeetsResponse.conforms h

theorem MeetsFacets.hasRequired {Stays : {k : Kind} → Entity k → Prop} {e : Entity k}
    (h : MeetsFacets Stays k f e) (populated : e.isPopulated = true) : e.HasRequired := by
  cases k with
  | stationGroup => exact (Meets.populated h (Meets.wanted h populated) populated).1
  | station =>
      obtain ⟨groups, channels, -⟩ := Meets.populated h (Meets.wanted h populated) populated
      exact ⟨groups.1, channels.1⟩
  | channelGroup => exact (Meets.populated h (Meets.wanted h populated) populated).1
  | channel | response => trivial

end Populate

/-! ### Asking the repository -/

/-- The entity is the very version that the repository has of it at an instant. -/
def Repository.HasAt (r : Repository) (t : Instant) (e : Entity k) : Prop :=
  r.versionAt? e.id t = some e

/-- The repository of the stack is this one, its calls apart. -/
structure Stack.DrawsOn (r : Repository) (s : Stack) : Prop where
  versions : s.repository.versions = r.versions
  failure : s.repository.failure = r.failure

namespace Source

variable {r : Repository}

/-- What is found is of the entities asked for, and would be found again. -/
theorem yields_findAt_versions (ids : List (EntityId k)) (t : Instant) :
    Yields (Stack.DrawsOn r) (findAt k ids t) fun es =>
      ∀ e ∈ es, e.id ∈ ids ∧ r.HasAt t e := by
  intro s hs
  rw [perform_findAt]
  refine ⟨⟨hs.versions, hs.failure⟩, ?_⟩
  cases s.repository.failure with
  | some e => exact nofun
  | none =>
      intro es found e he
      cases found
      simp only [Repository.versionsAt, Repository.history, hs.versions] at he
      obtain ⟨id, hid, own⟩ := List.mem_filterMap.1 he
      have found : r.versionAt? id t = some e := own
      obtain ⟨-, rfl, -⟩ := Repository.versionAt?_some found
      exact ⟨hid, found⟩

theorem finds_findAt_has (working : r.failure = none) {e : Entity k} (h : r.HasAt t e) :
    Finds (Stack.DrawsOn r) (findAt k [e.id] t) (·.head? = some e) := by
  intro s hs
  rw [perform_findAt, hs.failure, working]
  refine ⟨_, rfl, ?_, hs.versions, hs.failure⟩
  simp only [Repository.versionsAt, Repository.history, hs.versions]
  have own : r.versionAt? e.id t = some e := h
  change ([e.id].filterMap (r.versionAt? · t)).head? = some e
  simp only [List.filterMap_cons, own, List.head?_cons]

end Source

namespace Populate

/-- What is read off a result that is there tells which result it is. -/
theorem exists_of_map_join {α β : Type} {r : Except CatalogError (Option α)} {g : α → β} {b : β}
    (h : r.toOption.join.map g = some b) : ∃ x, r = .ok (some x) ∧ g x = b := by
  obtain ⟨x, joined, same⟩ := Option.map_eq_some_iff.1 h
  cases r with
  | error e => cases joined
  | ok o => exact ⟨x, congrArg Except.ok joined, same⟩

/-- Faceting with a working repository is idempotent. Whatever the repository holds and whatever was
faceted, what comes of it comes out unchanged when it is faceted once more under the same definition
and as of the same instant, at once or with any working repository of the same content. -/
theorem entity_idempotent {s : Stack} (working : s.repository.failure = none) (f : Faceting)
    (e : Entity k) (t : Instant) {x : Entity k} :
    let first := (entity Source.findAt t k f e).perform s
    first.1 = .ok (some x) →
      ((entity Source.findAt t k f x).perform first.2).1 = .ok (some x) ∧
      ∀ s' : Stack, s'.repository.versions = s.repository.versions →
        s'.repository.failure = none →
        ((entity Source.findAt t k f x).perform s').1 = .ok (some x) := by
  intro first found
  -- a reference that stays has been looked up, so that looking it up again finds it again
  have finds : ∀ k ids, Yields (Stack.DrawsOn s.repository) (Source.findAt k ids t) fun es =>
      ∀ e ∈ es, e.isPopulated = false → s.repository.HasAt t e :=
    fun k ids => (Source.yields_findAt_versions ids t).mono fun es h e he _ => (h e he).2
  obtain ⟨after, met⟩ := yields_meetsFacets finds k f e s ⟨rfl, rfl⟩
  have again : ∀ s' : Stack, s'.DrawsOn s.repository →
      ((entity Source.findAt t k f x).perform s').1 = .ok (some x) := by
    intro s' hs'
    obtain ⟨y, second, rfl, -⟩ :=
      finds_entity (fun e => Source.finds_findAt_has working) (met _ found x rfl) s' hs'
    exact second
  exact ⟨again first.2 after, fun s' versions failure =>
    again s' ⟨versions, failure.trans working.symm⟩⟩

/-- A station known by name alone, whose children are references; one of its channel groups is stored
as a reference to a version, and stays one. -/
theorem entity_idempotent_sparse :
    let sparse := Sample.station ⟨"STB", rfl⟩ ⟨.origin, none⟩
      [.reference ⟨"STA01", rfl⟩, .reference ⟨"STB01", rfl⟩] [.reference ⟨"STA.BHZ", rfl⟩]
    let s := Operation.run [.storeNetwork, .store .station [sparse],
      .store .channelGroup [.versionReference ⟨"STB01", rfl⟩ .origin]] (.fresh .all)
    let f := ((Faceting.leaf .station true).withFacet Faceting.groupsKey
      (.leaf .channelGroup true)).withFacet Faceting.channelsKey (.leaf .channel true)
    let e : Entity .station := .reference ⟨"STB", rfl⟩
    let first := (entity Source.findAt .origin .station f e).perform s
    s.repository.failure = none ∧ ∃ x, first.1 = .ok (some x) ∧
      x.groups.map (·.isPopulated) = [true, false] ∧
      ((entity Source.findAt .origin .station f x).perform first.2).1 = .ok (some x) := by
  intro sparse s f e first
  have working : s.repository.failure = none := rfl
  have groups : first.1.toOption.join.map (fun x => x.groups.map (·.isPopulated)) =
      some [true, false] := by decide +kernel
  obtain ⟨x, found, shape⟩ := exists_of_map_join groups
  exact ⟨working, x, found, shape, (entity_idempotent working f e .origin found).1⟩

/-- Over a repository of populated versions, what comes of faceting an entity has its identifier,
conforms to the definition, and lacks none of the children that a populated parent must have. -/
theorem entity_conforms {s : Stack}
    (stored : ∀ k, ∀ e ∈ s.repository.versions k, e.isPopulated = true) (f : Faceting)
    (e : Entity k) (t : Instant) {x : Entity k}
    (found : ((entity Source.findAt t k f e).perform s).1 = .ok (some x)) :
    x.id = e.id ∧ f.Conforms x ∧ (x.isPopulated = true → x.HasRequired) := by
  have drawn : s.DrawsOn s.repository := ⟨rfl, rfl⟩
  have own : ∀ (k : Kind) (e : Entity k),
      Yields (Stack.DrawsOn s.repository) (Source.findAt k [e.id] t) fun es =>
        ∀ x ∈ es, x.id = e.id :=
    fun k e => (Source.yields_findAt_versions [e.id] t).mono fun es h x hx =>
      List.mem_singleton.1 (h x hx).1
  have finds : ∀ k ids, Yields (Stack.DrawsOn s.repository) (Source.findAt k ids t) fun es =>
      ∀ e ∈ es, e.isPopulated = false → False := by
    intro k ids
    refine (Source.yields_findAt_versions ids t).mono fun es h e he missing => ?_
    rw [stored k e (Repository.versionAt?_some (h e he).2).1] at missing
    cases missing
  have met := (yields_meetsFacets finds k f e s drawn).2 _ found x rfl
  have identity := (yields_entity relates_id own k f e s drawn).2 _ found x rfl
  exact ⟨identity, met.conforms, met.hasRequired⟩

/-- The sample station group, faceted down to the responses of its channels. -/
theorem entity_conforms_network :
    let s := Stack.over Sample.network.repository .all
    let channel := (Faceting.leaf .channel true).withFacet Faceting.responseKey (.leaf .response true)
    let group := (Faceting.leaf .channelGroup true).withFacet Faceting.channelsKey channel
    let station := ((Faceting.leaf .station true).withFacet Faceting.groupsKey group).withFacet
      Faceting.channelsKey (.leaf .channel false)
    let f := (Faceting.leaf .stationGroup true).withFacet Faceting.stationsKey station
    let e : Entity .stationGroup := .reference ⟨"PRIMARY", rfl⟩
    (∀ k, ∀ e ∈ s.repository.versions k, e.isPopulated = true) ∧
      ∃ x, ((entity Source.findAt .origin .stationGroup f e).perform s).1 = .ok (some x) ∧
        x.isPopulated = true ∧ x.id = e.id ∧ f.Conforms x ∧ x.HasRequired := by
  intro s channel group station f e
  have stored := Sample.orderly_network.populated
  have present : ((entity Source.findAt .origin .stationGroup f e).perform s).1.toOption.join.map
      (·.isPopulated) = some true := by decide +kernel
  obtain ⟨x, found, populated⟩ := exists_of_map_join present
  obtain ⟨identity, conforms, required⟩ := entity_conforms stored f e .origin found
  exact ⟨stored, x, found, populated, identity, conforms, required populated⟩

/-- The channel groups and raw channels of a faceted station go together, whatever is asked for what
is missing. A populated group has channels, and raw channels by their names; and where the
definition wants the groups populated, the names of the raw channels are just those that the groups
have channels by. -/
theorem station_channels_agree (find : Finder) (f : Faceting) (e : Entity .station) (t : Instant)
    (s : Stack) {x : Entity .station}
    (found : ((entity find t .station f e).perform s).1 = .ok (some x))
    (populated : x.isPopulated = true) :
    (∀ g ∈ x.groups, g.isPopulated = true →
      g.channels ≠ [] ∧ ∀ c ∈ g.channels, c.id ∈ x.rawChannels.map (·.id)) ∧
    ∀ d, f.facet? Faceting.groupsKey = some d → d.populated = true →
      ∀ n, n ∈ x.rawChannels.map (·.id) ↔ ∃ g ∈ x.groups, n ∈ g.channels.map (·.id) := by
  have anything : ∀ k ids, Yields (fun _ => True) (find k ids t) fun es =>
      ∀ e ∈ es, e.isPopulated = false → True :=
    fun _ _ _ _ => ⟨trivial, fun _ _ _ _ _ => trivial⟩
  have met : MeetsStation (fun _ => True) f x :=
    (yields_meetsStation anything f e s trivial).2 _ found x rfl
  obtain ⟨-, -, matched⟩ := Meets.populated met (Meets.wanted met populated) populated
  have grouped : ∀ g ∈ x.groups, ∀ c ∈ g.channels, c.id ∈ x.rawChannels.map (·.id) := by
    intro g hg c hc
    obtain ⟨-, -, -, kept⟩ := of_restrict (matched.groups g hg)
    exact List.mem_map.2 (mem_expectedNames.1 ((kept c).1 hc).2).1
  constructor
  · intro g hg present
    obtain ⟨-, -, held, -⟩ := of_restrict (matched.groups g hg)
    exact ⟨held present, grouped g hg⟩
  · intro d named wanted n
    constructor
    · intro hn
      obtain ⟨c, hc, rfl⟩ := List.mem_map.1 hn
      have grouping : (f.facet? Faceting.groupsKey).any (·.populated) = true := by
        rw [named, Option.any_some, wanted]
      obtain ⟨-, shared⟩ := mem_expectedNames.1 (matched.channels c hc)
      obtain ⟨g, hg, d, hd, same⟩ := shared grouping
      exact ⟨g, hg, List.mem_map.2 ⟨d, hd, same⟩⟩
    · intro ⟨g, hg, hn⟩
      obtain ⟨c, hc, rfl⟩ := List.mem_map.1 hn
      exact grouped g hg c hc

/-- A station with a raw channel that its group lacks, while the group has a channel that is no raw
channel of the station. -/
theorem station_channels_agree_loose :
    let c (name : String) : Entity .channel := Sample.channel ⟨name, rfl⟩ ⟨.origin, none⟩ none
    let g := Sample.channelGroup ⟨"STA01", rfl⟩ ⟨"STA", rfl⟩ ⟨.origin, none⟩
      [c "STA.BHZ", c "STA.BHE"]
    let e := Sample.station ⟨"STA", rfl⟩ ⟨.origin, none⟩ [g] [c "STA.BHZ", c "STA.BHN"]
    let f := (Faceting.leaf .station true).withFacet Faceting.groupsKey (.leaf .channelGroup true)
    let s := Stack.over Sample.network.repository .all
    ∃ x, ((entity Source.findAt .origin .station f e).perform s).1 = .ok (some x) ∧
      x.isPopulated = true ∧ x.groups.map (·.isPopulated) = [true] ∧
      (∀ g ∈ x.groups, g.isPopulated = true →
        g.channels ≠ [] ∧ ∀ c ∈ g.channels, c.id ∈ x.rawChannels.map (·.id)) ∧
      ∀ n, n ∈ x.rawChannels.map (·.id) ↔ ∃ g ∈ x.groups, n ∈ g.channels.map (·.id) := by
  intro c g e f s
  have shape : ((entity Source.findAt .origin .station f e).perform s).1.toOption.join.map
      (fun x => (x.isPopulated, x.groups.map (·.isPopulated))) = some (true, [true]) := by
    decide +kernel
  obtain ⟨x, found, same⟩ := exists_of_map_join shape
  obtain ⟨populated, groups⟩ := Prod.mk.inj same
  obtain ⟨held, names⟩ := station_channels_agree Source.findAt f e .origin s found populated
  exact ⟨x, found, populated, groups, held, names _ rfl rfl⟩

end Populate

end StationCatalog
