import StationCatalog.Entity.Equality
import StationCatalog.Proofs.PointLookups

/-!
Lookups at an instant through the version cache, kind by kind, from responses up. What each of them
answers is told by the stored versions alone, children resolved in turn; so over an orderly content
the answer does not depend on what is cached, save for the responses that channels carry.
-/

namespace StationCatalog

open Lookup

namespace Entity

/-- The station that owns a channel group or a channel. -/
def owner? : {k : Kind} → Entity k → Option (Entity .station)
  | _, populated _ _ (.channelGroup _ _ _ owner _) => some owner
  | _, populated _ _ (.channel _ owner _ _ _) => some owner
  | _, _ => none

variable {k : Kind}

theorem map_id_toReference (es : List (Entity k)) :
    (es.map toReference).map id = es.map id := by
  rw [List.map_map]
  rfl

theorem toReference_of_isReference {e : Entity k} (h : e.isReference = true) :
    e.toReference = e := by
  cases e with
  | reference => rfl
  | versionReference | populated => cases h

theorem demote_response (e : Entity .response) : e.demote = e := by
  match e with
  | .reference _ | .versionReference .. | .populated _ _ (.response ..) => rfl

theorem toVersionReference_demote (e : Entity k) :
    e.demote.toVersionReference = e.toVersionReference := by
  cases e <;> rfl

theorem toVersionReference_withResponse (e : Entity .channel) (x : Entity .response) :
    (e.withResponse x).toVersionReference = e.toVersionReference := by
  match e with
  | .reference _ | .versionReference .. | .populated _ _ (.channel ..) => rfl

theorem channels_demote (e : Entity .channelGroup) :
    e.demote.channels.map id = e.channels.map id := by
  match e with
  | .reference _ | .versionReference .. => rfl
  | .populated _ _ (.channelGroup ..) => exact map_id_toReference _

theorem map_id_response?_demote (c : Entity .channel) :
    c.demote.response?.map id = c.response?.map id := by
  match c with
  | .reference _ | .versionReference .. => rfl
  | .populated _ _ (.channel _ _ _ _ none) | .populated _ _ (.channel _ _ _ _ (some _)) => rfl

theorem withChannels_demote {e : Entity .channelGroup}
    (owned : ∀ owner ∈ e.owner?, owner.isReference = true) (cs : List (Entity .channel)) :
    e.demote.withChannels cs = e.withChannels cs := by
  match e with
  | .reference _ | .versionReference .. => rfl
  | .populated _ _ (.channelGroup _ _ _ owner _) =>
      have same : owner.toReference = owner := toReference_of_isReference (owned owner rfl)
      simp only [demote, EntityData.demote, withChannels, same]

theorem demote_withChannels_demote (e : Entity .channelGroup) (cs : List (Entity .channel)) :
    (e.demote.withChannels cs).demote = (e.withChannels cs).demote := by
  match e with
  | .reference _ | .versionReference .. | .populated _ _ (.channelGroup ..) => rfl

theorem groups_demote (e : Entity .station) : e.demote.groups.map id = e.groups.map id := by
  match e with
  | .reference _ | .versionReference .. => rfl
  | .populated _ _ (.station ..) => exact map_id_toReference _

theorem rawChannels_demote (e : Entity .station) :
    e.demote.rawChannels.map id = e.rawChannels.map id := by
  match e with
  | .reference _ | .versionReference .. => rfl
  | .populated _ _ (.station ..) => exact map_id_toReference _

theorem toReference_rawChannels_demote (e : Entity .station) :
    e.demote.rawChannels.map toReference = e.rawChannels.map toReference := by
  match e with
  | .reference _ | .versionReference .. => rfl
  | .populated _ _ (.station ..) =>
      exact (List.map_map ..).trans (List.map_congr_left fun _ _ => rfl)

theorem withChildren_demote (e : Entity .station) (gs : List (Entity .channelGroup))
    (cs : List (Entity .channel)) : e.demote.withChildren gs cs = e.withChildren gs cs := by
  match e with
  | .reference _ | .versionReference .. | .populated _ _ (.station ..) => rfl

theorem stations_demote (e : Entity .stationGroup) :
    e.demote.stations.map id = e.stations.map id := by
  match e with
  | .reference _ | .versionReference .. => rfl
  | .populated _ _ (.stationGroup ..) => exact map_id_toReference _

theorem withStations_demote (e : Entity .stationGroup) (ss : List (Entity .station)) :
    e.demote.withStations ss = e.withStations ss := by
  match e with
  | .reference _ | .versionReference .. | .populated _ _ (.stationGroup ..) => rfl

end Entity

/-- No child of a stored version has a blank name. -/
structure Repository.ChildrenNamed (r : Repository) : Prop where
  stations : ∀ g ∈ r.versions .stationGroup, ∀ s ∈ g.stations, isBlank s.id.text = false
  groups : ∀ s ∈ r.versions .station, ∀ g ∈ s.groups, isBlank g.id.text = false
  rawChannels : ∀ s ∈ r.versions .station, ∀ c ∈ s.rawChannels, isBlank c.id.text = false
  channels : ∀ g ∈ r.versions .channelGroup, ∀ c ∈ g.channels, isBlank c.id.text = false

theorem named_map_id {k : Kind} {es : List (Entity k)}
    (h : ∀ e ∈ es, isBlank e.id.text = false) : Named (es.map (·.id)) := by
  intro _ id hid
  obtain ⟨e, he, rfl⟩ := List.mem_map.1 hid
  exact h e he

namespace Cached

variable (r : Repository) (t : Instant)

/-- A channel with the version of its response, or with the one it came with if there is none. -/
def channelAnswer (e : Entity .channel) : Entity .channel :=
  match e.response?.bind fun response => r.versionAt? response.id t with
  | some found => e.withResponse found
  | none => e

/-- The versions of channels at the instant, as references to them. -/
def channelAnswers (ids : List (EntityId .channel)) : List (Entity .channel) :=
  answersAt r (fun e => some e.toVersionReference) ids t

/-- A channel group with the versions of its channels. -/
def groupAnswer (e : Entity .channelGroup) : Option (Entity .channelGroup) :=
  let channels := channelAnswers r t (e.channels.map (·.id))
  if channels.isEmpty then none else some (e.withChannels channels)

/-- The versions of channel groups at the instant that have channels. -/
def groupAnswers (ids : List (EntityId .channelGroup)) : List (Entity .channelGroup) :=
  answersAt r (groupAnswer r t) ids t

/-- A station with the versions of its raw channels and the channel groups of these. -/
def stationAnswer (e : Entity .station) : Option (Entity .station) :=
  let channels := channelAnswers r t (e.rawChannels.map (·.id))
  let groups := (groupAnswers r t (e.groups.map (·.id))).filter (refersWithin channels)
  if channels.isEmpty || groups.isEmpty then none else some (e.withChildren groups channels)

/-- The versions of stations at the instant that have children. -/
def stationAnswers (ids : List (EntityId .station)) : List (Entity .station) :=
  answersAt r (stationAnswer r t) ids t

/-- A station group with the versions of its stations. -/
def stationGroupAnswer (e : Entity .stationGroup) : Option (Entity .stationGroup) :=
  let stations := (stationAnswers r t (e.stations.map (·.id))).map (·.toVersionReference)
  if stations.isEmpty then none else some (e.withStations stations)

variable {r t}

theorem answersAt_singleton {k : Kind} (id : EntityId k) :
    answersAt r some [id] t = (r.versionAt? id t).toList := by
  rw [answersAt, show EntityId.distinct [id] = [id] from rfl, List.filterMap_cons]
  cases r.versionAt? id t <;> rfl

theorem id_of_groupAnswer {e x : Entity .channelGroup} (h : groupAnswer r t e = some x) :
    x.id = e.id := by
  simp only [groupAnswer] at h
  split at h
  · cases h
  · rw [← Option.some.inj h, Entity.id_withChannels]

theorem id_of_stationAnswer {e x : Entity .station} (h : stationAnswer r t e = some x) :
    x.id = e.id := by
  simp only [stationAnswer] at h
  split at h
  · cases h
  · rw [← Option.some.inj h, Entity.id_withChildren]

theorem id_of_stationGroupAnswer {e x : Entity .stationGroup}
    (h : stationGroupAnswer r t e = some x) : x.id = e.id := by
  simp only [stationGroupAnswer] at h
  split at h
  · cases h
  · rw [← Option.some.inj h, Entity.id_withStations]

theorem groupAnswer_demote {e : Entity .channelGroup}
    (owned : ∀ owner ∈ e.owner?, owner.isReference = true) :
    groupAnswer r t e.demote = groupAnswer r t e := by
  simp only [groupAnswer, Entity.channels_demote, Entity.withChannels_demote owned]

theorem map_demote_groupAnswer_demote (e : Entity .channelGroup) :
    (groupAnswer r t e.demote).map Entity.demote = (groupAnswer r t e).map Entity.demote := by
  simp only [groupAnswer, Entity.channels_demote]
  split
  · rfl
  · exact congrArg some (Entity.demote_withChannels_demote e _)

theorem stationAnswer_demote (e : Entity .station) :
    stationAnswer r t e.demote = stationAnswer r t e := by
  simp only [stationAnswer, Entity.rawChannels_demote, Entity.groups_demote,
    Entity.withChildren_demote]

theorem stationGroupAnswer_demote (e : Entity .stationGroup) :
    stationGroupAnswer r t e.demote = stationGroupAnswer r t e := by
  simp only [stationGroupAnswer, Entity.stations_demote, Entity.withStations_demote]

section

variable {w : TimeRange} {P : Stack → Prop}

theorem finds_responsesAt (hr : r.Consistent) (hP : Stack.Grounded r w .response P)
    (ids : List (EntityId .response)) :
    Finds P (responsesAt ids t) fun es => es = answersAt r some ids t := by
  refine finds_pointLookup_eq hr hP ?_ (named_responses ids) (fun v _ => .pure rfl) ?_
  · intro v x h
    rw [Option.some.inj h]
  · intro v _
    rw [Entity.demote_response]
    exact .pure rfl

theorem finds_resolveChannel (hr : r.Consistent) (hP : Stack.Grounded r w .response P)
    (e : Entity .channel) :
    Finds P (resolveChannel t e) fun o => o = some (channelAnswer r t e) := by
  unfold resolveChannel channelAnswer
  split
  next none =>
    rw [none, Option.bind_none]
    exact .pure rfl
  next response carried =>
    rw [carried, Option.bind_some]
    apply (finds_responsesAt hr hP _).bind
    rintro _ rfl
    rw [answersAt_singleton]
    cases r.versionAt? response.id t with
    | none => exact .pure rfl
    | some found => exact .pure rfl

/-- Whatever is found of its response, a channel stays the version it is. -/
theorem finds_resolveChannel_version (hP : Stack.Served r w .response P) (e : Entity .channel) :
    Finds P (resolveChannel t e) fun o =>
      o.map Entity.toVersionReference = some e.toVersionReference := by
  unfold resolveChannel
  split
  · exact .pure rfl
  next response _ =>
    have asked : Finds P (responsesAt [response.id] t) fun _ => True :=
      finds_pointLookup_any hP (named_responses _) fun _ => .pure trivial
    apply asked.bind
    intro found _
    split
    · exact .pure (congrArg some (Entity.toVersionReference_withResponse e _))
    · exact .pure rfl

theorem finds_channelsAt (hr : r.Consistent) (hC : Stack.Grounded r w .channel P)
    (hR : Stack.Served r w .response P) {ids : List (EntityId .channel)} (named : Named ids) :
    Finds P (channelsAt ids t) fun es =>
      es.map Entity.toVersionReference = channelAnswers r t ids := by
  refine finds_pointLookup hr hC Entity.version_toVersionReference ?_ named ?_ ?_
  · intro v x h
    rw [← Option.some.inj h, Entity.id_toVersionReference]
  · exact fun v _ => finds_resolveChannel_version hR v
  · intro v _
    rw [← Entity.toVersionReference_demote v]
    exact finds_resolveChannel_version hR v.demote

theorem finds_resolveGroup (hr : r.Consistent) (hC : Stack.Grounded r w .channel P)
    (hR : Stack.Served r w .response P) {e : Entity .channelGroup}
    (populated : e.isPopulated = true) (named : Named (e.channels.map (·.id))) :
    Finds P (resolveGroup t e) fun o => o = groupAnswer r t e := by
  rw [resolveGroup, if_pos populated]
  apply (finds_channelsAt hr hC hR named).bind
  intro channels h
  simp only [groupAnswer, ← h, List.isEmpty_map]
  split
  · exact .pure rfl
  · exact .pure rfl

theorem finds_resolveGroup_stored (hr : r.Consistent) (hC : Stack.Grounded r w .channel P)
    (hR : Stack.Served r w .response P) (children : r.ChildrenNamed) {v : Entity .channelGroup}
    (hv : v ∈ r.versions .channelGroup) :
    Finds P (resolveGroup t v) fun o => o = groupAnswer r t v :=
  finds_resolveGroup hr hC hR (hr.populated _ v hv) (named_map_id (children.channels v hv))

theorem finds_resolveGroup_demote (hr : r.Consistent) (hC : Stack.Grounded r w .channel P)
    (hR : Stack.Served r w .response P) (children : r.ChildrenNamed) {v : Entity .channelGroup}
    (hv : v ∈ r.versions .channelGroup) :
    Finds P (resolveGroup t v.demote) fun o => o = groupAnswer r t v.demote := by
  apply finds_resolveGroup hr hC hR
  · rw [Entity.isPopulated_demote, hr.populated _ v hv]
  · rw [Entity.channels_demote]
    exact named_map_id (children.channels v hv)

/-- Up to the form of their children and of the owning station, channel groups are told by the
stored versions. -/
theorem finds_groupsAt_demote (hr : r.Consistent) (hG : Stack.Grounded r w .channelGroup P)
    (hC : Stack.Grounded r w .channel P) (hR : Stack.Served r w .response P)
    (children : r.ChildrenNamed) {ids : List (EntityId .channelGroup)} (named : Named ids) :
    Finds P (groupsAt ids t) fun es => es.map Entity.demote =
      answersAt r (fun e => (groupAnswer r t e).map Entity.demote) ids t := by
  refine finds_pointLookup hr hG Entity.version_demote ?_ named ?_ ?_
  · intro v x h
    obtain ⟨y, hy, rfl⟩ := Option.map_eq_some_iff.1 h
    rw [Entity.id_demote, id_of_groupAnswer hy]
  · intro v hv
    exact (finds_resolveGroup_stored hr hC hR children hv).mono fun _ ho => by rw [ho]
  · intro v hv
    rw [← map_demote_groupAnswer_demote v]
    exact (finds_resolveGroup_demote hr hC hR children hv).mono fun _ ho => by rw [ho]

variable (hr : r.Orderly)

include hr

theorem finds_groupsAt (children : r.ChildrenNamed)
    (owned : ∀ g ∈ r.versions .channelGroup, ∀ owner ∈ g.owner?, owner.isReference = true)
    {ids : List (EntityId .channelGroup)} (named : Named ids) :
    Finds (Stack.Faithful r w) (groupsAt ids t) fun es => es = groupAnswers r t ids := by
  have faithful := fun k => (Stack.kept_faithful hr w k).grounded
  refine finds_pointLookup_eq hr.consistent (faithful .channelGroup) (fun _ _ => id_of_groupAnswer)
    named ?_ ?_
  · intro v hv
    exact finds_resolveGroup_stored hr.consistent (faithful _) (faithful _).toServed children hv
  · intro v hv
    rw [← groupAnswer_demote (owned v hv)]
    exact finds_resolveGroup_demote hr.consistent (faithful _) (faithful _).toServed children hv

variable (children : r.ChildrenNamed)
  (owned : ∀ g ∈ r.versions .channelGroup, ∀ owner ∈ g.owner?, owner.isReference = true)

include children owned

theorem finds_resolveStation {e : Entity .station} (populated : e.isPopulated = true)
    (channelsNamed : Named (e.rawChannels.map (·.id)))
    (groupsNamed : Named (e.groups.map (·.id))) :
    Finds (Stack.Faithful r w) (resolveStation t e) fun o => o = stationAnswer r t e := by
  rw [resolveStation, if_pos populated]
  have faithful := fun k => (Stack.kept_faithful hr w k).grounded
  have resolved := finds_channelsAt (t := t) hr.consistent (faithful _) (faithful _).toServed
    channelsNamed
  apply resolved.bind
  intro channels hchannels
  apply (finds_groupsAt hr children owned groupsNamed).bind
  rintro groups rfl
  simp only [stationAnswer, ← hchannels]
  split
  · exact .pure rfl
  · exact .pure rfl

theorem finds_stationsAt {ids : List (EntityId .station)} (named : Named ids) :
    Finds (Stack.Faithful r w) (stationsAt ids t) fun es => es = stationAnswers r t ids := by
  refine finds_pointLookup_eq hr.consistent (Stack.kept_faithful hr w .station).grounded
    (fun _ _ => id_of_stationAnswer) named ?_ ?_
  · intro v hv
    exact finds_resolveStation hr children owned (hr.populated _ v hv)
      (named_map_id (children.rawChannels v hv)) (named_map_id (children.groups v hv))
  · intro v hv
    rw [← stationAnswer_demote v]
    apply finds_resolveStation hr children owned
    · rw [Entity.isPopulated_demote, hr.populated _ v hv]
    · rw [Entity.rawChannels_demote]
      exact named_map_id (children.rawChannels v hv)
    · rw [Entity.groups_demote]
      exact named_map_id (children.groups v hv)

theorem finds_resolveStationGroup {e : Entity .stationGroup} (populated : e.isPopulated = true)
    (named : Named (e.stations.map (·.id))) :
    Finds (Stack.Faithful r w) (resolveStationGroup t e) fun o => o = stationGroupAnswer r t e := by
  rw [resolveStationGroup, if_pos populated]
  apply (finds_stationsAt hr children owned named).bind
  rintro stations rfl
  simp only [stationGroupAnswer, List.isEmpty_map]
  split
  · exact .pure rfl
  · exact .pure rfl

theorem finds_stationGroupsAt {ids : List (EntityId .stationGroup)} (named : Named ids) :
    Finds (Stack.Faithful r w) (stationGroupsAt ids t)
      fun es => es = answersAt r (stationGroupAnswer r t) ids t := by
  refine finds_pointLookup_eq hr.consistent (Stack.kept_faithful hr w .stationGroup).grounded
    (fun _ _ => id_of_stationGroupAnswer) named ?_ ?_
  · intro v hv
    exact finds_resolveStationGroup hr children owned (hr.populated _ v hv)
      (named_map_id (children.stations v hv))
  · intro v hv
    rw [← stationGroupAnswer_demote v]
    apply finds_resolveStationGroup hr children owned
    · rw [Entity.isPopulated_demote, hr.populated _ v hv]
    · rw [Entity.stations_demote]
      exact named_map_id (children.stations v hv)

/-- Faithful stacks over one content answer a point lookup alike, save for channels. -/
theorem exists_finds_findAt {k : Kind} (hk : k ≠ .channel) {ids : List (EntityId k)}
    (named : Named ids) :
    ∃ es, ∀ w, Finds (Stack.Faithful r w) (findAt k ids t) fun found => found = es := by
  cases k with
  | stationGroup => exact ⟨_, fun _ => finds_stationGroupsAt hr children owned named⟩
  | station => exact ⟨_, fun _ => finds_stationsAt hr children owned named⟩
  | channelGroup => exact ⟨_, fun _ => finds_groupsAt hr children owned named⟩
  | channel => exact absurd rfl hk
  | response =>
      have grounded := fun w => (Stack.kept_faithful hr w .response).grounded
      exact ⟨_, fun w => finds_responsesAt hr.consistent (grounded w) ids⟩

end

end Cached

/-- Point lookups are transparent: after any run without stores a lookup of any kind but channels
answers as it does on a stack over the same repository with nothing cached, whatever the window of
that stack; where that window is empty nothing ever is. -/
theorem Operation.findAt_transparent {r : Repository} (hr : r.Orderly)
    (children : r.ChildrenNamed)
    (owned : ∀ g ∈ r.versions .channelGroup, ∀ owner ∈ g.owner?, owner.isReference = true)
    {ops : List Operation} (hops : ∀ op ∈ ops, op.isStore = false ∧ op.isCacheWrite = false)
    {w : TimeRange} (working : (run ops (.over r w)).repository.failure = none) {k : Kind}
    (hk : k ≠ .channel) {ids : List (EntityId k)} (named : ∀ id ∈ ids, isBlank id.text = false)
    (t : Instant) (window : TimeRange) :
    ∃ es, ((Cached.findAt k ids t).perform (run ops (.over r w))).1 = .ok es ∧
      ((Cached.findAt k ids t).perform (.over (run ops (.over r w)).repository window)).1
        = .ok es := by
  have reached := run_faithful hr hops working
  have plain : (Stack.over (run ops (.over r w)).repository window).Faithful r window :=
    ⟨reached.versions, working, rfl, .empty⟩
  obtain ⟨es, h⟩ := Cached.exists_finds_findAt (t := t) hr children owned hk fun _ => named
  obtain ⟨_, found, rfl, -⟩ := h _ _ reached
  obtain ⟨_, found', rfl, -⟩ := h _ _ plain
  exact ⟨_, found, found'⟩

/-- A station is answered alike once its channel group is cached and with nothing cached: by one
entity, which refers to the versions of its children at the instant. -/
theorem Operation.findAt_transparent_network :
    let ops := [.findAt (.caching .cached) .channelGroup [⟨"STA01", rfl⟩] .origin]
    let s := run ops (.over Sample.network.repository .all)
    let channel : Entity .channel := .versionReference ⟨"STA.BHZ", rfl⟩ .origin
    let station := Sample.network.station.withChildren
      [Sample.network.channelGroup.withChannels [channel]] [channel]
    s.repository.failure = none ∧ ∃ e, e.equals station = true ∧
      ((Cached.findAt .station [⟨"STA", rfl⟩] .origin).perform s).1 = .ok [e] ∧
      ((Cached.findAt .station [⟨"STA", rfl⟩] .origin).perform
        (.over s.repository (.closedOpen .origin .origin))).1 = .ok [e] := by
  intro ops s channel station
  have children : Sample.network.repository.ChildrenNamed := by constructor <;> decide
  have owned : ∀ g ∈ Sample.network.repository.versions .channelGroup, ∀ owner ∈ g.owner?,
      owner.isReference = true := by decide
  have hops : ∀ op ∈ ops, op.isStore = false ∧ op.isCacheWrite = false := by decide
  have working : s.repository.failure = none := rfl
  have named : ∀ id ∈ [(⟨"STA", rfl⟩ : EntityId .station)], isBlank id.text = false := by decide
  have answered : (((Cached.findAt .station [⟨"STA", rfl⟩] .origin).perform s).1.toOption.map
      fun es => (es.length, es.all (·.equals station))) = some (1, true) := by decide +kernel
  obtain ⟨es, cached, plain⟩ := findAt_transparent Sample.orderly_network children owned hops
    working (by decide) named .origin (.closedOpen .origin .origin)
  rw [cached] at answered
  obtain ⟨single, equal⟩ := Prod.mk.inj (Option.some.inj answered)
  obtain ⟨e, rfl⟩ := List.length_eq_one_iff.1 single
  exact ⟨working, e, List.all_eq_true.1 equal e (List.mem_singleton_self e), cached, plain⟩

end StationCatalog
