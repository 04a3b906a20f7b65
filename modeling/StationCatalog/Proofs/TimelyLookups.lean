import StationCatalog.Proofs.DrawnLookups

/-!
Lookups through the version cache that keep to the time asked about. Whatever was stored since, a
version is cached over its own validity only, so what a lookup returns holds at the instant, or
within the range, it was asked for, and the children it lists are versions that have started.
-/

namespace StationCatalog

open Lookup

variable {k : Kind}

namespace Entity

/-- A reference to a version that has started by an instant. -/
def IsVersionBy (t : Instant) : Entity k → Prop
  | .versionReference _ start => start ≤ t
  | .reference _ | .populated .. => False

/-- The stations and channels an entity lists are references to versions that have started by an
instant, and so are the channels of the channel groups in a station. -/
def Settled (t : Instant) : {k : Kind} → Entity k → Prop
  | .stationGroup, e => ∀ s ∈ e.stations, s.IsVersionBy t
  | .station, e => (∀ c ∈ e.rawChannels, c.IsVersionBy t) ∧
    ∀ g ∈ e.groups, ∀ c ∈ g.channels, c.IsVersionBy t
  | .channelGroup, e => ∀ c ∈ e.channels, c.IsVersionBy t
  | .channel, _ | .response, _ => True

variable {t start stop : Instant}

theorem holdsAt_congr {e e' : Entity k} (hstart : e'.start? = e.start?)
    (hstop : e'.stop? = e.stop?) : e'.holdsAt t = e.holdsAt t := by
  rw [holdsAt, hstart, hstop, holdsAt]

theorem holdsAt_toVersionReference {e : Entity k} (h : e.holdsAt t = true) :
    e.toVersionReference.holdsAt t = true := by
  rw [holdsAt_iff] at h
  rw [holdsAt_iff, start?_toVersionReference, stop?_toVersionReference]
  exact ⟨h.1, fun u stops => absurd stops.symm (Option.some_ne_none u)⟩

theorem isVersionBy_toVersionReference {e : Entity k} (h : e.holdsAt t = true) :
    e.toVersionReference.IsVersionBy t := by
  obtain ⟨⟨s, hs, hle⟩, -⟩ := holdsAt_iff.1 h
  rw [toVersionReference, hs]
  exact hle

theorem isVersionBy_of_mem_map {es : List (Entity k)} (h : ∀ e ∈ es, e.holdsAt t = true) :
    ∀ e ∈ es.map toVersionReference, e.IsVersionBy t := by
  intro e he
  obtain ⟨x, hx, rfl⟩ := List.mem_map.1 he
  exact isVersionBy_toVersionReference (h x hx)

theorem stations_withStations_subset (e : Entity .stationGroup) (ss : List (Entity .station)) :
    (e.withStations ss).stations ⊆ ss := by
  match e with
  | .reference _ | .versionReference .. => exact List.nil_subset ss
  | .populated _ _ (.stationGroup ..) => exact List.Subset.refl ss

theorem groups_withChildren_subset (e : Entity .station) (gs : List (Entity .channelGroup))
    (cs : List (Entity .channel)) : (e.withChildren gs cs).groups ⊆ gs := by
  match e with
  | .reference _ | .versionReference .. => exact List.nil_subset gs
  | .populated _ _ (.station ..) => exact List.Subset.refl gs

theorem rawChannels_withChildren_subset (e : Entity .station) (gs : List (Entity .channelGroup))
    (cs : List (Entity .channel)) : (e.withChildren gs cs).rawChannels ⊆ cs := by
  match e with
  | .reference _ | .versionReference .. => exact List.nil_subset cs
  | .populated _ _ (.station ..) => exact List.Subset.refl cs

theorem channels_withChannels_subset (e : Entity .channelGroup) (cs : List (Entity .channel)) :
    (e.withChannels cs).channels ⊆ cs := by
  match e with
  | .reference _ | .versionReference .. => exact List.nil_subset cs
  | .populated _ _ (.channelGroup ..) => exact List.Subset.refl cs

/-- References list no children. -/
theorem settled_of_isPopulated_eq_false {e : Entity k} (h : e.isPopulated = false) :
    e.Settled t := by
  have none : ∀ {α : Type} {p : α → Prop}, ∀ a ∈ ([] : List α), p a :=
    fun _ h => absurd h List.not_mem_nil
  cases e with
  | populated => cases h
  | reference | versionReference =>
      cases k with
      | stationGroup | channelGroup => exact none
      | station => exact ⟨none, none⟩
      | channel | response => trivial

end Entity

/-- A result fits a request: it holds when the request asks, and where whole versions are asked for
at an instant its children are settled. -/
def Request.Fits : (slot : Slot) → Request → slot.Result → Prop
  | .entities _, request, e =>
    match request.time with
    | .at t => e.holdsAt t = true ∧ (request.faceting = none → e.Settled t)
    | .within start stop => e.holdsWithin start stop = true
  | .changeTimes, _, _ => True

/-- A stack that caches versions over their own validity, and remembers what fits. -/
structure Stack.Timely (s : Stack) : Prop where
  drawn : s.versionCache.DrawnFrom fun _ _ => True
  memos : ∀ m ∈ s.requestCache.memos, ∀ x ∈ m.results, m.request.Fits m.slot x

section

variable {t start stop : Instant} {P : Stack → Prop} (hP : Stack.Drawing P)

namespace Cached

include hP

theorem yields_pointLookup {resolve : Entity k → Lookup (Option (Entity k))} {Q : Entity k → Prop}
    (hresolve : ∀ e, e.holdsAt t = true → Yields P (resolve e) fun o => ∀ x ∈ o, Q x)
    (ids : List (EntityId k)) :
    Yields P (pointLookup resolve ids t) fun es => ∀ e ∈ es, Q e :=
  yields_pointLookup_of
    (fun id => (yields_recallAt hP id t).mono fun _ h e he => (h e he).2.2)
    (fun w ids => (yields_fetchAt hP w ids t).mono fun _ h => h.2) hresolve ids

theorem yields_responsesAt (ids : List (EntityId .response)) (t : Instant) :
    Yields P (responsesAt ids t) fun es => ∀ e ∈ es, e.holdsAt t = true :=
  yields_pointLookup hP (fun _ he => .some he) ids

theorem yields_channelsAt (ids : List (EntityId .channel)) (t : Instant) :
    Yields P (channelsAt ids t) fun es => ∀ e ∈ es, e.holdsAt t = true := by
  apply yields_pointLookup hP
  intro e he
  unfold resolveChannel
  split
  · exact .some he
  · apply (yields_responsesAt hP _ t).bind
    intro found _
    split
    next response _ =>
      apply Yields.some
      rw [Entity.holdsAt_congr (Entity.start?_withResponse e response)
        (Entity.stop?_withResponse e response)]
      exact he
    next => exact .some he

theorem yields_groupsAt (ids : List (EntityId .channelGroup)) (t : Instant) :
    Yields P (groupsAt ids t) fun es => ∀ e ∈ es, e.holdsAt t = true ∧ e.Settled t := by
  apply yields_pointLookup hP
  intro e he
  unfold resolveGroup
  split
  next =>
    apply (yields_channelsAt hP _ t).bind
    intro channels hchannels
    split
    · exact .none
    · refine .some ⟨(Entity.holdsAt_congr (Entity.start?_withChannels e _)
        (Entity.stop?_withChannels e _)).trans he, ?_⟩
      intro c hc
      exact Entity.isVersionBy_of_mem_map hchannels c (Entity.channels_withChannels_subset e _ hc)
  next unpopulated =>
    exact .some ⟨he, Entity.settled_of_isPopulated_eq_false (Bool.eq_false_iff.2 unpopulated)⟩

theorem yields_stationsAt (ids : List (EntityId .station)) (t : Instant) :
    Yields P (stationsAt ids t) fun es => ∀ e ∈ es, e.holdsAt t = true ∧ e.Settled t := by
  apply yields_pointLookup hP
  intro e he
  unfold resolveStation
  split
  next =>
    refine (yields_channelsAt hP _ t).bind fun channels hchannels =>
      (yields_groupsAt hP _ t).bind fun groups hgroups => ?_
    dsimp only
    split
    · exact .none
    · refine .some ⟨(Entity.holdsAt_congr (Entity.start?_withChildren e _ _)
        (Entity.stop?_withChildren e _ _)).trans he, ?_, ?_⟩
      · intro c hc
        exact Entity.isVersionBy_of_mem_map hchannels c
          (Entity.rawChannels_withChildren_subset e _ _ hc)
      · intro g hg
        have listed := Entity.groups_withChildren_subset e _ _ hg
        exact (hgroups g (List.mem_filter.1 listed).1).2
  next unpopulated =>
    exact .some ⟨he, Entity.settled_of_isPopulated_eq_false (Bool.eq_false_iff.2 unpopulated)⟩

theorem yields_stationGroupsAt (ids : List (EntityId .stationGroup)) (t : Instant) :
    Yields P (stationGroupsAt ids t) fun es =>
      ∀ e ∈ es, e.holdsAt t = true ∧ e.Settled t := by
  apply yields_pointLookup hP
  intro e he
  unfold resolveStationGroup
  split
  next =>
    apply (yields_stationsAt hP _ t).bind
    intro stations hstations
    split
    · exact .none
    · refine .some ⟨(Entity.holdsAt_congr (Entity.start?_withStations e _)
        (Entity.stop?_withStations e _)).trans he, ?_⟩
      intro s hs
      exact Entity.isVersionBy_of_mem_map (fun s hs => (hstations s hs).1) s
        (Entity.stations_withStations_subset e _ hs)
  next unpopulated =>
    exact .some ⟨he, Entity.settled_of_isPopulated_eq_false (Bool.eq_false_iff.2 unpopulated)⟩

theorem yields_findAt (k : Kind) (ids : List (EntityId k)) (t : Instant) :
    Yields P (findAt k ids t) fun es => ∀ e ∈ es, e.holdsAt t = true ∧ e.Settled t := by
  cases k with
  | stationGroup => exact yields_stationGroupsAt hP ids t
  | station => exact yields_stationsAt hP ids t
  | channelGroup => exact yields_groupsAt hP ids t
  | channel => exact (yields_channelsAt hP ids t).mono fun es h e he => ⟨h e he, trivial⟩
  | response => exact (yields_responsesAt hP ids t).mono fun es h e he => ⟨h e he, trivial⟩

end Cached

end

end StationCatalog
