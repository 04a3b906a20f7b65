import StationCatalog.Proofs.CachedStations
import StationCatalog.Proofs.CachedVersions
import StationCatalog.Proofs.SoundCache
import StationCatalog.Proofs.TimelyLookups

/-!
Stations over a range that is cached as a whole. Each cached version in the range keeps its own data
and raw channels and takes its channel groups as of its own start, cut down to these channels;
looking the groups up leaves what is cached of stations as it is, and asks for no station.
-/

namespace StationCatalog

open Lookup

namespace Entity

/-- A channel group that holds at an instant and refers to some channels, all among `names`. -/
structure CutDown (t : Instant) (names : List (EntityId .channel)) (g : Entity .channelGroup) :
    Prop where
  populated : g.isPopulated = true
  holds : g.holdsAt t = true
  nonempty : g.channels ≠ []
  channels : ∀ c ∈ g.channels, c.isReference = true ∧ c.id ∈ names

/-- The version `e` of a station with references for its raw channels, of which there are some, and
with some channel groups as of its start, cut down to these channels. -/
structure Regrouped (e x : Entity .station) : Prop where
  same : x = e.withChildren x.groups x.rawChannels
  populated : x.isPopulated = true
  rawChannels : x.rawChannels = e.rawChannels.map (·.toReference)
  nonempty : x.rawChannels ≠ []
  grouped : x.groups ≠ []
  groups : ∀ g ∈ x.groups, ∃ t, x.start? = some t ∧ g.CutDown t (x.rawChannels.map (·.id))

theorem regrouped_withChildren {e : Entity .station} {t : Instant}
    {gs : List (Entity .channelGroup)} (populated : e.isPopulated = true) (ht : e.start? = some t)
    (channels : e.rawChannels.map (·.toReference) ≠ []) (groups : gs ≠ [])
    (cut : ∀ g ∈ gs, g.CutDown t (e.rawChannels.map (·.id))) :
    e.Regrouped (e.withChildren gs (e.rawChannels.map (·.toReference))) := by
  have hgroups := groups_withChildren populated gs (e.rawChannels.map (·.toReference))
  have hchannels := rawChannels_withChildren populated gs (e.rawChannels.map (·.toReference))
  constructor
  · rw [hgroups, hchannels]
  · rw [isPopulated_withChildren, populated]
  · exact hchannels
  · rwa [hchannels]
  · rwa [hgroups]
  · rw [hgroups, hchannels, map_id_toReference]
    exact fun g hg => ⟨t, (start?_withChildren ..).trans ht, cut g hg⟩

end Entity

/-- Since `s₀` no station has been asked for, and what is cached of stations is as it was. -/
structure Stack.SparesStations (s₀ s : Stack) : Prop where
  drawn : s.versionCache.DrawnFrom fun _ _ => True
  cached : ∀ id : EntityId .station, s.cachedVersions id = s₀.cachedVersions id
  asked : s₀.AsksBelow .station s

theorem Stack.SparesStations.effect {s₀ s s' : Stack} {j : Kind}
    (below : Kind.rank .station < j.rank) (step : Effect j s s') (h : s₀.SparesStations s) :
    s₀.SparesStations s' where
  drawn := Stack.drawing_drawn.effect step h.drawn
  cached := by
    have other : Kind.station ≠ j := by
      rintro rfl
      exact Nat.lt_irrefl _ below
    exact fun id => (step.cachedVersions_eq other (by decide) id).trans (h.cached id)
  asked := h.asked.trans (asksBelow_of_effect below _ _ step)

namespace Cached

variable {s₀ : Stack} {t start stop : Instant}

theorem cutDown_of_restrictGroup {names : List (EntityId .channel)} {g x : Entity .channelGroup}
    (holds : g.holdsAt t = true) (h : restrictGroup names g = some x) : x.CutDown t names := by
  simp only [restrictGroup] at h
  split at h
  · cases h
  next some =>
    obtain rfl := Option.some.inj h
    rw [List.isEmpty_iff] at some
    have populated : g.isPopulated = true := by
      refine Entity.isPopulated_of_channels_ne_nil fun nil => some ?_
      rw [nil, List.filter_nil]
    constructor
    · rw [Entity.isPopulated_withChannels, populated]
    · rwa [Entity.holdsAt_congr (Entity.start?_withChannels ..) (Entity.stop?_withChannels ..)]
    · rw [Entity.channels_withChannels populated]
      exact fun nil => some (List.map_eq_nil_iff.1 nil)
    · intro c hc
      rw [Entity.channels_withChannels populated] at hc
      obtain ⟨d, hd, rfl⟩ := List.mem_map.1 hc
      exact ⟨rfl, EntityId.any_eq_iff.1 (List.mem_filter.1 hd).2⟩

/-- Looking channel groups up spares stations, and finds groups that hold. -/
theorem yields_groupsAt_sparing (ids : List (EntityId .channelGroup)) (t : Instant) :
    Yields s₀.SparesStations (groupsAt ids t) fun es => ∀ e ∈ es, e.holdsAt t = true := by
  have spared : Yields s₀.SparesStations (groupsAt ids t) fun _ => True := by
    refine .of_traced fun _ => ?_
    refine Traced.closed.findAt_of_rank (k := .channelGroup) (fun j below => ?_) ids
    have further : Kind.rank .station < j.rank := Nat.lt_of_lt_of_le (by decide) below
    exact traced_pointParts (fun _ _ => Stack.SparesStations.effect further) t
  intro s hs
  refine ⟨(spared s hs).1, fun es found e he => ?_⟩
  exact ((yields_groupsAt Stack.drawing_drawn ids t s hs.drawn).2 es found e he).1

theorem yields_resolveCachedStation_regrouped {e : Entity .station}
    (populated : e.isPopulated = true) (ht : e.start? = some t) :
    Yields s₀.SparesStations (resolveCachedStation e) fun o => ∀ x ∈ o, e.Regrouped x := by
  rw [resolveCachedStation_eq populated ht]
  refine (yields_groupsAt_sparing _ t).bind fun found holding => ?_
  dsimp only
  split
  · exact .none
  next some =>
    rw [Bool.or_eq_true, not_or, List.isEmpty_iff, List.isEmpty_iff] at some
    refine .some (Entity.regrouped_withChildren populated ht some.1 some.2 fun g hg => ?_)
    obtain ⟨f, hf, cut⟩ := List.mem_filterMap.1 hg
    exact cutDown_of_restrictGroup (holding f hf) cut

theorem yields_stationsWithin_covered {ids : List (EntityId .station)}
    (covered : ∀ id ∈ ids, gaps (.closed start stop) (s₀.cachedRanges id) = []) :
    Yields s₀.SparesStations (stationsWithin ids start stop) fun es => ∀ x ∈ es,
      ∃ f ∈ s₀.cachedVersions x.id, f.1.overlaps (.closed start stop) = true ∧ f.2.Regrouped x := by
  have each : ∀ w, ∀ id ∈ EntityId.distinct ids, Yields s₀.SparesStations
      (versionsWithin resolveCachedStation w start stop id) fun es => ∀ x ∈ es,
        ∃ f ∈ s₀.cachedVersions x.id, f.1.overlaps (.closed start stop) = true ∧
          f.2.Regrouped x := by
    intro w id hid s hs
    -- resolving the stations before this one has cached groups and channels, but no station
    have still : gaps (.closed start stop) (s.cachedRanges id) = [] := by
      rw [Stack.cachedRanges, hs.cached id]
      exact covered id (EntityId.mem_distinct.1 hid)
    rw [perform_versionsWithin_of_covered resolveCachedStation still]
    refine Yields.collect (fun f hf => ?_) s hs
    obtain ⟨hf, overlap⟩ := List.mem_filter.1 hf
    obtain ⟨validity, data, -, hval, -⟩ := Stack.mem_cachedVersions hs.drawn hf
    have populated : f.2.isPopulated = true := by rw [hval]; rfl
    have started : f.2.start? = some validity.start := by rw [hval]; rfl
    refine (yields_resolveCachedStation_regrouped populated started).mono fun o ho x hx => ?_
    have own : x.id = id := by
      rw [(ho x hx).same, Entity.id_withChildren, hval]
      rfl
    exact ⟨f, own ▸ hs.cached id ▸ hf, overlap, ho x hx⟩
  exact (Yields.requireIds ids).bind fun _ _ => (Yields.requireOrder start stop).bind fun _ _ =>
    .get_bind fun s _ => (Yields.gather (each s.window)).bind fun found hfound =>
      .pure fun x hx => hfound x (Sorted.mem_of_mem_ofList hx)

end Cached

namespace Operation

/-- Whatever a run has cached, a lookup of stations over a range that is cached for each of them as
a whole asks for no station. It answers with cached versions, each with some references for its raw
channels and with channel groups as of its own start, which are cut down to these channels. -/
theorem stationsWithin_covered {ops : List Operation}
    (hops : ∀ op ∈ ops, op.isCacheWrite = false) (r : Repository) (window : TimeRange)
    {ids : List (EntityId .station)} {start stop : Instant}
    (covered : ∀ id ∈ ids, ∀ t, start ≤ t → t ≤ stop →
      ∃ c ∈ (run ops (.over r window)).cachedRanges id, c.contains t = true) :
    let s := run ops (.over r window)
    let result := (Cached.stationsWithin ids start stop).perform s
    (∃ calls, result.2.repository.calls = s.repository.calls ++ calls ∧
      ∀ call ∈ calls, call.kind ≠ .station) ∧
    ∀ es, result.1 = .ok es → ∀ x ∈ es, ∃ f ∈ s.cachedVersions x.id,
      f.1.overlaps (.closed start stop) = true ∧ f.2.Regrouped x := by
  intro s result
  have drawn : s.versionCache.DrawnFrom fun _ _ => True := run_drawn_any hops .empty
  have whole : ∀ id ∈ ids, Cached.gaps (.closed start stop) (s.cachedRanges id) = [] :=
    fun id hid => Cached.gaps_eq_nil (Stack.coveredBy_cachedRanges drawn (covered id hid))
  have found := Cached.yields_stationsWithin_covered whole s ⟨drawn, fun _ => rfl, .of_calls_eq rfl⟩
  obtain ⟨calls, added, below⟩ := found.1.asked
  refine ⟨⟨calls, added, fun call hcall same => ?_⟩, found.2⟩
  have := below call hcall
  rw [same] at this
  exact Nat.lt_irrefl _ this

/-- The station is cached for ever, from when it starts. -/
theorem stationsWithin_covered_network :
    let ops := [.storeNetwork, .findAt (.caching .cached) .station [⟨"STA", rfl⟩] .origin]
    let s := run ops (.over .empty .all)
    let ids : List (EntityId .station) := [⟨"STA", rfl⟩]
    let result := (Cached.stationsWithin ids Sample.midway Sample.change).perform s
    (∀ op ∈ ops, op.isCacheWrite = false) ∧
      (∀ id ∈ ids, ∀ t, Sample.midway ≤ t → t ≤ Sample.change →
        ∃ c ∈ s.cachedRanges id, c.contains t = true) ∧
      ∃ e, result.1 = .ok [e] ∧ ∃ f ∈ s.cachedVersions e.id,
        f.1.overlaps (.closed Sample.midway Sample.change) = true ∧ f.2.Regrouped e := by
  intro ops s ids result
  have hops : ∀ op ∈ ops, op.isCacheWrite = false := by decide
  have cached : s.cachedRanges (⟨"STA", rfl⟩ : EntityId .station) =
      [Validity.range ⟨.origin, none⟩] := rfl
  have covered : ∀ id ∈ ids, ∀ t, Sample.midway ≤ t → t ≤ Sample.change →
      ∃ c ∈ s.cachedRanges id, c.contains t = true := by
    intro id hid t since _
    obtain rfl := List.mem_singleton.1 hid
    rw [cached]
    have started : Instant.origin ≤ t := Int.le_trans (by decide) since
    refine ⟨_, List.mem_singleton_self _, ?_⟩
    rw [Validity.range_contains, decide_eq_true started]
    rfl
  have answered : result.1.toOption.map (·.length) = some 1 := by decide +kernel
  cases h : result.1 with
  | error => rw [h] at answered; cases answered
  | ok es =>
      rw [h] at answered
      obtain ⟨e, rfl⟩ := List.length_eq_one_iff.1 (Option.some.inj answered)
      exact ⟨hops, covered, e, rfl, (stationsWithin_covered hops .empty .all covered).2 [e] h e
        (List.mem_singleton_self e)⟩

end Operation

end StationCatalog
