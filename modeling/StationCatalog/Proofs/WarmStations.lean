import StationCatalog.Proofs.StationRanges
import StationCatalog.Proofs.WarmAnswers

/-!
Station lookups over a range from a cache that has just been filled. Within the range that was
filled nothing is left to fetch, but each cached version of a station looks its channel groups up as
of its own start: without a call when it names none, or starts within the range and finds them all;
else with one.
-/

namespace StationCatalog

open Lookup

variable {k : Kind}

theorem TimeRange.le_of_contains_closed {start stop t : Instant}
    (h : (closed start stop).contains t = true) : start ≤ t := by
  have lower := (contains_iff.1 h).1
  rw [lower_closed] at lower
  simp only [Cut.le_def, Cut.position_below, Instant.le_def] at *
  omega

/-- A version of a station names no channel group, or starts no earlier than the range that was
filled and finds all its channel groups ready at its start. -/
def Repository.Regroups (r : Repository) (filled : (k : Kind) → EntityId k → Prop) (start : Instant)
    (v : Entity .station) : Prop :=
  v.groups = [] ∨ ∃ t, v.start? = some t ∧ start ≤ t ∧
    ∀ id ∈ v.groups.map (·.id), r.Ready filled t .channelGroup id

section

variable {r : Repository} {roots : List (EntityId .stationGroup)}
  {start stop first last t : Instant} {s : Stack}

theorem Stack.Alike.cachedVersions_eq {s' : Stack} (alike : s.Alike s') (id : EntityId k) :
    s'.cachedVersions id = s.cachedVersions id := by
  apply cachedVersions_congr
  rw [VersionCache.history?, alike.entries, ← VersionCache.history?]

/-- A warm cache leaves no gap of an entity that filling came to, where it has versions
throughout. -/
theorem Stack.Warmed.gaps_eq_nil (warm : s.Warmed r roots start stop) {id : EntityId k}
    (filled : r.Filled roots start stop k id)
    (versions : ∀ t, start ≤ t → t ≤ stop → ∃ v ∈ r.versions k, v.id = id ∧ v.holdsAt t = true)
    (hstart : start ≤ first) (hstop : last ≤ stop) :
    Cached.gaps (.closed first last) (s.cachedRanges id) = [] := by
  refine Cached.gaps_eq_nil (coveredBy_cachedRanges warm.drawn fun t hfirst hlast => ?_)
  have hstart : start ≤ t := Int.le_trans hstart hfirst
  have hstop : t ≤ stop := Int.le_trans hlast hstop
  obtain ⟨v, hv, own, holds⟩ := versions t hstart hstop
  have held := (warm.settled k id filled).2 v hv own t hstart hstop holds
  obtain ⟨f, hf, inside⟩ := (exists_cached_iff warm.drawn).2 held
  exact ⟨f.1, List.mem_map_of_mem hf, inside⟩

/-- What a warm cache has of a version's part of a range is that version, cut down. -/
theorem Stack.Warmed.of_mem_cachedVersions (warm : s.Warmed r roots start stop)
    (ordered : first ≤ last) {id : EntityId k} {f : TimeRange × Entity k}
    (hf : f ∈ (s.cachedVersions id).filter (·.1.overlaps (.closed first last))) :
    ∃ v, r.Spans [id] first last v ∧ f.2 = v.demote := by
  obtain ⟨hf, overlap⟩ := List.mem_filter.1 hf
  obtain ⟨validity, data, stored, hval, within⟩ := mem_cachedVersions warm.drawn hf
  exact ⟨_, ⟨stored, List.mem_singleton_self id,
    Entity.holdsWithin_of_overlaps within overlap ordered⟩, hval⟩

namespace Cached

open Stack

theorem perform_versionsWithin_alike (resolve : Entity k → Lookup (Option (Entity k)))
    {w : TimeRange} {id : EntityId k} {s' : Stack}
    (covered : gaps (.closed first last) (s.cachedRanges id) = []) (alike : s.Alike s') :
    (versionsWithin resolve w first last id).perform s' =
      (collect (fun e => resolve e.2)
        ((s.cachedVersions id).filter (·.1.overlaps (.closed first last)))).perform s' := by
  rw [← alike.cachedVersions_eq id]
  refine perform_versionsWithin_of_covered resolve ?_
  rwa [cachedRanges, alike.cachedVersions_eq]

section

variable (hr : r.Consistent) (warm : s.Warmed r roots start stop)

include hr warm

theorem finds_resolveCachedStation_warm {v : Entity .station} (hv : v ∈ r.versions .station)
    (ht : v.start? = some t) (hstop : t ≤ stop)
    (regroups : r.Regroups (r.Filled roots start stop) start v) :
    Finds s.Alike (resolveCachedStation v.demote) fun _ => True := by
  rw [resolveCachedStation_eq ((Entity.isPopulated_demote v).trans (hr.populated _ v hv))
    ((Entity.start?_demote v).trans ht), Entity.groups_demote]
  have grouped : Finds s.Alike (groupsAt (v.groups.map (·.id)) t) fun _ => True := by
    rcases regroups with none | ⟨u, hu, hstart, ready⟩
    · intro s' alike
      rw [none]
      exact ⟨[], congrArg Prod.fst (perform_findAt_nil .channelGroup t s'), trivial,
        congrArg Prod.snd (perform_findAt_nil .channelGroup t s') ▸ alike⟩
    · obtain rfl := Option.some.inj (ht.symm.trans hu)
      exact ((settles_of_warmed hr warm hstart hstop .channelGroup).answers _ ready).mono
        fun _ _ => trivial
  -- whatever is made of the channel groups, no more is looked up
  refine grouped.bind fun found _ => ?_
  dsimp only
  split
  · exact .pure trivial
  · exact .pure trivial

/-- The channel groups of a version that starts before the range are called for, and so are those
that are not ready. -/
theorem ends_resolveCachedStation_warm {v : Entity .station} (hv : v ∈ r.versions .station)
    (ht : v.start? = some t) (hstop : t ≤ stop)
    (other : ¬r.Regroups (r.Filled roots start stop) start v) :
    Ends s.Alike (resolveCachedStation v.demote) (fun _ => s.Further) fun _ => True := by
  rw [resolveCachedStation_eq ((Entity.isPopulated_demote v).trans (hr.populated _ v hv))
    ((Entity.start?_demote v).trans ht), Entity.groups_demote]
  have called : Ends s.Alike (groupsAt (v.groups.map (·.id)) t) (fun _ => s.Further)
      fun _ => True := by
    obtain ⟨some, later⟩ := not_or.1 other
    by_cases hstart : start ≤ t
    · have unready : ∃ id ∈ v.groups.map (·.id),
          ¬r.Ready (r.Filled roots start stop) t .channelGroup id := by
        by_contra ready
        refine later ⟨t, ht, hstart, fun id hid => ?_⟩
        by_contra h
        exact ready ⟨id, hid, h⟩
      exact (settles_of_warmed hr warm hstart hstop .channelGroup).calls _ unready
    · have outside : ¬s.window.contains t = true := by
        rw [warm.window]
        exact fun inside => hstart (TimeRange.le_of_contains_closed inside)
      obtain ⟨g, hg⟩ := List.exists_mem_of_ne_nil _ some
      exact ends_pointLookup_called (A := fun _ => False) (fun _ alike => alike.called)
        (traced_resolveAt goes_of_effect t .channelGroup) (fun _ _ inside => absurd inside outside)
        ⟨g.id, List.mem_map_of_mem hg, id⟩
  refine called.bind fun found => ?_
  dsimp only
  split
  · exact .pure fun _ hs => hs
  · exact .pure fun _ hs => hs

variable (ordered : first ≤ last) (hlast : last ≤ stop) {id : EntityId .station}

include ordered hlast

/-- What is cached within the range is resolved without a call just when it regroups. -/
theorem resolves_warm {f : TimeRange × Entity .station}
    (hf : f ∈ (s.cachedVersions id).filter (·.1.overlaps (.closed first last))) :
    ∃ v, r.Spans [id] first last v ∧ f.2.version = v.version ∧
      (r.Regroups (r.Filled roots start stop) start v →
        Finds s.Alike (resolveCachedStation f.2) fun _ => True) ∧
      (¬r.Regroups (r.Filled roots start stop) start v →
        Ends s.Alike (resolveCachedStation f.2) (fun _ => s.Further) fun _ => True) := by
  obtain ⟨v, spans, same⟩ := warm.of_mem_cachedVersions ordered hf
  obtain ⟨⟨t, ht, hlt⟩, -⟩ := Entity.holdsWithin_iff.1 spans.2.2
  have hstop : t ≤ stop := Int.le_trans hlt hlast
  refine ⟨v, spans, ?_⟩
  rw [same]
  exact ⟨Entity.version_demote v, finds_resolveCachedStation_warm hr warm spans.1 ht hstop,
    ends_resolveCachedStation_warm hr warm spans.1 ht hstop⟩

variable (covered : gaps (.closed first last) (s.cachedRanges id) = [])

include covered

theorem finds_stationWithin_warm
    (regroups : ∀ v, r.Spans [id] first last v → r.Regroups (r.Filled roots start stop) start v) :
    Finds s.Alike (versionsWithin resolveCachedStation s.window first last id) fun _ => True := by
  intro s' alike
  rw [perform_versionsWithin_alike _ covered alike]
  have found : Finds s.Alike (collect (fun e => resolveCachedStation e.2)
      ((s.cachedVersions id).filter (·.1.overlaps (.closed first last))))
      (Outcomes (fun _ _ => True)
        ((s.cachedVersions id).filter (·.1.overlaps (.closed first last)))) := by
    refine .collect fun f hf => ?_
    obtain ⟨v, spans, -, found, -⟩ := resolves_warm hr warm ordered hlast hf
    exact found (regroups v spans)
  exact (found.mono fun _ _ => trivial) s' alike

theorem ends_stationWithin_warm {v : Entity .station} (spans : r.Spans [id] first last v)
    (other : ¬r.Regroups (r.Filled roots start stop) start v) :
    Ends s.Alike (versionsWithin resolveCachedStation s.window first last id)
      (fun _ => s.Further) fun _ => True := by
  refine Ends.of_perform_eq ?_ fun s' => perform_versionsWithin_alike _ covered
  have recalled : s.RecallsWithin first last v := by
    refine (recallsWithin_or_fetchesWithin hr (warm.drawn.mono fun _ _ source _ => source)
      spans.1 ordered spans.2.2).resolve_right ?_
    rintro ⟨g, hg, -⟩
    rw [List.mem_singleton.1 spans.2.1, ← mem_gaps_iff, covered] at hg
    exact absurd hg List.not_mem_nil
  obtain ⟨f, hf, hversion, overlap⟩ := recalled
  rw [List.mem_singleton.1 spans.2.1] at hf
  have among : f ∈ (s.cachedVersions id).filter (·.1.overlaps (.closed first last)) :=
    List.mem_filter.2 ⟨hf, overlap⟩
  refine Ends.collect_mem among ?_ ?_ fun e _ =>
    ends_further (traced_resolveCachedStation goes_of_effect e.2)
  · obtain ⟨u, hu, same, -, called⟩ := resolves_warm hr warm ordered hlast among
    obtain rfl := hr.eq_of_version hu.1 spans.1 (same.symm.trans hversion)
    exact called other
  · intro e he
    obtain ⟨u, -, -, found, called⟩ := resolves_warm hr warm ordered hlast he
    by_cases regroups : r.Regroups (r.Filled roots start stop) start u
    · exact (Ends.of_leads (found regroups)).mono fun _ _ h => .inl h.2
    · exact (called regroups).mono fun _ _ h => .inr h

end

section

variable (hr : r.Consistent) (warm : s.Warmed r roots start stop) (ordered : first ≤ last)
  (hlast : last ≤ stop) {ids : List (EntityId .station)}
  (covered : ∀ id ∈ ids, gaps (.closed first last) (s.cachedRanges id) = [])

include hr warm ordered hlast covered

theorem finds_stationsWithin_warm (named : Named ids)
    (regroups : ∀ v, r.Spans ids first last v → r.Regroups (r.Filled roots start stop) start v) :
    Finds s.Alike (stationsWithin ids first last) fun _ => True := by
  refine (Leads.requireIds named).bind fun _ _ => (Leads.requireOrder ordered).bind fun _ _ =>
    .get_bind fun s' alike => ?_
  rw [alike.window]
  have each : ∀ id ∈ EntityId.distinct ids, Finds s.Alike
      (versionsWithin resolveCachedStation s.window first last id) fun _ => True := by
    intro id hid
    have wanted := EntityId.mem_distinct.1 hid
    refine finds_stationWithin_warm hr warm ordered hlast (covered id wanted) fun v spans => ?_
    exact regroups v ⟨spans.1, List.mem_singleton.1 spans.2.1 ▸ wanted, spans.2.2⟩
  exact (Leads.gather each).bind fun _ _ => .pure trivial

theorem ends_stationsWithin_warm {v : Entity .station} (spans : r.Spans ids first last v)
    (other : ¬r.Regroups (r.Filled roots start stop) start v) :
    Ends s.Alike (stationsWithin ids first last) (fun _ => s.Further) fun _ => True := by
  refine (Ends.requireIds fun _ => trivial).bind fun _ => .given fun _ =>
    (Ends.of_leads (Leads.requireOrder ordered)).bind fun _ => Ends.weaken (.get_bind
      fun s' alike => ?_) fun _ hs => hs.2
  rw [alike.window]
  have stays : ∀ id, Ends s.Further (versionsWithin resolveCachedStation s.window first last id)
      (fun _ => s.Further) fun _ => True := fun id =>
    ends_further (traced_versionsWithin (goes_of_effect .station)
      (traced_resolveCachedStation goes_of_effect) first last id)
  have called := ends_stationWithin_warm hr warm ordered hlast (covered v.id spans.2.1)
    ⟨spans.1, List.mem_singleton_self v.id, spans.2.2⟩ other
  have looked : Ends s.Alike (gather
      (versionsWithin resolveCachedStation s.window first last) (EntityId.distinct ids))
      (fun _ => s.Further) fun _ => True := by
    refine Ends.gather_mem (EntityId.mem_distinct.2 spans.2.1) called ?_ fun id _ => stays id
    intro id hid
    have free := covered id (EntityId.mem_distinct.1 hid)
    -- each other station is left as it was, or makes a call of its own
    by_cases all : ∀ u, r.Spans [id] first last u →
        r.Regroups (r.Filled roots start stop) start u
    · exact (Ends.of_leads (finds_stationWithin_warm hr warm ordered hlast free all)).mono
        fun _ _ h => .inl h.2
    · simp only [not_forall] at all
      obtain ⟨u, hu, lost⟩ := all
      exact (ends_stationWithin_warm hr warm ordered hlast free hu lost).mono fun _ _ h => .inr h
  exact looked.bind fun _ => .pure fun _ hs => hs

end

end Cached

namespace Repository

/-- Filling comes to all that is reached but channels and responses. -/
theorem Reached.filled_of_rank_lt {id : EntityId k} (h : r.Reached roots start stop k id)
    (above : k.rank < 3) : r.Filled roots start stop k id := by
  induction h with
  | root among => exact .root among
  | child _ stored holds named ih =>
      refine .child (ih (Nat.lt_trans (Entity.rank_lt_of_names named) above)) stored holds
        ⟨named, ?_⟩
      rintro ⟨-, rfl⟩
      exact absurd above (by decide)

section

variable (hstart : start ≤ t) (hstop : t ≤ stop)
  (versions : ∀ (j : Kind) (id : EntityId j), r.Filled roots start stop j id →
    ∃ v ∈ r.versions j, v.id = id ∧ v.holdsAt t = true)

include hstart hstop versions

/-- A channel or a response that filling comes to is ready where all of these have versions. -/
theorem ready_of_filled (below : 2 < k.rank) {id : EntityId k}
    (filled : r.Filled roots start stop k id) :
    r.Ready (r.Filled roots start stop) t k id := by
  induction k using Kind.upward with
  | h k ih =>
      obtain ⟨v, hv, rfl, holds⟩ := versions k id filled
      refine .version filled hv holds ?_ ?_
      · intro j i named
        have further := Entity.rank_lt_of_names named
        refine ih j further (Nat.lt_trans below further) (.child filled hv
          (Entity.holdsWithin_of_holdsAt holds hstart hstop) ⟨named, ?_⟩)
        rintro ⟨rfl, -⟩
        exact absurd below (by decide)
      · cases k with
        | channel | response => trivial
        | stationGroup | station | channelGroup => exact absurd below (by decide)

theorem ready_channelGroup_iff {id : EntityId .channelGroup}
    (filled : r.Filled roots start stop .channelGroup id) :
    r.Ready (r.Filled roots start stop) t .channelGroup id ↔
      ∃ g ∈ r.versions .channelGroup, g.id = id ∧ g.holdsAt t = true ∧ g.channels ≠ [] := by
  constructor
  · intro ready
    obtain ⟨g, hg, own, holds, -, stands⟩ := ready.exists_version
    exact ⟨g, hg, own, holds, stands⟩
  · rintro ⟨g, hg, rfl, holds, some⟩
    refine .version filled hg holds ?_ some
    intro j i named
    exact ready_of_filled hstart hstop versions (Entity.rank_lt_of_names named)
      (.child filled hg (Entity.holdsWithin_of_holdsAt holds hstart hstop) ⟨named, nofun⟩)

end

/-- Where all that filling comes to has versions throughout, a version regroups when it names no
channel group, or when all its channel groups list some channel at its start. -/
theorem regroups_iff (versions : ∀ (j : Kind) (id : EntityId j), r.Filled roots start stop j id →
      ∀ t, start ≤ t → t ≤ stop → ∃ v ∈ r.versions j, v.id = id ∧ v.holdsAt t = true)
    {v : Entity .station} (filled : r.Filled roots start stop .station v.id)
    (hv : v ∈ r.versions .station) (holds : v.holdsWithin start stop = true) :
    r.Regroups (r.Filled roots start stop) start v ↔
      v.groups = [] ∨ ∃ t, v.start? = some t ∧ start ≤ t ∧ ∀ e ∈ v.groups,
        ∃ g ∈ r.versions .channelGroup, g.id = e.id ∧ g.holdsAt t = true ∧ g.channels ≠ [] := by
  refine or_congr_right (exists_congr fun t => and_congr_right fun ht =>
    and_congr_right fun hstart => ?_)
  obtain ⟨⟨u, hu, hstop⟩, -⟩ := Entity.holdsWithin_iff.1 holds
  obtain rfl := Option.some.inj (ht.symm.trans hu)
  rw [List.forall_mem_map]
  refine forall₂_congr fun e he => ready_channelGroup_iff hstart hstop
    (fun j id filled => versions j id filled t hstart hstop) ?_
  exact .child filled hv holds (Entity.seeds_station_iff.2 (List.mem_map_of_mem he))

end Repository

end

/-- After the cache was filled from a content where all that is reached has versions throughout the
range, a station lookup over a part of the range succeeds without a call just when each version it
asks for names no channel group, or starts within the range and all its channel groups then list
some channel. -/
theorem Cached.stationsWithin_after_warm {s s' : Stack} (hr : s.repository.Orderly)
    {roots : List (EntityId .stationGroup)} {start stop : Instant}
    (success : (warm roots start stop).perform s = (.ok (), s'))
    (versions : ∀ (k : Kind) (id : EntityId k), s.repository.Reached roots start stop k id →
      ∀ t, start ≤ t → t ≤ stop → ∃ v ∈ s.repository.versions k, v.id = id ∧ v.holdsAt t = true)
    {first last : Instant} (hfirst : start ≤ first) (ordered : first ≤ last) (hlast : last ≤ stop)
    {ids : List (EntityId .station)}
    (reached : ∀ id ∈ ids, s.repository.Reached roots start stop .station id) :
    let r := s.repository
    let result := (findWithin .station ids first last).perform s'
    (∃ es, result.1 = .ok es) ∧ result.2.repository.calls = s'.repository.calls ↔
      ∀ v, r.Spans ids first last v → v.groups = [] ∨ ∃ t, v.start? = some t ∧ start ≤ t ∧
        ∀ e ∈ v.groups, ∃ g ∈ r.versions .channelGroup,
          g.id = e.id ∧ g.holdsAt t = true ∧ g.channels ≠ [] := by
  intro r result
  have warmed := Stack.warmed_of_warm hr success
  have filled : ∀ id ∈ ids, r.Filled roots start stop .station id :=
    fun id hid => (reached id hid).filled_of_rank_lt (by decide)
  have named : Named ids := by
    by_contra unnamed
    obtain ⟨id, hid, blank⟩ := not_named_iff.1 unnamed
    exact (warmed.settled _ id (filled id hid)).1 blank
  have covered : ∀ id ∈ ids, gaps (.closed first last) (s'.cachedRanges id) = [] :=
    fun id hid => warmed.gaps_eq_nil (filled id hid) (versions _ id (reached id hid)) hfirst hlast
  have regroups := fun v (spans : r.Spans ids first last v) => r.regroups_iff
    (fun j id filled => versions j id filled.reached) (filled v.id spans.2.1) spans.1
    (Entity.holdsWithin_mono spans.2.2 hfirst hlast)
  rw [← forall₂_congr regroups]
  constructor
  · rintro ⟨⟨es, found⟩, silent⟩ v spans
    by_contra other
    have called := ((ends_stationsWithin_warm hr.consistent warmed ordered hlast covered spans
      other s' ⟨rfl, rfl, rfl⟩).1 es found).2
    rw [show ((stationsWithin ids first last).perform s').2.repository.calls = _ from silent]
      at called
    exact Nat.lt_irrefl _ called
  · intro all
    obtain ⟨es, found, -, alike⟩ := finds_stationsWithin_warm hr.consistent warmed ordered hlast
      covered named all s' ⟨rfl, rfl, rfl⟩
    exact ⟨⟨es, found⟩, congrArg Repository.calls alike.repository⟩

/-- Once the cache was filled from the start of the sample station on, the station is found over the
range without a call. -/
theorem Cached.stationsWithin_after_warm_lasting :
    let roots : List (EntityId .stationGroup) := [⟨"PRIMARY", rfl⟩]
    let ids : List (EntityId .station) := [⟨"STA", rfl⟩]
    let s := Stack.over (Sample.lasting []).repository .all
    let s' := ((warm roots .origin Sample.change).perform s).2
    let result := (findWithin .station ids .origin Sample.change).perform s'
    s.repository.Orderly ∧ (warm roots .origin Sample.change).perform s = (.ok (), s') ∧
      (∀ (k : Kind) (id : EntityId k), s.repository.Reached roots .origin Sample.change k id →
        ∀ t, Instant.origin ≤ t → t ≤ Sample.change →
          ∃ v ∈ s.repository.versions k, v.id = id ∧ v.holdsAt t = true) ∧
      (∀ id ∈ ids, s.repository.Reached roots .origin Sample.change .station id) ∧
      (∃ es, result.1 = .ok es) ∧ result.2.repository.calls = s'.repository.calls := by
  intro roots ids s s'
  have orderly := Sample.orderly_lasting []
  have filled : ((warm roots .origin Sample.change).perform s).1 = .ok () := by decide +kernel
  have success : (warm roots .origin Sample.change).perform s = (.ok (), s') := by rw [← filled]
  -- what is in the filled stack is left to the theorem, not computed
  clear_value s'
  have first : Instant.origin ≤ Instant.origin := Int.le_refl _
  have inside : Instant.origin ≤ Sample.change := by decide
  have versions : ∀ (k : Kind) (id : EntityId k),
      s.repository.Reached roots .origin Sample.change k id → ∀ t, Instant.origin ≤ t →
        t ≤ Sample.change → ∃ v ∈ s.repository.versions k, v.id = id ∧ v.holdsAt t = true :=
    fun _ _ reached _ ht _ => Sample.exists_version_lasting ht reached
  have reached : ∀ id ∈ ids, s.repository.Reached roots .origin Sample.change .station id := by
    intro id hid
    obtain rfl := List.mem_singleton.1 hid
    exact (Sample.filled_station_lasting first first inside).reached
  have answered := (stationsWithin_after_warm orderly success versions first inside
    (Int.le_refl _) reached).2
  refine ⟨orderly, success, versions, reached, answered ?_⟩
  intro v spans
  obtain rfl := List.mem_singleton.1 spans.1
  refine .inr ⟨.origin, rfl, first, fun e he => ?_⟩
  obtain rfl := List.mem_singleton.1 he
  exact ⟨_, List.mem_singleton_self _, rfl, rfl, List.cons_ne_nil _ _⟩

/-- All that is reached in the sample network has a version throughout a range that begins after the
station does, and the raw channel of the station is in its channel group; once the cache was filled
over the range, the channel group is called for as of the start of the station. -/
theorem Cached.stationsWithin_after_warm_calls :
    let roots : List (EntityId .stationGroup) := [⟨"PRIMARY", rfl⟩]
    let ids : List (EntityId .station) := [⟨"STA", rfl⟩]
    let s := Stack.over (Sample.lasting []).repository .all
    let s' := ((warm roots Sample.midway Sample.change).perform s).2
    let result := (findWithin .station ids Sample.midway Sample.change).perform s'
    s.repository.Orderly ∧ (warm roots Sample.midway Sample.change).perform s = (.ok (), s') ∧
      (∀ v ∈ s.repository.versions .station, ∀ c ∈ v.rawChannels,
        ∃ g ∈ s.repository.versions .channelGroup,
          g.id ∈ v.groups.map (·.id) ∧ c.id ∈ g.channels.map (·.id)) ∧
      (∀ (k : Kind) (id : EntityId k), s.repository.Reached roots Sample.midway Sample.change k id →
        ∀ t, Sample.midway ≤ t → t ≤ Sample.change →
          ∃ v ∈ s.repository.versions k, v.id = id ∧ v.holdsAt t = true) ∧
      (∀ id ∈ ids, s.repository.Reached roots Sample.midway Sample.change .station id) ∧
      result.2.repository.callsFor .channelGroup =
        s'.repository.callsFor .channelGroup ++ [⟨.channelGroup, ["STA01"], .at .origin⟩] := by
  intro roots ids s s' result
  have filled : ((warm roots Sample.midway Sample.change).perform s).1 = .ok () := by
    decide +kernel
  have later : Instant.origin ≤ Sample.midway := by decide
  refine ⟨Sample.orderly_lasting [], by rw [← filled], by decide, ?_, ?_, by decide +kernel⟩
  · intro k id reached t ht _
    exact Sample.exists_version_lasting (Int.le_trans later ht) reached
  · intro id hid
    obtain rfl := List.mem_singleton.1 hid
    exact (Sample.filled_station_lasting later (Int.le_refl _) (by decide)).reached

end StationCatalog
