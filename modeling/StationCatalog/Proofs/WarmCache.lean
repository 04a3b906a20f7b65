import StationCatalog.Proofs.PlainRanges
import StationCatalog.Proofs.Refusals
import StationCatalog.Proofs.WholeVersions

/-!
What filling the cache leaves in it. Filling goes from station groups to stations, channel groups,
channels and responses, one lookup over the range for each kind; it leaves the versions of what it
comes to held at every instant of the range, and nothing else cached.
-/

namespace StationCatalog

open Lookup

variable {j k : Kind}

section

variable {r : Repository} {roots : List (EntityId .stationGroup)} {start stop : Instant}

/-- The stored versions that hold at some time of the range, of all that filling comes to. -/
def Repository.Fills (r : Repository) (roots : List (EntityId .stationGroup))
    (start stop : Instant) : Versions := fun k v =>
  v ∈ r.versions k ∧ r.Filled roots start stop k v.id ∧ v.holdsWithin start stop = true

namespace Stack

/-- What filling comes to of a kind has names, and its stored versions are held. -/
def Settled (r : Repository) (roots : List (EntityId .stationGroup)) (start stop : Instant)
    (k : Kind) (s : Stack) : Prop :=
  ∀ id : EntityId k, r.Filled roots start stop k id → ¬id.IsBlank ∧
    ∀ v ∈ r.versions k, v.id = id → ∀ t, start ≤ t → t ≤ stop → v.holdsAt t = true →
      s.versionCache.HeldAt (.ofId id) t

/-- Filling has settled the kinds of rank below `n`, and has cached only what it comes to; `B` is
what any lookup keeps. -/
structure Filling (B : Stack → Prop) (r : Repository) (roots : List (EntityId .stationGroup))
    (start stop : Instant) (n : Nat) (s : Stack) : Prop where
  base : B s
  keyed : s.versionCache.Keyed (r.Filled roots start stop)
  whole : s.versionCache.Whole (r.Fills roots start stop)
  settled : ∀ j, j.rank < n → s.Settled r roots start stop j

/-- Filling has so far cached nothing but station groups. -/
structure Opening (B : Stack → Prop) (r : Repository) (roots : List (EntityId .stationGroup))
    (start stop : Instant) (n : Nat) (s : Stack) : Prop extends
    Filling B r roots start stop n s where
  alone : s.versionCache.Keyed fun j _ => j = .stationGroup

theorem Settled.retains {s s' : Stack} (h : s.Settled r roots start stop k)
    (step : s.Retains s') : s'.Settled r roots start stop k := by
  intro id filled
  obtain ⟨named, held⟩ := h id filled
  exact ⟨named, fun v hv hid t hstart hstop holds =>
    step.2 _ t (held v hv hid t hstart hstop holds)⟩

end Stack

open Stack

/-- The children of what is found over the range are what filling comes to next. -/
def Repository.Leaves (r : Repository) (roots : List (EntityId .stationGroup))
    (start stop : Instant) (es : List (Entity k)) : Prop :=
  ∀ (j : Kind) (f : Entity k → List (EntityId j)), j.rank = k.rank + 1 →
    (∀ v id, v.Seeds id ↔ id ∈ f v) →
      ∀ id, id ∈ es.flatMap f ↔ r.Filled roots start stop j id

theorem Repository.leaves_of_found {es : List (Entity k)}
    (found : ∀ e, e ∈ es.map Entity.demote ↔ ∃ v ∈ r.versions k,
      r.Filled roots start stop k v.id ∧ v.holdsWithin start stop = true ∧ v.demote = e) :
    r.Leaves roots start stop es := by
  intro j f next seeds id
  rw [List.mem_flatMap]
  constructor
  · rintro ⟨e, he, hid⟩
    obtain ⟨v, hv, filled, holds, same⟩ := (found _).1 (List.mem_map_of_mem he)
    refine .child filled hv holds ?_
    rw [← Entity.seeds_demote, same, Entity.seeds_demote, seeds]
    exact hid
  · intro filled
    cases filled with
    | root => cases next
    | @child i _ v _ parent stored holds named =>
        have same : i = k := Kind.rank_inj (by
          have := Entity.rank_of_seeds named
          omega)
        subst same
        obtain ⟨e, he, same⟩ := List.mem_map.1 ((found _).2 ⟨v, stored, parent, holds, rfl⟩)
        refine ⟨e, he, (seeds e id).1 ?_⟩
        rw [← Entity.seeds_demote, same, Entity.seeds_demote]
        exact named

/-- The responses that are cached along with what filling comes to are come to themselves. -/
theorem Repository.filled_of_carried {v : Entity k} (stored : v ∈ r.versions k)
    (filled : r.Filled roots start stop k v.id) (holds : v.holdsWithin start stop = true) :
    ∀ e ∈ Entity.carriedResponses [v], r.Filled roots start stop .response e.id := by
  intro e he
  cases k with
  | channel =>
      obtain ⟨c, hc, hce⟩ := List.mem_filterMap.1 he
      obtain rfl := List.mem_singleton.1 hc
      refine .child filled stored holds (Entity.seeds_channel_iff.2 ?_)
      rw [hce]
      exact List.mem_singleton.2 rfl
  | stationGroup | station | channelGroup | response => exact absurd he List.not_mem_nil

namespace Cached

variable {B : Stack → Prop}

/-- A lookup of what filling comes to caches stored versions whole, as they hold in the range. -/
theorem yields_rangeLookup_whole (hr : r.Consistent) (hB : Grounded r (.closed start stop) k B)
    {ids : List (EntityId k)} (own : ∀ id ∈ ids, r.Filled roots start stop k id) :
    Yields (fun s => B s ∧ s.versionCache.Whole (r.Fills roots start stop))
      (rangeLookup (fun e => return some e) ids start stop) fun _ => True := by
  refine yields_rangeLookup_cached hB fun c whole es brought => ?_
  refine whole.keep hr (fun _ _ fills => fills.1) _ fun e he => ?_
  obtain ⟨stored, hid, holds⟩ := brought e he
  exact ⟨stored, own _ hid, holds⟩

/-- A lookup leaves the wanted versions held at every instant of the range at which they hold. -/
theorem ends_rangeLookup_held (hr : r.Consistent) (hB : Grounded r (.closed start stop) k B)
    (ids : List (EntityId k)) :
    Ends B (rangeLookup (fun e => return some e) ids start stop)
      (fun _ s => ∀ v ∈ r.versions k, v.id ∈ ids → ∀ t, start ≤ t → t ≤ stop →
        v.holdsAt t = true → Holds (.closed start stop) (.ofId v.id) t s) fun _ => True := by
  refine .all fun v => .all fun hv => .all fun hid => .all fun t => .all fun hstart =>
    .all fun hstop => .all fun holds => ?_
  exact ends_rangeLookup_holds hB hv (hr.populated k v hv) holds
    (TimeRange.contains_closed hstart hstop) hid hstart hstop

/-- A lookup of one kind leaves the kinds before it settled. -/
theorem ends_rangeLookup_settled (r : Repository) (roots : List (EntityId .stationGroup))
    (start stop : Instant) (ids : List (EntityId k)) :
    Ends (fun s => s.window = .closed start stop ∧
        ∀ j, j.rank < k.rank → s.Settled r roots start stop j)
      (rangeLookup (fun e => return some e) ids start stop) (fun _ s =>
        s.window = .closed start stop ∧ ∀ j, j.rank < k.rank → s.Settled r roots start stop j)
      fun _ => True :=
  .of_traced (traced_rangeLookup (retains_of_effect k) (fun e => .pure (some e)) ids start stop)
    (fun _ hs => hs.1) fun _ _ step hs =>
      ⟨step.1.trans hs.1, fun j hj => (hs.2 j hj).retains step⟩

/-- Filling goes on by one kind. -/
theorem ends_fillKind (hr : r.Consistent) (hB : Grounded r (.closed start stop) k B)
    (ordered : start ≤ stop) {ids : List (EntityId k)}
    (hids : ∀ id, id ∈ ids ↔ r.Filled roots start stop k id) :
    Ends (Filling B r roots start stop k.rank)
      (rangeLookup (fun e => return some e) ids start stop)
      (fun es s => s.Filling B r roots start stop (k.rank + 1) ∧ r.Leaves roots start stop es)
      fun _ => True := by
  have own : ∀ id ∈ ids, r.Filled roots start stop k id := fun id => (hids id).1
  have found : Ends B (rangeLookup (fun e => return some e) ids start stop)
      (fun es s => (∀ e, e ∈ es.map Entity.demote ↔ ∃ v ∈ r.versions k, v.id ∈ ids ∧
        v.holdsWithin start stop = true ∧ v.demote = e) ∧ B s)
      fun _ => True := ends_rangeLookup_found hB hr ordered
  have named : Ends B (rangeLookup (fun e => return some e) ids start stop)
      (fun _ _ => Named ids) fun _ => True := ends_rangeLookup_named _
  have held := ends_rangeLookup_held hr hB ids
  have keyed := Ends.of_yields (yields_rangeLookup_keyed hB own fun v hv hid holds =>
    r.filled_of_carried hv (own _ hid) holds)
  have whole := Ends.of_yields (yields_rangeLookup_whole hr hB own)
  have before := ends_rangeLookup_settled r roots start stop ids
  refine (((((found.and named).and held).weaken fun _ hs => hs.base).and
    (keyed.weaken fun _ hs => ⟨hs.base, hs.keyed⟩)).and
      (whole.weaken fun _ hs => ⟨hs.base, hs.whole⟩)).and
        (before.weaken fun s hs => ⟨(hB.serving s hs.base).window, hs.settled⟩) |>.mono ?_
  rintro es s ⟨⟨⟨⟨⟨⟨found, base⟩, named⟩, held⟩, -, -, keyed⟩, -, -, whole⟩, -, before⟩
  refine ⟨⟨base, keyed, whole, ?_⟩, r.leaves_of_found ?_⟩
  · intro j hj
    rcases Nat.lt_succ_iff_lt_or_eq.1 hj with hj | hj
    · exact before j hj
    · obtain rfl := Kind.rank_inj hj
      intro id filled
      have wanted := (hids id).2 filled
      refine ⟨fun blank => not_named_iff.2 ⟨id, wanted, blank⟩ named, ?_⟩
      rintro v hv rfl t hstart hstop holds
      exact (held v hv wanted t hstart hstop holds).2
  · simpa only [hids] using found

/-- What filling the cache does once its arguments are let through. -/
def fill (roots : List (EntityId .stationGroup)) (start stop : Instant) : Lookup Unit := do
  restart (.closed start stop)
  let stationGroups ← findWithin .stationGroup roots start stop
  let stations ← findWithin .station (stationGroups.flatMap fun g => g.stations.map (·.id))
    start stop
  let groups ← findWithin .channelGroup (stations.flatMap fun s => s.groups.map (·.id)) start stop
  let channels ← findWithin .channel (groups.flatMap fun g => g.channels.map (·.id)) start stop
  let _ ← findWithin .response (channels.filterMap fun c => c.response?.map (·.id)) start stop

theorem ends_warm_of {P : Stack → Prop} {Q : Stack → Prop}
    (filled : start ≤ stop → Ends P (fill roots start stop) (fun _ => Q) fun _ => True) :
    Ends P (warm roots start stop) (fun _ => Q) fun _ => True := by
  refine (Ends.requireIds fun _ => trivial).bind fun _ => .given fun _ => ?_
  split
  · exact (Ends.throw trivial).bind fun _ _ => False.elim
  next ordered => exact filled (Int.le_of_lt (Int.not_le.1 ordered))

theorem ends_restart {P : Stack → Prop} (r : Repository) (roots : List (EntityId .stationGroup))
    (restarted : ∀ s, P s → B { s with
      window := .closed start stop, versionCache := s.versionCache.clear }) :
    Ends P (restart (.closed start stop)) (fun _ => Opening B r roots start stop 0)
      fun _ => True := by
  intro s hs
  refine ⟨fun _ _ => ⟨⟨restarted s hs, ?_, .cleared _, ?_⟩, ?_⟩, fun _ _ => trivial⟩
  · exact VersionCache.keyed_clear _
  · exact fun j hj => absurd hj (Nat.not_lt_zero _)
  · exact VersionCache.keyed_clear _

theorem ends_fill_stationGroups (hr : r.Consistent)
    (hB : Grounded r (.closed start stop) .stationGroup B) (ordered : start ≤ stop) :
    Ends (Opening B r roots start stop 0) (findWithin .stationGroup roots start stop)
      (fun es s => s.Opening B r roots start stop 1 ∧ r.Leaves roots start stop es)
      fun _ => True := by
  have alone : Yields (fun s => B s ∧ s.versionCache.Keyed fun j _ => j = .stationGroup)
      (findWithin .stationGroup roots start stop) fun _ => True :=
    yields_rangeLookup_keyed hB (fun _ _ => rfl)
      fun _ _ _ _ _ he => absurd he List.not_mem_nil
  have root : ∀ id, id ∈ roots ↔ r.Filled roots start stop .stationGroup id :=
    fun id => r.filled_stationGroup_iff.symm
  refine (((ends_fillKind hr hB ordered root).weaken fun _ hs => hs.toFilling).and
    ((Ends.of_yields alone).weaken fun _ hs => ⟨hs.base, hs.alone⟩)).mono ?_
  rintro es s ⟨⟨filling, leaves⟩, -, -, alone⟩
  exact ⟨⟨filling, alone⟩, leaves⟩

/-- No station is cached when stations are looked up, so none is resolved. -/
theorem ends_fill_stations (hr : r.Consistent) (hB : Grounded r (.closed start stop) .station B)
    (ordered : start ≤ stop) {ids : List (EntityId .station)}
    (hids : ∀ id, id ∈ ids ↔ r.Filled roots start stop .station id) :
    Ends (Opening B r roots start stop 1) (findWithin .station ids start stop)
      (fun es s => s.Filling B r roots start stop 2 ∧ r.Leaves roots start stop es)
      fun _ => True := by
  apply ((ends_fillKind hr hB ordered hids).weaken fun _ hs => hs.toFilling).of_perform_eq
  intro s hs
  refine perform_rangeLookup_of_vacant fun id _ => cachedVersions_of_not_hasKey fun cached => ?_
  cases hs.alone _ id cached

/-- Filling the cache settles every kind but responses, and then looks these up. -/
theorem ends_fill_of {P Q : Stack → Prop} (hr : r.Consistent) (ordered : start ≤ stop)
    (hB : ∀ k, k ≠ .response → Grounded r (.closed start stop) k B)
    (restarted : ∀ s, P s → B { s with
      window := .closed start stop, versionCache := s.versionCache.clear })
    (responses : ∀ ids : List (EntityId .response),
      (∀ id, id ∈ ids ↔ r.Filled roots start stop .response id) →
      Ends (Filling B r roots start stop 4) (findWithin .response ids start stop) (fun _ => Q)
        fun _ => True) :
    Ends P (fill roots start stop) (fun _ => Q) fun _ => True := by
  refine (ends_restart r roots restarted).bind fun _ =>
    (ends_fill_stationGroups hr (hB _ nofun) ordered).bind fun stationGroups =>
      .given fun leaves => ?_
  have stations := ends_fill_stations hr (hB _ nofun) ordered
    (leaves .station _ rfl fun _ _ => Entity.seeds_stationGroup_iff)
  refine stations.bind fun stations => .given fun leaves => ?_
  have groups := ends_fillKind hr (hB .channelGroup nofun) ordered
    (leaves .channelGroup _ rfl fun _ _ => Entity.seeds_station_iff)
  refine groups.bind fun groups => .given fun leaves => ?_
  have channels := ends_fillKind hr (hB .channel nofun) ordered
    (leaves .channel _ rfl fun _ _ => Entity.seeds_channelGroup_iff)
  refine channels.bind fun channels => .given fun leaves => ?_
  have responses := responses _ (leaves .response _ rfl fun _ _ => Entity.seeds_channel_iff)
  rw [← List.filterMap_eq_flatMap_toList] at responses
  exact responses.bind fun _ => .pure fun _ hs => hs

/-- Over an orderly content filling the cache settles every kind. -/
theorem ends_fill (hr : r.Orderly) (ordered : start ≤ stop) :
    Ends (fun s => s.repository.versions = r.versions ∧ s.repository.failure = none)
      (fill roots start stop)
      (fun _ => Filling (Faithful r (.closed start stop)) r roots start stop 5)
      fun _ => True := by
  have kept := fun k => (kept_faithful hr (.closed start stop) k).grounded
  refine ends_fill_of hr.consistent ordered (fun k _ => kept k) ?_ fun ids hids => ?_
  · exact fun s ⟨versions, working⟩ => ⟨versions, working, rfl, .cleared _⟩
  · exact (ends_fillKind hr.consistent (kept .response) ordered hids).mono fun _ _ h => h.1

/-- From no station groups, filling leaves the cache empty. -/
theorem ends_fill_nil : Ends (fun _ => True) (fill [] start stop)
    (fun _ s => s.window = .closed start stop ∧ s.versionCache.entries = []) fun _ => True := by
  have restarted : Ends (fun _ => True) (restart (.closed start stop))
      (fun _ s => s.window = .closed start stop ∧ s.versionCache.entries = []) fun _ => True :=
    fun s _ => ⟨fun _ _ => ⟨rfl, rfl⟩, fun _ _ => trivial⟩
  refine restarted.bind fun _ => (ends_rangeLookup_nil _ _).bind fun _ => .given ?_
  rintro rfl
  refine (ends_rangeLookup_nil _ _).bind fun _ => .given ?_
  rintro rfl
  refine (ends_rangeLookup_nil _ _).bind fun _ => .given ?_
  rintro rfl
  refine (ends_rangeLookup_nil _ _).bind fun _ => .given ?_
  rintro rfl
  exact (ends_rangeLookup_nil _ _).bind fun _ => .pure fun _ hs => hs.1

/-- From some station groups, filling fails while the repository does. -/
theorem ends_fill_of_failing (some : roots ≠ []) :
    Ends (fun s => s.repository.failure ≠ none) (fill roots start stop) (fun _ _ => False)
      fun _ => True := by
  have restarted : Ends (fun s => s.repository.failure ≠ none) (restart (.closed start stop))
      (fun _ => Failing) fun _ => True :=
    fun s hs => ⟨fun _ _ => ⟨hs, rfl⟩, fun _ _ => trivial⟩
  exact restarted.bind fun _ => (ends_rangeLookup_of_failing some).bind fun _ _ => False.elim

/-- What filling leaves, when it succeeds: over a repository that fails it succeeds only where there
is nothing to fill. -/
theorem left_by_warm {Q : Stack → Prop} {s s' : Stack}
    (success : (warm roots start stop).perform s = (.ok (), s'))
    (filled : start ≤ stop → Ends (fun s' => s'.repository.versions = s.repository.versions ∧
      s'.repository.failure = none) (fill roots start stop) (fun _ => Q) fun _ => True)
    (idle : roots = [] → s'.window = .closed start stop → s'.versionCache.entries = [] → Q s') :
    Q s' := by
  have left : ∀ {P Q : Stack → Prop},
      Ends P (warm roots start stop) (fun _ => Q) (fun _ => True) → P s → Q s' := by
    intro P Q ends hs
    have reached := (ends s hs).1 ()
    rw [success] at reached
    exact reached rfl
  by_cases working : s.repository.failure = none
  · exact left (ends_warm_of filled) ⟨rfl, working⟩
  · by_cases nothing : roots = []
    · subst nothing
      obtain ⟨window, empty⟩ := left (ends_warm_of fun _ => ends_fill_nil) trivial
      exact idle rfl window empty
    · exact (left (ends_warm_of fun _ => ends_fill_of_failing nothing) working).elim

end Cached

/-- What filling the cache leaves: the window over the range, the versions of what it comes to held
throughout, and nothing else cached. -/
structure Stack.Warmed (r : Repository) (roots : List (EntityId .stationGroup))
    (start stop : Instant) (s : Stack) : Prop where
  window : s.window = .closed start stop
  drawn : s.versionCache.DrawnFrom fun k e => e ∈ r.versions k
  keyed : s.versionCache.Keyed (r.Filled roots start stop)
  settled : ∀ k, s.Settled r roots start stop k

/-- Filling the cache over an orderly content leaves it warm. -/
theorem Stack.warmed_of_warm {s s' : Stack} (hr : s.repository.Orderly)
    (success : (Cached.warm roots start stop).perform s = (.ok (), s')) :
    s'.Warmed s.repository roots start stop := by
  have rank_lt : ∀ k : Kind, k.rank < 5 := fun k => by cases k <;> decide
  refine Cached.left_by_warm success (fun ordered => ?_) ?_
  · refine (Cached.ends_fill hr ordered).mono fun _ s filling => ?_
    exact ⟨filling.base.window, filling.base.drawn, filling.keyed,
      fun k => filling.settled k (rank_lt k)⟩
  · rintro rfl window empty
    refine ⟨window, .of_empty empty, ?_, fun k id filled => absurd filled Repository.not_filled_nil⟩
    exact fun k id cached => absurd cached (VersionCache.not_hasKey_of_empty empty _)

end

end StationCatalog
