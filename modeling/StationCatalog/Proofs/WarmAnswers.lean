import StationCatalog.Proofs.CalledLookups
import StationCatalog.Proofs.WarmCache

/-!
Lookups at an instant over a cache that has just been filled. An entity is answered without a call
when filling came to it, when the children of its version at the instant are answered in turn, and
when these do not leave it without the children it needs; a single entity that is not makes the
lookup call.
-/

namespace StationCatalog

open Lookup

variable {k : Kind}

/-- A version whose children are all answered is not dropped as of an instant: a station group names
a station, a channel group a channel, and a station a raw channel and a channel group whose version
at the instant names raw channels of the station alone. -/
def Entity.Stands (r : Repository) (t : Instant) : {k : Kind} → Entity k → Prop
  | .stationGroup, g => g.stations ≠ []
  | .station, s => s.rawChannels ≠ [] ∧ ∃ g ∈ r.versions .channelGroup,
      g.id ∈ s.groups.map (·.id) ∧ g.holdsAt t = true ∧
        ∀ c ∈ g.channels, c.id ∈ s.rawChannels.map (·.id)
  | .channelGroup, g => g.channels ≠ []
  | .channel, _ | .response, _ => True

/-- An entity is ready at an instant: filling came to it, and its version at the instant names only
entities that are ready and is not dropped. -/
inductive Repository.Ready (r : Repository) (filled : (k : Kind) → EntityId k → Prop)
    (t : Instant) : (k : Kind) → EntityId k → Prop
  | version {k : Kind} {v : Entity k} (own : filled k v.id) (stored : v ∈ r.versions k)
      (holds : v.holdsAt t = true)
      (children : ∀ (j : Kind) (id : EntityId j), v.Names id → Ready r filled t j id)
      (stands : v.Stands r t) : Ready r filled t k v.id

/-- An answer shows a version at an instant: it is that version, and a channel group refers to the
versions of the channels that it names. -/
def Entity.Shows (r : Repository) (t : Instant) : {k : Kind} → Entity k → Entity k → Prop
  | .channelGroup, x, v => x.version = v.version ∧
      ∀ version, version ∈ x.channels.map Entity.version ↔ ∃ u ∈ r.versions .channel,
        u.id ∈ v.channels.map (·.id) ∧ u.holdsAt t = true ∧ u.version = version
  | .stationGroup, x, v | .station, x, v | .channel, x, v | .response, x, v =>
      x.version = v.version

theorem Entity.Shows.version {r : Repository} {t : Instant} {x v : Entity k}
    (h : x.Shows r t v) : x.version = v.version := by
  cases k with
  | channelGroup => exact h.1
  | stationGroup | station | channel | response => exact h

namespace Repository

variable {r : Repository} {filled : (k : Kind) → EntityId k → Prop} {t : Instant}

theorem Ready.own {id : EntityId k} (h : r.Ready filled t k id) : filled k id := by
  cases h with
  | version own => exact own

theorem Ready.exists_version {id : EntityId k} (h : r.Ready filled t k id) :
    ∃ v ∈ r.versions k, v.id = id ∧ v.holdsAt t = true ∧
      (∀ (j : Kind) (id : EntityId j), v.Names id → r.Ready filled t j id) ∧ v.Stands r t := by
  cases h with
  | version _ stored holds children stands => exact ⟨_, stored, rfl, holds, children, stands⟩

end Repository

namespace Cached

variable {r : Repository} {t : Instant}

/-- Answers for entities at an instant: each shows a stored version, and each version is shown. -/
structure Answered (r : Repository) (t : Instant) (ids : List (EntityId k))
    (es : List (Entity k)) : Prop where
  sound : ∀ x ∈ es, ∃ v ∈ r.versions k, v.id ∈ ids ∧ v.holdsAt t = true ∧ x.Shows r t v
  complete : ∀ v ∈ r.versions k, v.id ∈ ids → v.holdsAt t = true →
    ∃ x ∈ es, x.version = v.version

theorem Answered.mem_versions {ids : List (EntityId k)} {es : List (Entity k)}
    (h : Answered r t ids es) {version : EntityId k × Option Instant} :
    version ∈ es.map Entity.version ↔
      ∃ u ∈ r.versions k, u.id ∈ ids ∧ u.holdsAt t = true ∧ u.version = version := by
  rw [List.mem_map]
  constructor
  · rintro ⟨x, hx, rfl⟩
    obtain ⟨v, hv, hid, holds, shows⟩ := h.sound x hx
    exact ⟨v, hv, hid, holds, shows.version.symm⟩
  · rintro ⟨u, hu, hid, holds, rfl⟩
    exact h.complete u hu hid holds

/-- Where each wanted entity is answered from the cache, there is nothing to fetch. -/
theorem finds_pointLookup_cached {w : TimeRange} {P : Stack → Prop}
    {resolve : Entity k → Lookup (Option (Entity k))} (window : ∀ s, P s → s.window = w)
    (inside : w.contains t = true) {Q : Entity k → Prop} {ids : List (EntityId k)}
    (named : Named ids)
    (each : ∀ id ∈ ids, Finds P (answerAt resolve t id) fun o => ∃ x ∈ o, x.id = id ∧ Q x) :
    Finds P (pointLookup resolve ids t) fun es =>
      (∀ x ∈ es, x.id ∈ ids ∧ Q x) ∧ ∀ id ∈ ids, ∃ x ∈ es, x.id = id := by
  rw [pointLookup_eq]
  refine (Leads.requireIds named).bind fun _ _ => .get_bind ?_
  intro s hs
  simp only [window s hs, recallWanted, inside, if_true]
  apply (Leads.collect fun id hid => each id (EntityId.mem_distinct.1 hid)).bind
  rintro answered ⟨sound, complete⟩
  have asked : ∀ id ∈ ids, ∃ x ∈ answered, x.id = id := by
    intro id hid
    obtain ⟨o, ⟨x, hx, same, -⟩, among⟩ := complete id (EntityId.mem_distinct.2 hid)
    exact ⟨x, among x hx, same⟩
  have nothing : unanswered (EntityId.distinct ids) answered = [] := by
    refine List.eq_nil_iff_forall_not_mem.2 fun id hid => ?_
    obtain ⟨hid, others⟩ := mem_unanswered.1 hid
    obtain ⟨x, hx, same⟩ := asked id (EntityId.mem_distinct.1 hid)
    exact others x hx same
  rw [nothing]
  refine Leads.bind (Leads.pure (Q := (· = [])) rfl) ?_
  rintro _ rfl
  rw [List.append_nil]
  refine .pure ⟨?_, ?_⟩
  · intro x hx
    obtain ⟨id, hid, y, hy, same, hQ⟩ := sound x (Sorted.mem_of_mem_ofList hx)
    obtain rfl := Option.some.inj hy
    exact ⟨same ▸ EntityId.mem_distinct.1 hid, hQ⟩
  · intro id hid
    obtain ⟨x, hx, rfl⟩ := asked id hid
    obtain ⟨y, hy, same⟩ := Entity.exists_mem_distinctVersions hx
    exact ⟨y, hy, congrArg Prod.fst same⟩

/-- From stacks with `P`, lookups of ready entities of a kind at an instant are answered and keep
`P`, and others leave stacks with `C`, where lookups stay. -/
structure Settles (r : Repository) (ready : (k : Kind) → EntityId k → Prop) (t : Instant)
    (P C : Stack → Prop) (k : Kind) : Prop where
  answers : ∀ ids, (∀ id ∈ ids, ready k id) → Finds P (findAt k ids t) (Answered r t ids)
  calls : ∀ ids, (∃ id ∈ ids, ¬ready k id) → Ends P (findAt k ids t) (fun _ => C) fun _ => True
  stays : ∀ ids, Ends C (findAt k ids t) (fun _ => C) fun _ => True

section

variable {ready : (k : Kind) → EntityId k → Prop} {P C : Stack → Prop}

/-- A version with a child that is not ready cannot be resolved from the cache. -/
theorem ends_resolveAt_unready (below : ∀ j, k.rank < j.rank → Settles r ready t P C j)
    {e : Entity k} (other : ∃ l ∈ e.children, ∃ id ∈ l.2, ¬ready l.1 id) :
    Ends P (resolveAt t k e) (fun _ => C) fun _ => True := by
  have done : ∀ o : Option (Entity k), Ends C (return o) (fun _ => C) fun _ => True :=
    fun o => .pure fun _ hs => hs
  have populated : e.isPopulated = true := by
    by_contra unpopulated
    obtain ⟨l, hl, id, hid, -⟩ := other
    rw [Bool.not_eq_true] at unpopulated
    rw [Entity.children_of_isPopulated_eq_false unpopulated l hl] at hid
    exact absurd hid List.not_mem_nil
  cases k with
  | response =>
      obtain ⟨l, hl, -⟩ := other
      exact absurd hl List.not_mem_nil
  | channel =>
      simp only [Entity.children, List.mem_singleton, exists_eq_left] at other
      change Ends P (resolveChannel t e) _ _
      unfold resolveChannel
      split
      next absent =>
        rw [absent] at other
        obtain ⟨id, hid, -⟩ := other
        exact absurd hid List.not_mem_nil
      next response carried =>
        rw [carried] at other
        refine ((below .response (by decide)).calls [response.id] other).bind fun found => ?_
        split
        · exact done _
        · exact done _
  | channelGroup =>
      simp only [Entity.children, List.mem_singleton, exists_eq_left] at other
      change Ends P (resolveGroup t e) _ _
      rw [resolveGroup, if_pos populated]
      refine ((below .channel (by decide)).calls _ other).bind fun channels => ?_
      split
      · exact done _
      · exact done _
  | station =>
      simp only [Entity.children, List.mem_cons, List.not_mem_nil, or_false, exists_eq_or_imp,
        exists_eq_left] at other
      change Ends P (resolveStation t e) _ _
      rw [resolveStation, if_pos populated]
      have channels := below .channel (by decide)
      have groups := below .channelGroup (by decide)
      by_cases some : ∃ id ∈ e.rawChannels.map (·.id), ¬ready .channel id
      · refine (channels.calls _ some).bind fun _ => (groups.stays _).bind fun _ => ?_
        dsimp only
        split
        · exact done _
        · exact done _
      · have all : ∀ id ∈ e.rawChannels.map (·.id), ready .channel id :=
          fun id hid => Classical.byContradiction fun h => some ⟨id, hid, h⟩
        refine (Ends.of_leads (channels.answers _ all)).bind fun _ =>
          ((groups.calls _ (other.resolve_left some)).weaken fun _ hs => hs.2).bind fun _ => ?_
        dsimp only
        split
        · exact done _
        · exact done _
  | stationGroup =>
      simp only [Entity.children, List.mem_singleton, exists_eq_left] at other
      change Ends P (resolveStationGroup t e) _ _
      rw [resolveStationGroup, if_pos populated]
      refine ((below .station (by decide)).calls _ other).bind fun stations => ?_
      split
      · exact done _
      · exact done _

end

section

variable {filled : (k : Kind) → EntityId k → Prop} {P C : Stack → Prop}

theorem Answered.isEmpty_iff {ids : List (EntityId k)} {es : List (Entity k)}
    (h : Answered r t ids es) (all : ∀ id ∈ ids, r.Ready filled t k id) :
    es.isEmpty = true ↔ ids = [] := by
  rw [List.isEmpty_iff]
  constructor
  · rintro rfl
    refine List.eq_nil_iff_forall_not_mem.2 fun id hid => ?_
    obtain ⟨v, hv, rfl, holds, -⟩ := (all id hid).exists_version
    obtain ⟨x, hx, -⟩ := h.complete v hv hid holds
    exact absurd hx List.not_mem_nil
  · rintro rfl
    refine List.eq_nil_iff_forall_not_mem.2 fun x hx => ?_
    obtain ⟨v, -, hid, -⟩ := h.sound x hx
    exact absurd hid List.not_mem_nil

/-- A station keeps just those channel groups whose versions name its raw channels alone. -/
theorem refersWithin_iff {ids : List (EntityId .channel)}
    {es : List (Entity .channel)} (found : Answered r t ids es) {x v : Entity .channelGroup}
    (shows : x.Shows r t v) (all : ∀ c ∈ v.channels, r.Ready filled t .channel c.id) :
    refersWithin (es.map (·.toVersionReference)) x = true ↔ ∀ c ∈ v.channels, c.id ∈ ids := by
  have among : ∀ c : Entity .channel,
      (es.map (·.toVersionReference)).any (·.version = c.version) = true ↔
        ∃ u ∈ r.versions .channel, u.id ∈ ids ∧ u.holdsAt t = true ∧ u.version = c.version := by
    intro c
    rw [← found.mem_versions, List.any_map, List.any_eq_true, List.mem_map]
    simp only [Function.comp_apply, Entity.version_toVersionReference, decide_eq_true_eq]
  simp only [refersWithin, List.all_eq_true, among]
  constructor
  · intro within c hc
    obtain ⟨u, hu, hid, holds, -⟩ := (all c hc).exists_version
    have named : u.id ∈ v.channels.map (·.id) := hid ▸ List.mem_map_of_mem hc
    obtain ⟨d, hd, same⟩ := List.mem_map.1 ((shows.2 u.version).2 ⟨u, hu, named, holds, rfl⟩)
    obtain ⟨u', -, hid', -, same'⟩ := within d hd
    have own : u'.id = u.id := congrArg Prod.fst (same'.trans same)
    rw [← hid, ← own]
    exact hid'
  · intro within c hc
    obtain ⟨u, hu, named, holds, same⟩ := (shows.2 c.version).1 (List.mem_map_of_mem hc)
    obtain ⟨d, hd, hid⟩ := List.mem_map.1 named
    exact ⟨u, hu, hid ▸ within d hd, holds, same⟩

/-- Of the channel groups answered for, those remain whose versions name only channels among the
ones asked for. -/
theorem filter_refersWithin_ne_nil_iff (hr : r.Consistent) {ids : List (EntityId .channel)}
    {cs : List (Entity .channel)} {groups : List (EntityId .channelGroup)}
    {gs : List (Entity .channelGroup)} (channels : Answered r t ids cs)
    (found : Answered r t groups gs)
    (ready : ∀ id ∈ groups, r.Ready filled t .channelGroup id) :
    gs.filter (refersWithin (cs.map (·.toVersionReference))) ≠ [] ↔
      ∃ g ∈ r.versions .channelGroup, g.id ∈ groups ∧ g.holdsAt t = true ∧
        ∀ c ∈ g.channels, c.id ∈ ids := by
  have named : ∀ g ∈ r.versions .channelGroup, g.id ∈ groups → g.holdsAt t = true →
      ∀ c ∈ g.channels, r.Ready filled t .channel c.id := by
    intro g hg hid holds c hc
    obtain ⟨g', hg', same, holds', children, -⟩ := (ready _ hid).exists_version
    obtain rfl := hr.disjoint _ g' hg' g hg same t holds' holds
    exact children _ _ ⟨_, List.mem_singleton_self _, List.mem_map_of_mem hc⟩
  constructor
  · intro some
    obtain ⟨x, hx⟩ := List.exists_mem_of_ne_nil _ some
    obtain ⟨hx, within⟩ := List.mem_filter.1 hx
    obtain ⟨g, hg, hid, holds, shows⟩ := found.sound x hx
    exact ⟨g, hg, hid, holds, (refersWithin_iff channels shows (named g hg hid holds)).1 within⟩
  · rintro ⟨g, hg, hid, holds, within⟩
    obtain ⟨x, hx, version⟩ := found.complete g hg hid holds
    obtain ⟨g', hg', -, -, shows⟩ := found.sound x hx
    obtain rfl := hr.eq_of_version hg' hg (shows.version.symm.trans version)
    exact List.ne_nil_of_mem (List.mem_filter.2
      ⟨hx, (refersWithin_iff channels shows (named _ hg hid holds)).2 within⟩)

/-- What becomes of a version that is resolved: it is shown, unless it does not stand. -/
def Resolved (r : Repository) (t : Instant) (v : Entity k) (o : Option (Entity k)) : Prop :=
  (∀ x ∈ o, x.Shows r t v) ∧ (o.isSome = true ↔ v.Stands r t)

theorem resolved_some {x v : Entity k} (shows : x.Shows r t v) (stands : v.Stands r t) :
    Resolved r t v (some x) := by
  refine ⟨?_, iff_of_true rfl stands⟩
  rintro _ ⟨⟩
  exact shows

theorem finds_unless {b : Bool} {x v : Entity k} (stands : b = true ↔ ¬v.Stands r t)
    (shows : x.Shows r t v) :
    Finds P (if b = true then return none else return some x : Lookup (Option (Entity k)))
      (Resolved r t v) := by
  split
  next empty =>
    exact .pure ⟨fun _ h => absurd h (Option.not_mem_none _),
      iff_of_false Bool.false_ne_true (stands.1 empty)⟩
  next some => exact .pure (resolved_some shows (not_not.1 fun h => some (stands.2 h)))

theorem finds_resolveChannel_ready
    (responses : Settles r (r.Ready filled t) t P C .response) {v : Entity .channel}
    (children : ∀ id ∈ v.response?.map (·.id), r.Ready filled t .response id) :
    Finds P (resolveChannel t v.demote) (Resolved r t v) := by
  unfold resolveChannel
  split
  next => exact .pure (resolved_some (Entity.version_demote v) trivial)
  next response carried =>
    have ready : ∀ id ∈ [response.id], r.Ready filled t .response id := by
      intro id hid
      obtain rfl := List.mem_singleton.1 hid
      apply children
      rw [← Entity.map_id_response?_demote, carried]
      rfl
    apply (responses.answers _ ready).bind
    intro found _
    split
    · exact .pure (resolved_some ((Prod.ext (Entity.id_withResponse _ _)
        (Entity.start?_withResponse _ _)).trans (Entity.version_demote v)) trivial)
    · exact .pure (resolved_some (Entity.version_demote v) trivial)

theorem finds_resolveGroup_ready (channels : Settles r (r.Ready filled t) t P C .channel)
    {v : Entity .channelGroup} (populated : v.demote.isPopulated = true)
    (children : ∀ id ∈ v.channels.map (·.id), r.Ready filled t .channel id) :
    Finds P (resolveGroup t v.demote) (Resolved r t v) := by
  rw [resolveGroup, if_pos populated, Entity.channels_demote]
  apply (channels.answers _ children).bind
  intro es found
  have stands : es.isEmpty = true ↔ ¬v.Stands r t := by
    rw [found.isEmpty_iff children, List.map_eq_nil_iff]
    exact not_not.symm
  refine finds_unless stands ⟨(Prod.ext (Entity.id_withChannels _ _)
    (Entity.start?_withChannels _ _)).trans (Entity.version_demote v), fun version => ?_⟩
  rw [Entity.channels_withChannels populated, List.map_map, ← found.mem_versions]
  exact iff_of_eq (congrArg (version ∈ ·)
    (List.map_congr_left fun e _ => e.version_toVersionReference))

theorem finds_resolveStation_ready (hr : r.Consistent)
    (channels : Settles r (r.Ready filled t) t P C .channel)
    (groups : Settles r (r.Ready filled t) t P C .channelGroup) {v : Entity .station}
    (populated : v.demote.isPopulated = true)
    (raw : ∀ id ∈ v.rawChannels.map (·.id), r.Ready filled t .channel id)
    (named : ∀ id ∈ v.groups.map (·.id), r.Ready filled t .channelGroup id) :
    Finds P (resolveStation t v.demote) (Resolved r t v) := by
  rw [resolveStation, if_pos populated, Entity.rawChannels_demote, Entity.groups_demote]
  apply (channels.answers _ raw).bind
  intro cs foundChannels
  apply (groups.answers _ named).bind
  intro gs foundGroups
  have kept := filter_refersWithin_ne_nil_iff hr foundChannels foundGroups named
  have stands : ((cs.map (·.toVersionReference)).isEmpty ||
      (gs.filter (refersWithin (cs.map (·.toVersionReference)))).isEmpty) = true ↔
        ¬v.Stands r t := by
    rw [Bool.or_eq_true, List.isEmpty_map, foundChannels.isEmpty_iff raw, List.map_eq_nil_iff,
      List.isEmpty_iff]
    exact (or_congr not_not.symm (not_not.symm.trans (not_congr kept))).trans not_and_or.symm
  exact finds_unless stands ((Prod.ext (Entity.id_withChildren _ _ _)
    (Entity.start?_withChildren _ _ _)).trans (Entity.version_demote v))

theorem finds_resolveStationGroup_ready (stations : Settles r (r.Ready filled t) t P C .station)
    {v : Entity .stationGroup} (populated : v.demote.isPopulated = true)
    (children : ∀ id ∈ v.stations.map (·.id), r.Ready filled t .station id) :
    Finds P (resolveStationGroup t v.demote) (Resolved r t v) := by
  rw [resolveStationGroup, if_pos populated, Entity.stations_demote]
  apply (stations.answers _ children).bind
  intro es found
  have stands : es.isEmpty = true ↔ ¬v.Stands r t := by
    rw [found.isEmpty_iff children, List.map_eq_nil_iff]
    exact not_not.symm
  exact finds_unless stands ((Prod.ext (Entity.id_withStations _ _)
    (Entity.start?_withStations _ _)).trans (Entity.version_demote v))

/-- A version whose children are ready is resolved from the cache, and dropped only if it does not
stand. -/
theorem finds_resolveAt_ready (hr : r.Consistent)
    (below : ∀ j, k.rank < j.rank → Settles r (r.Ready filled t) t P C j) {v : Entity k}
    (populated : v.isPopulated = true)
    (children : ∀ (j : Kind) (id : EntityId j), v.Names id → r.Ready filled t j id) :
    Finds P (resolveAt t k v.demote) (Resolved r t v) := by
  have bare : v.demote.isPopulated = true := v.isPopulated_demote.trans populated
  have lists : ∀ l ∈ v.children, ∀ id ∈ l.2, r.Ready filled t l.1 id :=
    fun l hl id hid => children l.1 id ⟨l.2, hl, hid⟩
  cases k with
  | response => exact .pure (resolved_some (Entity.version_demote v) trivial)
  | channel =>
      exact finds_resolveChannel_ready (below .response (by decide)) fun id hid =>
        lists _ (List.mem_singleton_self _) id (Option.mem_toList.2 hid)
  | channelGroup =>
      exact finds_resolveGroup_ready (below .channel (by decide)) bare
        (lists _ (List.mem_singleton_self _))
  | station =>
      exact finds_resolveStation_ready hr (below .channel (by decide))
        (below .channelGroup (by decide)) bare (lists _ List.mem_cons_self)
        (lists _ (List.mem_cons_of_mem _ List.mem_cons_self))
  | stationGroup =>
      exact finds_resolveStationGroup_ready (below .station (by decide)) bare
        (lists _ (List.mem_singleton_self _))

end

end Cached

/-- A stack that differs from another at most in its tallies and its request cache. -/
structure Stack.Alike (s₀ s : Stack) : Prop where
  window : s.window = s₀.window
  repository : s.repository = s₀.repository
  entries : s.versionCache.entries = s₀.versionCache.entries

/-- A stack that has the window of another, and has made more calls. -/
def Stack.Further (s₀ : Stack) : Stack → Prop := Called s₀.window s₀.repository.calls.length

theorem Stack.Alike.called {s₀ s : Stack} (h : s₀.Alike s) :
    s.window = s₀.window ∧ s₀.repository.calls.length ≤ s.repository.calls.length :=
  ⟨h.window, Nat.le_of_eq (congrArg (·.calls.length) h.repository.symm)⟩

theorem Cached.ends_further {α : Type} {s : Stack} {x : Lookup α}
    (hx : Traced Stack.Goes s.window x) : Ends s.Further x (fun _ => s.Further) fun _ => True :=
  ends_called hx

section

variable {r : Repository} {roots : List (EntityId .stationGroup)} {start stop t : Instant}
  {s : Stack}

namespace Stack.Warmed

/-- What a warm cache answers of an entity is the version of the instant, and filling came to it. -/
theorem of_find? (h : s.Warmed r roots start stop) {id : EntityId k} {e : Entity k}
    (found : s.versionCache.find? k (.ofId id) t = some e) :
    r.Filled roots start stop k id ∧
      ∃ v ∈ r.versions k, v.id = id ∧ v.holdsAt t = true ∧ e = v.demote := by
  obtain ⟨validity, data, stored, he, holds⟩ := h.drawn.find? found
  refine ⟨h.keyed k id ?_, _, stored, rfl,
    (Entity.holdsAt_populated id validity data t).trans holds, he⟩
  obtain ⟨any, hany, -⟩ := Option.bind_eq_some_iff.1 found
  obtain ⟨history, hhist, -⟩ := Option.bind_eq_some_iff.1 hany
  rw [VersionCache.hasKey, hhist]
  rfl

/-- Within the range a warm cache answers each version that filling came to. -/
theorem find?_eq (h : s.Warmed r roots start stop) (hr : r.Consistent) (hstart : start ≤ t)
    (hstop : t ≤ stop) {v : Entity k} (filled : r.Filled roots start stop k v.id)
    (hv : v ∈ r.versions k) (holds : v.holdsAt t = true) :
    s.versionCache.find? k (.ofId v.id) t = some v.demote := by
  obtain ⟨e, he⟩ :=
    h.drawn.exists_find? ((h.settled k v.id filled).2 v hv rfl t hstart hstop holds)
  obtain ⟨-, u, hu, same, uholds, rfl⟩ := h.of_find? he
  rw [he, hr.disjoint k u hu v hv same t uholds holds]

end Stack.Warmed

namespace Cached

open Stack

theorem perform_read_alike (id : EntityId k) (s' : Stack) (h : s.Alike s') :
    s.Alike { s' with versionCache := (s'.versionCache.read k (.ofId id) t).2 } :=
  ⟨h.window, h.repository, h.entries⟩

section

variable (hr : r.Consistent) (warm : s.Warmed r roots start stop) (hstart : start ≤ t)
  (hstop : t ≤ stop) (below : ∀ j, k.rank < j.rank →
    Settles r (r.Ready (r.Filled roots start stop) t) t s.Alike
      s.Further j)

include hr warm below

include hstart hstop in
/-- The cache answers a ready entity. -/
theorem finds_answerAt_ready {id : EntityId k}
    (ready : r.Ready (r.Filled roots start stop) t k id) :
    Finds s.Alike (answerAt (resolveAt t k) t id) fun o => ∃ x ∈ o, ∃ v ∈ r.versions k,
      v.id = id ∧ v.holdsAt t = true ∧ x.Shows r t v := by
  have filled := ready.own
  obtain ⟨v, hv, rfl, holds, children, stands⟩ := ready.exists_version
  apply (finds_recallAt (perform_read_alike v.id)).bind
  rintro _ ⟨s', alike, rfl⟩
  rw [VersionCache.find?_congr alike.entries,
    warm.find?_eq hr hstart hstop filled hv holds]
  apply (finds_resolveAt_ready hr below (hr.populated k v hv) children).mono
  rintro o ⟨shows, some⟩
  obtain ⟨x, rfl⟩ := Option.isSome_iff_exists.1 (some.2 stands)
  exact ⟨x, rfl, v, hv, rfl, holds, shows x rfl⟩

/-- The cache answers none but ready entities, unless a call is made to resolve what it holds. -/
theorem ends_answerAt_ready (id : EntityId k) :
    Ends s.Alike (answerAt (resolveAt t k) t id)
      (fun o s' => s.Further s' ∨
        s.Alike s' ∧ ∀ e ∈ o, r.Ready (r.Filled roots start stop) t k e.id) fun _ => True := by
  refine ends_answerAt (perform_read_alike id) ?_ fun s' alike =>
    .inr ⟨alike, fun _ h => absurd h (Option.not_mem_none _)⟩
  intro s' e alike found
  rw [VersionCache.find?_congr alike.entries] at found
  obtain ⟨filled, v, hv, rfl, holds, rfl⟩ := warm.of_find? found
  -- with a child that is not ready the call is made below, while the version is resolved
  by_cases all : ∀ (j : Kind) (id : EntityId j), v.Names id →
      r.Ready (r.Filled roots start stop) t j id
  · have resolved := finds_resolveAt_ready hr below (hr.populated k v hv) all
    refine ((Ends.of_leads resolved).and (ends_resolveAt_id t k v.demote)).mono ?_
    rintro o s'' ⟨⟨⟨-, some⟩, alike⟩, own⟩
    refine .inr ⟨alike, fun x hx => ?_⟩
    rw [own x hx, Entity.id_demote]
    exact .version filled hv holds all (some.1 (Option.isSome_of_mem hx))
  · simp only [not_forall] at all
    obtain ⟨j, i, ⟨is, his, hi⟩, unready⟩ := all
    refine (ends_resolveAt_unready below ⟨⟨j, is⟩, ?_, i, hi, unready⟩).mono
      fun _ _ called => .inl called
    rw [Entity.children_demote]
    exact his

include hstart hstop in
/-- Entities that are ready are answered, each by its version at the instant. -/
theorem finds_findAt_ready {ids : List (EntityId k)}
    (all : ∀ id ∈ ids, r.Ready (r.Filled roots start stop) t k id) :
    Finds s.Alike (findAt k ids t) (Answered r t ids) := by
  have named : Named ids := by
    by_contra unnamed
    obtain ⟨id, hid, blank⟩ := not_named_iff.1 unnamed
    exact (warm.settled k id (all id hid).own).1 blank
  have inside : s.window.contains t = true :=
    warm.window ▸ TimeRange.contains_closed hstart hstop
  have each : ∀ id ∈ ids, Finds s.Alike (answerAt (resolveAt t k) t id) fun o =>
      ∃ x ∈ o, x.id = id ∧ ∃ v ∈ r.versions k, v.id ∈ ids ∧ v.holdsAt t = true ∧
        x.Shows r t v := by
    intro id hid
    apply (finds_answerAt_ready hr warm hstart hstop below (all id hid)).mono
    rintro o ⟨x, hx, v, hv, rfl, holds, shows⟩
    exact ⟨x, hx, congrArg Prod.fst shows.version, v, hv, hid, holds, shows⟩
  rw [findAt_eq_pointLookup]
  apply (finds_pointLookup_cached (fun _ alike => alike.window) inside named each).mono
  rintro es ⟨sound, complete⟩
  refine ⟨fun x hx => (sound x hx).2, ?_⟩
  intro v hv hid holds
  obtain ⟨x, hx, own⟩ := complete v.id hid
  obtain ⟨-, u, hu, -, uholds, shows⟩ := sound x hx
  have shown : u.id = v.id := (congrArg Prod.fst shows.version).symm.trans own
  rw [← hr.disjoint k u hu v hv shown t uholds holds]
  exact ⟨x, hx, shows.version⟩

/-- One entity that is not ready makes the lookup call. -/
theorem ends_findAt_unready {ids : List (EntityId k)}
    (other : ∃ id ∈ ids, ¬r.Ready (r.Filled roots start stop) t k id) :
    Ends s.Alike (findAt k ids t) (fun _ => s.Further) fun _ => True := by
  rw [findAt_eq_pointLookup]
  exact ends_pointLookup_called (fun _ alike => alike.called)
    (traced_resolveAt goes_of_effect t k)
    (fun id _ _ => ends_answerAt_ready hr warm below id) other

end

/-- Over a warm cache lookups at an instant of the range settle what is ready. -/
theorem settles_of_warmed (hr : r.Consistent) (warm : s.Warmed r roots start stop)
    (hstart : start ≤ t) (hstop : t ≤ stop) (k : Kind) :
    Settles r (r.Ready (r.Filled roots start stop) t) t s.Alike s.Further k := by
  -- from responses upwards: resolving an entity looks up kinds further down alone
  induction k using Kind.upward with
  | h k below =>
      exact ⟨fun _ => finds_findAt_ready hr warm hstart hstop below,
        fun _ => ends_findAt_unready hr warm below,
        fun ids => ends_further (traced_findAt goes_of_effect k ids t)⟩

end Cached

/-- Where filling comes to every channel that is reached, it comes to all that is reached. -/
theorem Repository.Reached.filled
    (channels : ∀ id, r.Reached roots start stop .channel id →
      r.Filled roots start stop .channel id)
    {id : EntityId k} (h : r.Reached roots start stop k id) : r.Filled roots start stop k id := by
  induction h with
  | root among => exact .root among
  | @child j k v id parent stored holds named ih =>
      by_cases raw : j = .station ∧ k = .channel
      · obtain ⟨rfl, rfl⟩ := raw
        exact channels id (.child parent stored holds named)
      · exact .child ih stored holds ⟨named, raw⟩

/-- What is reached is ready at an instant at which it has versions, when filling comes to every
channel that is reached and no version of the instant is dropped. -/
theorem Repository.ready_of_reached (hstart : start ≤ t) (hstop : t ≤ stop)
    (versions : ∀ (j : Kind) (id : EntityId j), r.Reached roots start stop j id →
      ∃ v ∈ r.versions j, v.id = id ∧ v.holdsAt t = true)
    (channels : ∀ id, r.Reached roots start stop .channel id →
      r.Filled roots start stop .channel id)
    (stands : ∀ j, ∀ v ∈ r.versions j, r.Reached roots start stop j v.id → v.holdsAt t = true →
      v.Stands r t)
    (id : EntityId k) (reached : r.Reached roots start stop k id) :
    r.Ready (r.Filled roots start stop) t k id := by
  induction k using Kind.upward with
  | h k below =>
      obtain ⟨v, hv, rfl, holds⟩ := versions k id reached
      refine .version (reached.filled channels) hv holds ?_ (stands k v hv reached holds)
      intro j i named
      have spans := Entity.holdsWithin_of_holdsAt holds hstart hstop
      exact below j (Entity.rank_lt_of_names named) i (.child reached hv spans named)

end

namespace Sample

/-- A network of versions that hold for ever. Its station has raw channels to spare, which its one
channel group does not list. -/
def lasting (spare : List (EntityId .channel)) : Network :=
  let response := response (.ofUuid (.ofNat 7)) ⟨.origin, none⟩
  let grouped := channel ⟨"STA.BHZ", Eq.refl true⟩ ⟨.origin, none⟩ (some response)
  let channels := grouped :: spare.map fun id => channel id ⟨.origin, none⟩ (some response)
  let group := channelGroup ⟨"STA01", Eq.refl true⟩ ⟨"STA", Eq.refl true⟩ ⟨.origin, none⟩ [grouped]
  let station := station ⟨"STA", Eq.refl true⟩ ⟨.origin, none⟩ [group] channels
  ⟨stationGroup ⟨"PRIMARY", Eq.refl true⟩ .origin [station], station, group, channels, response⟩

variable {spare : List (EntityId .channel)}

theorem mem_channels_lasting {c : Entity .channel} :
    c ∈ (lasting spare).channels ↔ ∃ id ∈ ⟨"STA.BHZ", rfl⟩ :: spare,
      channel id ⟨.origin, none⟩ (some (lasting spare).response) = c := by
  rw [← List.mem_map]
  rfl

theorem orderly_lasting (spare : List (EntityId .channel)) :
    (lasting spare).repository.Orderly := by
  apply Network.orderly_repository
  · intro k
    cases k with
    | channel =>
        refine List.all_eq_true.2 fun c hc => ?_
        obtain ⟨id, -, rfl⟩ := mem_channels_lasting.1 hc
        rfl
    | stationGroup | station | channelGroup | response => rfl
  · intro a ha b hb same _ _ _
    obtain ⟨i, -, rfl⟩ := mem_channels_lasting.1 ha
    obtain ⟨j, -, rfl⟩ := mem_channels_lasting.1 hb
    obtain rfl : i = j := same
    rfl
  · intro c hc e he
    obtain ⟨id, -, rfl⟩ := mem_channels_lasting.1 hc
    exact (Option.some.inj he).symm

theorem holdsAt_lasting (ht : Instant.origin ≤ t) {v : Entity k}
    (hv : v ∈ (lasting spare).repository.versions k) : v.holdsAt t = true := by
  have open_ended : v.start? = some .origin ∧ v.stop? = none := by
    cases k with
    | channel =>
        obtain ⟨id, -, rfl⟩ := mem_channels_lasting.1 hv
        exact ⟨rfl, rfl⟩
    | stationGroup | station | channelGroup | response =>
        obtain rfl := List.mem_singleton.1 hv
        exact ⟨rfl, rfl⟩
  refine Entity.holdsAt_iff.2 ⟨⟨_, open_ended.1, ht⟩, fun u hu => ?_⟩
  cases hu.symm.trans open_ended.2

/-- All that is reached in the network has a version at every instant. -/
theorem exists_version_lasting (ht : Instant.origin ≤ t) {id : EntityId k}
    (reached : (lasting spare).repository.Reached [⟨"PRIMARY", rfl⟩] start stop k id) :
    ∃ v ∈ (lasting spare).repository.versions k, v.id = id ∧ v.holdsAt t = true := by
  have children : ∀ j, ∀ v ∈ (lasting spare).repository.versions j, ∀ l ∈ v.children, ∀ i ∈ l.2,
      ∃ u ∈ (lasting spare).repository.versions l.1, u.id = i := by
    intro j v hv l hl i hi
    cases j with
    | channel =>
        obtain ⟨_, -, rfl⟩ := mem_channels_lasting.1 hv
        obtain rfl := List.mem_singleton.1 hl
        exact ⟨_, List.mem_singleton_self _, (List.mem_singleton.1 hi).symm⟩
    | station =>
        obtain rfl := List.mem_singleton.1 hv
        rcases List.mem_pair.1 hl with rfl | rfl
        · exact List.mem_map.1 hi
        · exact List.mem_map.1 hi
    | stationGroup | channelGroup =>
        obtain rfl := List.mem_singleton.1 hv
        obtain rfl := List.mem_singleton.1 hl
        exact ⟨_, List.mem_cons_self, (List.mem_singleton.1 hi).symm⟩
    | response => exact absurd hl List.not_mem_nil
  have stored : ∃ v ∈ (lasting spare).repository.versions k, v.id = id :=
    reached.of_child (A := fun k id => ∃ v ∈ (lasting spare).repository.versions k, v.id = id)
      (fun _ hi => ⟨_, List.mem_singleton_self _, (List.mem_singleton.1 hi).symm⟩) children
  obtain ⟨v, hv, same⟩ := stored
  exact ⟨v, hv, same, holdsAt_lasting ht hv⟩

section

variable (ht : Instant.origin ≤ t) (hstart : start ≤ t) (hstop : t ≤ stop)

include ht hstart hstop

theorem holdsWithin_lasting {v : Entity k} (hv : v ∈ (lasting spare).repository.versions k) :
    v.holdsWithin start stop = true :=
  Entity.holdsWithin_of_holdsAt (holdsAt_lasting ht hv) hstart hstop

theorem filled_station_lasting : (lasting spare).repository.Filled [⟨"PRIMARY", rfl⟩] start stop
    .station ⟨"STA", rfl⟩ := by
  have group : (lasting spare).stationGroup ∈ (lasting spare).repository.versions .stationGroup :=
    List.mem_singleton_self _
  exact .child (.root (List.mem_singleton_self _)) group (holdsWithin_lasting ht hstart hstop group)
    (Entity.seeds_stationGroup_iff.2 (List.mem_singleton_self _))

theorem filled_channel_lasting : (lasting spare).repository.Filled [⟨"PRIMARY", rfl⟩] start stop
    .channel ⟨"STA.BHZ", rfl⟩ := by
  have station : (lasting spare).station ∈ (lasting spare).repository.versions .station :=
    List.mem_singleton_self _
  have group : (lasting spare).channelGroup ∈ (lasting spare).repository.versions .channelGroup :=
    List.mem_singleton_self _
  have filled : (lasting spare).repository.Filled [⟨"PRIMARY", rfl⟩] start stop .channelGroup
      (lasting spare).channelGroup.id :=
    .child (filled_station_lasting ht hstart hstop) station
      (holdsWithin_lasting ht hstart hstop station)
      (Entity.seeds_station_iff.2 (List.mem_singleton_self _))
  exact .child filled group (holdsWithin_lasting ht hstart hstop group)
    (Entity.seeds_channelGroup_iff.2 (List.mem_singleton_self _))

theorem reached_channel_lasting {id : EntityId .channel}
    (named : id ∈ (lasting spare).station.rawChannels.map (·.id)) :
    (lasting spare).repository.Reached [⟨"PRIMARY", rfl⟩] start stop .channel id := by
  have station : (lasting spare).station ∈ (lasting spare).repository.versions .station :=
    List.mem_singleton_self _
  exact .child (filled_station_lasting ht hstart hstop).reached station
    (holdsWithin_lasting ht hstart hstop station) ⟨_, List.mem_cons_self, named⟩

/-- In the network without spare channels all that is reached is ready. -/
theorem ready_lasting {id : EntityId k}
    (reached : (lasting []).repository.Reached [⟨"PRIMARY", rfl⟩] start stop k id) :
    (lasting []).repository.Ready ((lasting []).repository.Filled [⟨"PRIMARY", rfl⟩] start stop)
      t k id := by
  refine Repository.ready_of_reached hstart hstop (fun _ _ => exists_version_lasting ht) ?_ ?_ id
    reached
  · intro id reached
    obtain ⟨v, hv, rfl, -⟩ := exists_version_lasting ht reached
    obtain rfl := List.mem_singleton.1 hv
    exact filled_channel_lasting ht hstart hstop
  · intro j v hv _ _
    cases j with
    | stationGroup | channelGroup =>
        obtain rfl := List.mem_singleton.1 hv
        exact List.cons_ne_nil _ _
    | station =>
        obtain rfl := List.mem_singleton.1 hv
        exact ⟨List.cons_ne_nil _ _, _, List.mem_singleton_self _, List.mem_singleton_self _,
          holdsAt_lasting ht (List.mem_singleton_self _), by decide⟩
    | channel | response => trivial

end

end Sample

/-- After the cache was filled, a lookup at an instant of the range succeeds without a call just
when every entity it asks for is ready; and all that the station groups reach is ready where it has
versions, unless filling does not come to a channel or a version is dropped. -/
theorem Cached.findAt_after_warm {s s' : Stack} (hr : s.repository.Orderly)
    {roots : List (EntityId .stationGroup)} {start stop : Instant}
    (success : (warm roots start stop).perform s = (.ok (), s')) {t : Instant}
    (hstart : start ≤ t) (hstop : t ≤ stop) (k : Kind) (ids : List (EntityId k)) :
    let r := s.repository
    let result := (findAt k ids t).perform s'
    ((∃ es, result.1 = .ok es) ∧ result.2.repository.calls = s'.repository.calls ↔
      ∀ id ∈ ids, r.Ready (r.Filled roots start stop) t k id) ∧
    ((∀ (j : Kind) (id : EntityId j), r.Reached roots start stop j id →
        ∃ v ∈ r.versions j, v.id = id ∧ v.holdsAt t = true) →
      (∀ id, r.Reached roots start stop .channel id → r.Filled roots start stop .channel id) →
      (∀ j, ∀ v ∈ r.versions j, r.Reached roots start stop j v.id → v.holdsAt t = true →
        v.Stands r t) →
      ∀ id : EntityId k, r.Reached roots start stop k id →
        r.Ready (r.Filled roots start stop) t k id) := by
  intro r result
  refine ⟨?_, Repository.ready_of_reached hstart hstop⟩
  have settles := settles_of_warmed hr.consistent (Stack.warmed_of_warm hr success) hstart hstop k
  constructor
  · rintro ⟨⟨es, found⟩, silent⟩ id hid
    by_contra unready
    have called := ((settles.calls ids ⟨id, hid, unready⟩ s' ⟨rfl, rfl, rfl⟩).1 es found).2
    rw [show ((findAt k ids t).perform s').2.repository.calls = _ from silent] at called
    exact Nat.lt_irrefl _ called
  · intro all
    obtain ⟨es, found, -, alike⟩ := settles.answers ids all s' ⟨rfl, rfl, rfl⟩
    exact ⟨⟨es, found⟩, congrArg Repository.calls alike.repository⟩

/-- Once the cache was filled from the network without spare channels, its station is found without
a call. -/
theorem Cached.findAt_after_warm_lasting :
    let roots : List (EntityId .stationGroup) := [⟨"PRIMARY", rfl⟩]
    let s := Stack.over (Sample.lasting []).repository .all
    let s' := ((warm roots .origin Sample.change).perform s).2
    let result := (findAt .station [⟨"STA", rfl⟩] .origin).perform s'
    s.repository.Orderly ∧ (warm roots .origin Sample.change).perform s = (.ok (), s') ∧
      Instant.origin ≤ Sample.change ∧ (∃ es, result.1 = .ok es) ∧
      result.2.repository.calls = s'.repository.calls := by
  intro roots s s'
  have orderly := Sample.orderly_lasting []
  have filled : ((warm roots .origin Sample.change).perform s).1 = .ok () := by decide +kernel
  have success : (warm roots .origin Sample.change).perform s = (.ok (), s') := by rw [← filled]
  -- what is in the filled stack is left to the theorem, not computed
  clear_value s'
  have first : Instant.origin ≤ Instant.origin := Int.le_refl _
  have inside : Instant.origin ≤ Sample.change := by decide
  have answered := (findAt_after_warm orderly success first inside .station [⟨"STA", rfl⟩]).1.2
  refine ⟨orderly, success, inside, answered ?_⟩
  intro id hid
  obtain rfl := List.mem_singleton.1 hid
  exact Sample.ready_lasting first first inside
    (Sample.filled_station_lasting first first inside).reached

/-- All that is reached in the network with a spare channel has a version throughout the range; once
the cache was filled, the spare channel is called for. -/
theorem Cached.findAt_after_warm_calls :
    let roots : List (EntityId .stationGroup) := [⟨"PRIMARY", rfl⟩]
    let ids : List (EntityId .channel) := [⟨"STA.BHN", rfl⟩]
    let s := Stack.over (Sample.lasting ids).repository .all
    let s' := ((warm roots .origin Sample.change).perform s).2
    let result := (findAt .channel ids .origin).perform s'
    s.repository.Orderly ∧ (warm roots .origin Sample.change).perform s = (.ok (), s') ∧
      (∀ (k : Kind) (id : EntityId k), s.repository.Reached roots .origin Sample.change k id →
        ∀ t, Instant.origin ≤ t → t ≤ Sample.change →
          ∃ v ∈ s.repository.versions k, v.id = id ∧ v.holdsAt t = true) ∧
      (∀ id ∈ ids, s.repository.Reached roots .origin Sample.change .channel id) ∧
      result.2.repository.calls =
        s'.repository.calls ++ [⟨.channel, ["STA.BHN"], .at .origin⟩] := by
  intro roots ids s s' result
  have filled : ((warm roots .origin Sample.change).perform s).1 = .ok () := by decide +kernel
  refine ⟨Sample.orderly_lasting ids, by rw [← filled], ?_, ?_, by decide +kernel⟩
  · intro k id reached t ht _
    exact Sample.exists_version_lasting ht reached
  · intro id hid
    exact Sample.reached_channel_lasting (Int.le_refl _) (Int.le_refl _) (by decide)
      (List.mem_cons_of_mem _ hid)

end StationCatalog
