import StationCatalog.Proofs.CachedStations
import StationCatalog.Proofs.RangeLookups

/-!
Station lookups over a time range. A stored version that holds within the range is recalled from the
cache or fetched. One that is fetched is always answered; one that is only recalled is answered when
it links a channel group, and is dropped when it links none.
-/

namespace StationCatalog

open Lookup

/-- The stored versions of some entities that hold within a range. -/
def Repository.Spans {k : Kind} (r : Repository) (ids : List (EntityId k)) (start stop : Instant)
    (v : Entity k) : Prop :=
  v ∈ r.versions k ∧ v.id ∈ ids ∧ v.holdsWithin start stop = true

namespace Stack

/-- The version is recalled, not fetched, and links no channel group. -/
def Drops (s : Stack) (r : Repository) (start stop : Instant) (v : Entity .station) : Prop :=
  s.RecallsWithin start stop v ∧ ¬s.FetchesWithin start stop v ∧ ∀ id, ¬r.Links v id

/-- The version is answered with this channel group: it names the group, and links it if it is
recalled and links any. -/
def Keeps (s : Stack) (r : Repository) (start stop : Instant) (v : Entity .station)
    (id : EntityId .channelGroup) : Prop :=
  id ∈ v.groups.map (·.id) ∧
    (s.RecallsWithin start stop v → (∃ other, r.Links v other) → r.Links v id)

/-- The versions of stations that a lookup over a range answers. -/
def Recovers (s : Stack) (r : Repository) (ids : List (EntityId .station)) (start stop : Instant)
    (v : Entity .station) : Prop :=
  r.Spans ids start stop v ∧ ¬s.Drops r start stop v

theorem recovers_over_iff {r r' : Repository} {w : TimeRange} {ids : List (EntityId .station)}
    {start stop : Instant} {v : Entity .station} :
    (Stack.over r' w).Recovers r ids start stop v ↔ r.Spans ids start stop v :=
  and_iff_left fun drops => not_recallsWithin_over r' w start stop v drops.1

theorem keeps_over_iff {r r' : Repository} {w : TimeRange} {start stop : Instant}
    {v : Entity .station} {id : EntityId .channelGroup} :
    (Stack.over r' w).Keeps r start stop v id ↔ id ∈ v.groups.map (·.id) :=
  and_iff_left fun recalled => absurd recalled (not_recallsWithin_over r' w start stop v)

/-- A property of serving stacks that lookups keep, and under which what is cached is stored, save
for responses. -/
structure Upheld (r : Repository) (w : TimeRange) (P : Stack → Prop) : Prop where
  served : ∀ k, Served r w k P
  drawn : ∀ s, P s → s.versionCache.DrawnFrom fun k e => k = .response ∨ e ∈ r.versions k

/-- A stack with `P` that has of the stations that are left what another stack has cached of
them. -/
def Awaiting (s₀ : Stack) (P : Stack → Prop) (left : List (EntityId .station)) (s : Stack) : Prop :=
  P s ∧ ∀ id ∈ left, s.cachedVersions id = s₀.cachedVersions id

variable {r : Repository} {w : TimeRange} {P : Stack → Prop} {k : Kind}

theorem Upheld.grounded (hP : Upheld r w P) (hk : k ≠ .response) : Grounded r w k P where
  toServed := hP.served k
  drawn := fun s hs => (hP.drawn s hs).mono fun _ _ source same => source.resolve_left (same ▸ hk)

theorem Served.awaiting (hP : Served r w k P) (hk : k ≠ .station) (s₀ : Stack)
    (left : List (EntityId .station)) : Served r w k (s₀.Awaiting P left) where
  serving := fun s hs => hP.serving s hs.1
  effect := by
    rintro s s' ⟨hs, same⟩ step
    refine ⟨hP.effect s s' hs step, ?_⟩
    intro id hid
    exact (step.cachedVersions_eq (Ne.symm hk) nofun id).trans (same id hid)

theorem Grounded.awaiting (hP : Grounded r w k P) (hk : k ≠ .station) (s₀ : Stack)
    (left : List (EntityId .station)) : Grounded r w k (s₀.Awaiting P left) where
  toServed := hP.toServed.awaiting hk s₀ left
  drawn := fun s hs => hP.drawn s hs.1

end Stack

/-- What is answered of some versions of stations: each answer stands for one of them, with the
channel groups it keeps, and each of them has an answer. -/
structure Entity.Represent (xs : List (Entity .station)) (found : Entity .station → Prop)
    (keeps : Entity .station → EntityId .channelGroup → Prop) : Prop where
  sound : ∀ x ∈ xs, ∃ v, found v ∧ x.StandsFor v (keeps v)
  complete : ∀ v, found v → ∃ x ∈ xs, x.StandsFor v (keeps v)

namespace Entity.Represent

variable {xs : List (Entity .station)} {found : Entity .station → Prop}
  {keeps : Entity .station → EntityId .channelGroup → Prop}

theorem mem_versions (h : Represent xs found keeps) {version : EntityId .station × Option Instant} :
    version ∈ xs.map Entity.version ↔ ∃ v, found v ∧ v.version = version := by
  rw [List.mem_map]
  constructor
  · rintro ⟨x, hx, rfl⟩
    obtain ⟨v, hv, stands⟩ := h.sound x hx
    exact ⟨v, hv, stands.version.symm⟩
  · rintro ⟨v, hv, rfl⟩
    obtain ⟨x, hx, stands⟩ := h.complete v hv
    exact ⟨x, hx, stands.version⟩

theorem mem_starts (h : Represent xs found keeps) {start : Option Instant} :
    start ∈ xs.map (·.start?) ↔ ∃ v, found v ∧ v.start? = start := by
  have starts : xs.map (·.start?) = (xs.map Entity.version).map Prod.snd := by
    rw [List.map_map]
    rfl
  rw [starts, List.mem_map]
  constructor
  · rintro ⟨_, hx, rfl⟩
    obtain ⟨v, hv, rfl⟩ := h.mem_versions.1 hx
    exact ⟨v, hv, rfl⟩
  · rintro ⟨v, hv, rfl⟩
    exact ⟨v.version, h.mem_versions.2 ⟨v, hv, rfl⟩, rfl⟩

theorem mem_groups (h : Represent xs found keeps) {id : EntityId .channelGroup} :
    id ∈ xs.flatMap (fun x => x.groups.map (·.id)) ↔ ∃ v, found v ∧ keeps v id := by
  rw [List.mem_flatMap]
  constructor
  · rintro ⟨x, hx, hid⟩
    obtain ⟨v, hv, stands⟩ := h.sound x hx
    exact ⟨v, hv, (stands.groups id).1 hid⟩
  · rintro ⟨v, hv, kept⟩
    obtain ⟨x, hx, stands⟩ := h.complete v hv
    exact ⟨x, hx, (stands.groups id).2 kept⟩

theorem mem_rawChannels (h : Represent xs found keeps) {id : EntityId .channel} :
    id ∈ xs.flatMap (fun x => x.rawChannels.map (·.id)) ↔
      ∃ v, found v ∧ id ∈ v.rawChannels.map (·.id) := by
  rw [List.mem_flatMap]
  constructor
  · rintro ⟨x, hx, hid⟩
    obtain ⟨v, hv, stands⟩ := h.sound x hx
    exact ⟨v, hv, stands.rawChannels ▸ hid⟩
  · rintro ⟨v, hv, hid⟩
    obtain ⟨x, hx, stands⟩ := h.complete v hv
    exact ⟨x, hx, stands.rawChannels ▸ hid⟩

end Entity.Represent

/-- A lookup that leaves what is cached of the stations that are left finds what it does while they
are awaited. -/
theorem Lookup.Leads.awaiting {α : Type} {P : Stack → Prop} {x : Lookup α} {Q : α → Prop}
    {s₀ : Stack} {left : List (EntityId .station)} (hx : Finds P x Q)
    (spares : ∀ id ∈ left, ∀ cached, Yields (·.cachedVersions id = cached) x fun _ => True) :
    Finds (s₀.Awaiting P left) x Q := by
  rintro s ⟨hs, same⟩
  obtain ⟨a, found, hQ, hs'⟩ := hx s hs
  exact ⟨a, found, hQ, hs', fun id hid => (spares id hid _ s (same id hid)).1⟩

namespace Cached

variable {r : Repository} {w : TimeRange} {P : Stack → Prop} {start stop : Instant} {s₀ : Stack}

/-- What is recalled of a station that is awaited is what was cached of it. -/
theorem leads_recallWithin_awaiting (id : EntityId .station) (left : List (EntityId .station)) :
    Leads (s₀.Awaiting P (id :: left)) (recallWithin .station id) (· = s₀.cachedVersions id)
      (s₀.Awaiting P left) := by
  rintro s ⟨hs, same⟩
  rw [perform_recallWithin]
  exact ⟨_, rfl, same id List.mem_cons_self, hs, fun j hj => same j (List.mem_cons_of_mem id hj)⟩

/-- Fetching the gaps of a station leaves the other stations awaited. -/
theorem finds_fetchGaps_awaiting (hP : Stack.Served r w .station P) (s₀ : Stack)
    {id : EntityId .station} {left : List (EntityId .station)} (other : id ∉ left)
    (gs : List TimeRange) :
    Finds (s₀.Awaiting P left) (gather (fetchGap w .station id) gs) fun es =>
      ∀ e, e ∈ es ↔ e ∈ r.versions .station ∧ e.id = id ∧ ∃ g ∈ gs, e.BroughtBy g := by
  apply Leads.awaiting (finds_fetchGaps hP id gs)
  intro j hj cached
  have apart : id ≠ j := by
    rintro rfl
    exact other hj
  exact yields_fetchGaps_of_ne apart w gs

/-- What is answered of one station: of each version the first answer stands for a stored version
that is not dropped, with the channel groups it keeps, and each such version is answered. -/
structure Answers (r : Repository) (s₀ : Stack) (start stop : Instant) (id : EntityId .station)
    (es : List (Entity .station)) : Prop where
  sound : ∀ x, es.find? (·.version = x.version) = some x → ∃ v ∈ r.versions .station, v.id = id ∧
    v.holdsWithin start stop = true ∧ ¬s₀.Drops r start stop v ∧
    x.StandsFor v (s₀.Keeps r start stop v)
  complete : ∀ v ∈ r.versions .station, v.id = id → v.holdsWithin start stop = true →
    ¬s₀.Drops r start stop v → ∃ x ∈ es, x.version = v.version

/-- What is cached of a station as drawn from the repository is cached of one of its versions. -/
theorem exists_version_of_cached
    (drawn : s₀.versionCache.DrawnFrom fun k e => k = .station → e ∈ r.versions k)
    (ordered : start ≤ stop) {id : EntityId .station} {f : TimeRange × Entity .station}
    (hf : f ∈ s₀.cachedVersions id) :
    ∃ v ∈ r.versions .station, v.id = id ∧ f.2.version = v.version ∧
      (f.1.overlaps (.closed start stop) = true → v.holdsWithin start stop = true) := by
  obtain ⟨validity, data, stored, hval, within⟩ := Stack.mem_cachedVersions drawn hf
  refine ⟨_, stored rfl, rfl, ?_, fun overlap =>
    Entity.holdsWithin_of_overlaps within overlap ordered⟩
  rw [hval, Entity.version_demote]

section

variable (hr : r.Consistent)
  (drawn : s₀.versionCache.DrawnFrom fun k e => k = .station → e ∈ r.versions k)
  (ordered : start ≤ stop) {id : EntityId .station} {resolved fetched : List (Entity .station)}
  (hresolved : Outcomes
    (fun f o => ∀ v ∈ r.versions .station, f.2.version = v.version → r.Resolves v o)
    ((s₀.cachedVersions id).filter (·.1.overlaps (.closed start stop))) resolved)
  (hfetched : ∀ v, v ∈ fetched ↔
    v ∈ r.versions .station ∧ v.id = id ∧ s₀.FetchesWithin start stop v)

include hresolved

/-- A version that is recalled and links a group to a channel is among those resolved. -/
theorem exists_resolved {v : Entity .station} (hv : v ∈ r.versions .station) (hid : v.id = id)
    (recalled : s₀.RecallsWithin start stop v) (linked : ∃ other, r.Links v other) :
    ∃ x ∈ resolved, x.version = v.version := by
  subst hid
  obtain ⟨f, hf, hversion, overlap⟩ := recalled
  obtain ⟨other, linked⟩ := linked
  obtain ⟨o, hres, hmem⟩ := hresolved.complete f (List.mem_filter.2 ⟨hf, overlap⟩)
  have resolves := hres v hv hversion
  cases o with
  | none => exact absurd linked (resolves other)
  | some x => exact ⟨x, hmem x rfl, resolves.2.version⟩

include drawn ordered

theorem stands_of_mem_resolved {x : Entity .station} (hx : x ∈ resolved) :
    ∃ v ∈ r.versions .station, v.id = id ∧ v.holdsWithin start stop = true ∧
      ¬s₀.Drops r start stop v ∧ x.StandsFor v (s₀.Keeps r start stop v) := by
  obtain ⟨f, hf, hres⟩ := hresolved.sound x hx
  obtain ⟨hf, overlap⟩ := List.mem_filter.1 hf
  obtain ⟨v, hv, rfl, hversion, holds⟩ := exists_version_of_cached drawn ordered hf
  obtain ⟨linked, stands⟩ := hres v hv hversion
  have recalled : s₀.RecallsWithin start stop v := ⟨f, hf, hversion, overlap⟩
  refine ⟨v, hv, rfl, holds overlap, ?_, stands.version, stands.rawChannels, ?_⟩
  · exact fun drops => linked.elim drops.2.2
  · intro j
    refine (stands.groups j).trans ⟨fun h => ⟨h.1, fun _ _ => h⟩, ?_⟩
    exact fun keeps => keeps.2 recalled linked

include hfetched

/-- A fetched version keeps the groups it names: were they cut down, its resolved form would come
before it. -/
theorem sound_of_resolved {x : Entity .station}
    (hx : (resolved ++ fetched).find? (·.version = x.version) = some x) :
    ∃ v ∈ r.versions .station, v.id = id ∧ v.holdsWithin start stop = true ∧
      ¬s₀.Drops r start stop v ∧ x.StandsFor v (s₀.Keeps r start stop v) := by
  rw [List.find?_append, Option.or_eq_some_iff] at hx
  rcases hx with hx | ⟨hnone, hx⟩
  · exact stands_of_mem_resolved drawn ordered hresolved (List.mem_of_find?_eq_some hx)
  · obtain ⟨stored, hid, isFetched⟩ := (hfetched x).1 (List.mem_of_find?_eq_some hx)
    refine ⟨x, stored, hid, isFetched.holdsWithin ordered, fun drops => drops.2.1 isFetched,
      rfl, rfl, ?_⟩
    intro j
    refine ⟨fun named => ⟨named, fun recalled linked => ?_⟩, And.left⟩
    obtain ⟨y, hy, hversion⟩ := exists_resolved hresolved stored hid recalled linked
    exact absurd (decide_eq_true hversion) (List.find?_eq_none.1 hnone y hy)

include hr

/-- A version that holds within the range is fetched, or recalled and then resolved unless it is
dropped. -/
theorem complete_of_resolved {v : Entity .station} (hv : v ∈ r.versions .station) (hid : v.id = id)
    (holds : v.holdsWithin start stop = true) (kept : ¬s₀.Drops r start stop v) :
    ∃ x ∈ resolved ++ fetched, x.version = v.version := by
  by_cases isFetched : s₀.FetchesWithin start stop v
  · exact ⟨v, List.mem_append_right _ ((hfetched v).2 ⟨hv, hid, isFetched⟩), rfl⟩
  · have recalled :=
      (Stack.recallsWithin_or_fetchesWithin hr drawn hv ordered holds).resolve_right isFetched
    have linked : ∃ other, r.Links v other := by
      by_contra none
      exact kept ⟨recalled, isFetched, not_exists.1 none⟩
    obtain ⟨x, hx, hversion⟩ := exists_resolved hresolved hv hid recalled linked
    exact ⟨x, List.mem_append_left _ hx, hversion⟩

/-- The cached versions of a station within the range, resolved, and those that are fetched make up
what is answered of it. -/
theorem answers_of_outcomes : Answers r s₀ start stop id (resolved ++ fetched) where
  sound _ := sound_of_resolved drawn ordered hresolved hfetched
  complete _ := complete_of_resolved hr drawn ordered hresolved hfetched

end

section

variable (hr : r.Consistent) (children : r.ChildrenNamed) (hP : Stack.Upheld r w P) (hs₀ : P s₀)
  (ordered : start ≤ stop)

include hr children hP hs₀ ordered

theorem leads_versionsWithin_station {id : EntityId .station} {left : List (EntityId .station)}
    (other : id ∉ left) :
    Leads (s₀.Awaiting P (id :: left)) (versionsWithin resolveCachedStation w start stop id)
      (Answers r s₀ start stop id) (s₀.Awaiting P left) := by
  have drawn := (hP.grounded (k := .station) nofun).drawn s₀ hs₀
  apply (leads_recallWithin_awaiting id left).bind
  rintro _ rfl
  have resolving : Finds (s₀.Awaiting P left)
      (collect (fun e => resolveCachedStation e.2)
        ((s₀.cachedVersions id).filter (·.1.overlaps (.closed start stop))))
      (Outcomes (fun f o => ∀ v ∈ r.versions .station, f.2.version = v.version → r.Resolves v o)
        ((s₀.cachedVersions id).filter (·.1.overlaps (.closed start stop)))) := by
    refine .collect fun f hf => ?_
    obtain ⟨validity, data, stored, hval, -⟩ :=
      Stack.mem_cachedVersions drawn (List.mem_filter.1 hf).1
    rw [hval]
    have groups := (hP.grounded (k := .channelGroup) nofun).awaiting nofun s₀ left
    have channels := (hP.grounded (k := .channel) nofun).awaiting nofun s₀ left
    have responses := (hP.served .response).awaiting nofun s₀ left
    apply (finds_resolveCachedStation hr groups channels responses children (stored rfl)).mono
    intro o resolves v hv hversion
    rw [Entity.version_demote] at hversion
    exact hr.eq_of_version (stored rfl) hv hversion ▸ resolves
  have fetching : Finds (s₀.Awaiting P left)
      (gather (fetchGap w .station id) (gaps (.closed start stop) (s₀.cachedRanges id)))
      (fun es => ∀ v, v ∈ es ↔
        v ∈ r.versions .station ∧ v.id = id ∧ s₀.FetchesWithin start stop v) := by
    apply (finds_fetchGaps_awaiting (hP.served .station) s₀ other _).mono
    intro es fetched v
    rw [fetched]
    refine and_congr_right fun _ => and_congr_right ?_
    rintro rfl
    simp only [mem_gaps_iff, Stack.FetchesWithin]
  exact resolving.bind fun resolved hresolved => fetching.bind fun fetched hfetched =>
    .pure (answers_of_outcomes hr drawn ordered hresolved hfetched)

/-- A station lookup over a range answers, in order, with stored versions that hold within the range
and are not dropped, each of them once and with the channel groups it keeps. -/
theorem leads_stationsWithin {ids : List (EntityId .station)} (named : Named ids) :
    Leads (· = s₀) (stationsWithin ids start stop)
      (fun es => es.Pairwise (Entity.compareVersions · · = .lt) ∧
        Entity.Represent es (s₀.Recovers r ids start stop) (s₀.Keeps r start stop)) P := by
  have begun : ∀ s, s = s₀ → s₀.Awaiting P (EntityId.distinct ids) s := by
    rintro s rfl
    exact ⟨hs₀, fun _ _ => rfl⟩
  refine (Leads.requireIds named).bind fun _ _ => (Leads.requireOrder ordered).bind fun _ _ =>
    .get_bind ?_
  rintro s rfl
  rw [((hP.served .station).serving s hs₀).window]
  have distinct := Sorted.nodup_of_pairwise (EntityId.pairwise_distinct ids)
  have each : ∀ id left, id :: left <:+ EntityId.distinct ids →
      Leads (s.Awaiting P (id :: left)) (versionsWithin resolveCachedStation w start stop id)
        (Answers r s start stop id) (s.Awaiting P left) := by
    intro id left suffix
    have other := (List.nodup_cons.1 (distinct.sublist suffix.sublist)).1
    exact leads_versionsWithin_station hr children hP hs₀ ordered other
  refine ((Leads.gather_left each).weaken begun).bind ?_
  rintro _ ⟨css, rfl, sound, complete⟩
  have sound' : ∀ x ∈ Entity.distinctVersions css.flatten,
      ∃ v, s.Recovers r ids start stop v ∧ x.StandsFor v (s.Keeps r start stop v) := by
    intro x hx
    obtain ⟨-, as, ys, zs, bs, hcss, -, hys⟩ :=
      List.find?_flatten_eq_some_iff.1 (Entity.mem_distinctVersions_iff.1 hx)
    have among : ys ++ x :: zs ∈ css := hcss ▸ List.mem_append_right as List.mem_cons_self
    obtain ⟨id, hid, answers⟩ := sound (ys ++ x :: zs) among
    have first : (ys ++ x :: zs).find? (·.version = x.version) = some x :=
      List.find?_eq_some_iff_append.2 ⟨decide_eq_true rfl, ys, zs, rfl, hys⟩
    obtain ⟨v, hv, rfl, holds, kept, stands⟩ := answers.sound x first
    exact ⟨v, ⟨⟨hv, EntityId.mem_distinct.1 hid, holds⟩, kept⟩, stands⟩
  refine Leads.weaken (.pure ⟨Entity.pairwise_distinctVersions css.flatten, sound', ?_⟩)
    fun _ hs => hs.1
  rintro v ⟨⟨hv, hid, holds⟩, kept⟩
  obtain ⟨cs, hcs, answers⟩ := complete v.id (EntityId.mem_distinct.2 hid)
  obtain ⟨x, hx, hversion⟩ := answers.complete v hv rfl holds kept
  obtain ⟨y, hy, hxy⟩ := Entity.exists_mem_distinctVersions (List.mem_flatten.2 ⟨cs, hcs, hx⟩)
  obtain ⟨u, recovered, stands⟩ := sound' y hy
  have same : u = v :=
    hr.eq_of_version recovered.1.1 hv (stands.version.symm.trans (hxy.trans hversion))
  exact ⟨y, hy, same ▸ stands⟩

end

end Cached

/-- A serving stack in which what is cached is stored, save for responses, which channels may
carry. -/
structure Stack.Rooted (r : Repository) (w : TimeRange) (s : Stack) : Prop
    extends Serving r w s where
  drawn : s.versionCache.DrawnFrom fun k e => k = .response ∨ e ∈ r.versions k

theorem Repository.within_rooted {r r' : Repository} (h : r'.versions = r.versions) :
    r'.Within fun k e => k = .response ∨ e ∈ r.versions k where
  stored := fun _ _ he _ => .inr (h ▸ he)
  carried := fun _ _ _ _ _ => .inl rfl

theorem Stack.upheld_rooted (r : Repository) (w : TimeRange) : Upheld r w (Rooted r w) where
  served := fun k => {
    serving := fun s h => h.toServing
    effect := by
      intro s s' h step
      exact ⟨⟨step.versions_eq.trans h.versions, step.failure_eq.trans h.working,
        step.window_eq.trans h.window⟩, step.drawn (Repository.within_rooted h.versions) h.drawn⟩ }
  drawn := fun _ h => h.drawn

/-- Station lookups over a range are not transparent. Over a stack with nothing cached they find the
stored versions of the wanted stations that hold within the range; after a run without stores they
find these save for the versions that are dropped, that is, that are recalled from the cache, that
no call for a gap brings, and that name no channel group which at the start of the version holds one
of its raw channels. Both find the same just when nothing is dropped. -/
theorem Operation.stationsWithin_versions {r : Repository} (hr : r.Consistent)
    (children : r.ChildrenNamed) {ops : List Operation}
    (hops : ∀ op ∈ ops, op.isStore = false ∧ op.isCacheWrite = false) {w : TimeRange}
    (working : (run ops (.over r w)).repository.failure = none) {ids : List (EntityId .station)}
    (named : ∀ id ∈ ids, isBlank id.text = false) {start stop : Instant} (ordered : start ≤ stop)
    (window : TimeRange) :
    let s := run ops (.over r w)
    ∃ es fresh, ((Cached.findWithin .station ids start stop).perform s).1 = .ok es ∧
      ((Cached.findWithin .station ids start stop).perform (.over s.repository window)).1
        = .ok fresh ∧
      (∀ version, version ∈ fresh.map Entity.version ↔
        ∃ v, r.Spans ids start stop v ∧ v.version = version) ∧
      (∀ version, version ∈ es.map Entity.version ↔
        ∃ v, s.Recovers r ids start stop v ∧ v.version = version) ∧
      (es.map Entity.version = fresh.map Entity.version ↔
        ∀ v, r.Spans ids start stop v → ¬s.Drops r start stop v) := by
  intro s
  have within : (Stack.over r w).repository.Within fun k e => k = .response ∨ e ∈ r.versions k :=
    Repository.within_rooted rfl
  obtain ⟨versions, drawn⟩ := run_drawn hops within .empty
  have reached : s.Rooted r s.window := ⟨⟨versions, working, rfl⟩, drawn⟩
  have plain : (Stack.over s.repository window).Rooted r window :=
    ⟨⟨versions, working, rfl⟩, .empty⟩
  obtain ⟨es, found, ⟨sorted, represented⟩, -⟩ := Cached.leads_stationsWithin hr children
    (Stack.upheld_rooted r s.window) reached ordered (fun _ => named) s rfl
  obtain ⟨fresh, found₀, ⟨sorted₀, represented₀⟩, -⟩ := Cached.leads_stationsWithin hr children
    (Stack.upheld_rooted r window) plain ordered (fun _ => named) _ rfl
  have whole : ∀ version, version ∈ fresh.map Entity.version ↔
      ∃ v, r.Spans ids start stop v ∧ v.version = version := by
    intro version
    simp only [represented₀.mem_versions, Stack.recovers_over_iff]
  refine ⟨es, fresh, found, found₀, whole, fun _ => represented.mem_versions, ?_, ?_⟩
  · intro same v spans
    have among : v.version ∈ fresh.map Entity.version := (whole _).2 ⟨v, spans, rfl⟩
    rw [← same] at among
    obtain ⟨u, ⟨⟨hu, -⟩, kept⟩, hversion⟩ := represented.mem_versions.1 among
    exact hr.eq_of_version hu spans.1 hversion ▸ kept
  · intro kept
    refine Entity.map_version_eq sorted sorted₀ fun version => ?_
    rw [represented.mem_versions, whole]
    constructor
    · rintro ⟨v, recovered, same⟩
      exact ⟨v, recovered.1, same⟩
    · rintro ⟨v, spans, same⟩
      exact ⟨v, ⟨spans, kept v spans⟩, same⟩

namespace Sample

/-- A channel without a response, which holds for ever. -/
def trunk : Entity .channel := channel ⟨"STA.BHZ", Eq.refl true⟩ ⟨.origin, none⟩ none

/-- A channel group of that channel from an instant on. -/
def site (name : String) (start : Instant) : Entity .channelGroup :=
  channelGroup ⟨name, Eq.refl true⟩ ⟨"STA", Eq.refl true⟩ ⟨start, none⟩ [trunk]

/-- A working repository that holds these channel groups, and the station that names them. -/
def sited (groups : List (Entity .channelGroup)) : Repository where
  versions
    | .station => [station ⟨"STA", Eq.refl true⟩ ⟨.origin, none⟩ groups [trunk]]
    | .channelGroup => groups
    | .channel => [trunk]
    | .stationGroup | .response => []
  calls := []
  failure := none

theorem orderly_sited {groups : List (Entity .channelGroup)}
    (holds : ∀ g ∈ groups, g.isPopulated = true ∧ g.start?.any (g.holdsAt ·) = true)
    (distinct : ∀ a ∈ groups, ∀ b ∈ groups, a.id = b.id → a = b) : (sited groups).Orderly := by
  have each : ∀ k, ∀ e ∈ (sited groups).versions k,
      e.isPopulated = true ∧ e.start?.any (e.holdsAt ·) = true := by
    intro k e he
    cases k with
    | channelGroup => exact holds e he
    | station | channel => rw [List.mem_singleton.1 he]; exact ⟨rfl, rfl⟩
    | stationGroup | response => exact absurd he List.not_mem_nil
  refine ⟨fun k e he => (each k e he).1, ?_, ?_, ?_⟩
  · intro k e he
    obtain ⟨t, -, ht⟩ := (Option.any_eq_true _ _).1 (each k e he).2
    exact ⟨t, ht⟩
  · intro k a ha b hb same _ _ _
    cases k with
    | channelGroup => exact distinct a ha b hb same
    | station | channel => rw [List.mem_singleton.1 ha, List.mem_singleton.1 hb]
    | stationGroup | response => exact absurd ha List.not_mem_nil
  · intro c hc e he
    rw [List.mem_singleton.1 hc] at he
    cases he

end Sample

/-- After the sample station was looked up at the origin it is still found whole. -/
theorem Operation.stationsWithin_versions_network :
    let ops := [.findAt (.caching .cached) .station [⟨"STA", rfl⟩] .origin]
    let s := run ops (.over Sample.network.repository .all)
    s.repository.failure = none ∧ Instant.origin ≤ Sample.change ∧ ∃ es fresh,
      ((Cached.findWithin .station [⟨"STA", rfl⟩] .origin Sample.change).perform s).1 = .ok es ∧
      ((Cached.findWithin .station [⟨"STA", rfl⟩] .origin Sample.change).perform
        (.over s.repository .all)).1 = .ok fresh ∧
      (es.map Entity.version = fresh.map Entity.version ↔
        ∀ v, Sample.network.repository.Spans [⟨"STA", rfl⟩] .origin Sample.change v →
          ¬s.Drops Sample.network.repository .origin Sample.change v) := by
  intro ops s
  have children : Sample.network.repository.ChildrenNamed := by constructor <;> decide
  have hops : ∀ op ∈ ops, op.isStore = false ∧ op.isCacheWrite = false := by decide
  have working : s.repository.failure = none := rfl
  have named : ∀ id ∈ [(⟨"STA", rfl⟩ : EntityId .station)], isBlank id.text = false := by decide
  have ordered : Instant.origin ≤ Sample.change := by decide
  obtain ⟨es, fresh, found, found₀, -, -, same⟩ := stationsWithin_versions
    Sample.orderly_network.consistent children hops working named ordered .all
  exact ⟨working, ordered, es, fresh, found, found₀, same⟩

/-- A station whose only channel group starts after it does: looked up once, it is dropped when it
is looked up again. -/
theorem Operation.stationsWithin_dropped :
    let r := Sample.sited [Sample.site "STA02" Sample.change]
    let lookup := Cached.findWithin .station [⟨"STA", rfl⟩] .origin Sample.change
    let ops := [.findWithin (.caching .cached) .station [⟨"STA", rfl⟩] .origin Sample.change]
    let s := run ops (.over r .all)
    r.Consistent ∧ r.ChildrenNamed ∧ (∀ op ∈ ops, op.isStore = false ∧ op.isCacheWrite = false) ∧
      s.repository.failure = none ∧
      (lookup.perform (.over s.repository .all)).1.toOption.map (·.map Entity.version) =
        some [(⟨"STA", rfl⟩, some .origin)] ∧
      (lookup.perform s).1.toOption.map (·.map Entity.version) = some [] := by
  have orderly : (Sample.sited [Sample.site "STA02" Sample.change]).Orderly := by
    apply Sample.orderly_sited
    · decide
    · intro a ha b hb _
      rw [List.mem_singleton.1 ha, List.mem_singleton.1 hb]
  exact ⟨orderly.consistent, by constructor <;> decide, by decide, rfl, by decide +kernel,
    by decide +kernel⟩

end StationCatalog
