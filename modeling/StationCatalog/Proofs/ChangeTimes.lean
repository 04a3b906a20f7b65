import StationCatalog.Proofs.StationRanges

/-!
Change times of a station. They are told by the stored versions, given which versions of the station
are found and with which of the channel groups they name; so what a cached station loses when it is
resolved is lost to them.
-/

namespace StationCatalog

open Lookup

/-- The station changes at an instant, as told by these of its versions with these of their channel
groups: one of them starts then, or a version that holds within the range of one of the channel
groups, of a raw channel, or of the response that a version of a raw channel carries. -/
inductive Repository.ChangesAt (r : Repository) (start stop : Instant)
    (found : Entity .station → Prop) (keeps : Entity .station → EntityId .channelGroup → Prop)
    (t : Instant) : Prop
  | station {v : Entity .station} (isFound : found v) (starts : v.start? = some t)
  | channelGroup {v : Entity .station} {g : Entity .channelGroup} (isFound : found v)
      (kept : keeps v g.id) (stored : g ∈ r.versions .channelGroup)
      (holds : g.holdsWithin start stop = true) (starts : g.start? = some t)
  | rawChannel {v : Entity .station} {c : Entity .channel} (isFound : found v)
      (named : c.id ∈ v.rawChannels.map (·.id)) (stored : c ∈ r.versions .channel)
      (holds : c.holdsWithin start stop = true) (starts : c.start? = some t)
  | response {v : Entity .station} {c : Entity .channel} {e : Entity .response} (isFound : found v)
      (named : c.id ∈ v.rawChannels.map (·.id)) (channelStored : c ∈ r.versions .channel)
      (channelHolds : c.holdsWithin start stop = true) (carried : e.id ∈ c.response?.map (·.id))
      (stored : e ∈ r.versions .response) (holds : e.holdsWithin start stop = true)
      (starts : e.start? = some t)

theorem Repository.ChangesAt.mono {r : Repository} {start stop t : Instant}
    {found found' : Entity .station → Prop}
    {keeps keeps' : Entity .station → EntityId .channelGroup → Prop}
    (h : r.ChangesAt start stop found keeps t) (hfound : ∀ v, found v → found' v)
    (hkeeps : ∀ v, found v → ∀ id, keeps v id → keeps' v id) :
    r.ChangesAt start stop found' keeps' t := by
  cases h with
  | station isFound starts => exact .station (hfound _ isFound) starts
  | channelGroup isFound kept stored holds starts =>
      exact .channelGroup (hfound _ isFound) (hkeeps _ isFound _ kept) stored holds starts
  | rawChannel isFound named stored holds starts =>
      exact .rawChannel (hfound _ isFound) named stored holds starts
  | response isFound named channelStored channelHolds carried stored holds starts =>
      exact .response (hfound _ isFound) named channelStored channelHolds carried stored holds
        starts

theorem Stack.upheld_faithful {r : Repository} (hr : r.Orderly) (w : TimeRange) :
    Upheld r w (Faithful r w) where
  served := fun k => (kept_faithful hr w k).grounded.toServed
  drawn := fun _ hs => hs.drawn.mono fun _ _ stored => .inr stored

namespace Cached

theorem mem_changeTimes {stop t : Instant} {starts : List (Option Instant)} :
    t ∈ changeTimes stop starts ↔ t ≤ stop ∧ some t ∈ starts := by
  have early : t ∈ (starts.filterMap fun t => t).filter (· ≤ stop) ↔
      t ≤ stop ∧ some t ∈ starts := by
    rw [List.mem_filter, decide_eq_true_eq, and_comm, List.mem_filterMap]
    exact and_congr_right fun _ => ⟨fun ⟨_, h, same⟩ => same ▸ h, fun h => ⟨some t, h, rfl⟩⟩
  constructor
  · exact fun h => early.1 (Sorted.mem_of_mem_ofList h)
  · intro h
    have kept : ∃ u ∈ changeTimes stop starts, compare u t = .eq :=
      Sorted.exists_mem_ofList (early.2 h)
    obtain ⟨u, hu, same⟩ := kept
    exact Std.LawfulEqOrd.eq_of_compare same ▸ hu

theorem pairwise_changeTimes (stop : Instant) (starts : List (Option Instant)) :
    (changeTimes stop starts).Pairwise (· > ·) := by
  have sorted : (changeTimes stop starts).Pairwise fun a b => compare b a = .lt :=
    Sorted.pairwise_ofList _
  exact sorted.imp Int.compare_eq_lt.1

variable {r : Repository} {w : TimeRange} {P : Stack → Prop} {k : Kind} {start stop : Instant}

/-- What a range lookup of any kind but stations finds, seen through what demotion keeps. -/
theorem finds_findWithin_map (hr : r.Consistent) (hP : Stack.Grounded r w k P) (hk : k ≠ .station)
    {ids : List (EntityId k)} (named : Named ids) (ordered : start ≤ stop) :
    Finds P (findWithin k ids start stop) fun es => ∀ {α : Type} (view : Entity k → α),
      (∀ e, view e.demote = view e) →
        ∀ a, a ∈ es.map view ↔ ∃ v, r.Spans ids start stop v ∧ view v = a := by
  apply (finds_findWithin hr hP hk named ordered).mono
  rintro es ⟨-, listed⟩ α view hview a
  constructor
  · intro ha
    obtain ⟨e, he, rfl⟩ := List.mem_map.1 ha
    obtain ⟨v, hv, hid, holds, same⟩ := (listed e.demote).1 (List.mem_map_of_mem he)
    exact ⟨v, ⟨hv, hid, holds⟩, by rw [← hview v, same, hview]⟩
  · rintro ⟨v, ⟨hv, hid, holds⟩, rfl⟩
    obtain ⟨e, he, same⟩ := List.mem_map.1 ((listed v.demote).2 ⟨v, hv, hid, holds, rfl⟩)
    exact List.mem_map.2 ⟨e, he, by rw [← hview e, same, hview]⟩

theorem changesAt_of_recovers {s : Stack} {station : EntityId .station} {t : Instant}
    (h : r.ChangesAt start stop (s.Recovers r [station] start stop) (s.Keeps r start stop) t) :
    r.ChangesAt start stop (r.Spans [station] start stop)
      (fun v id => id ∈ v.groups.map (·.id)) t :=
  h.mono (fun _ => And.left) fun _ _ _ => And.left

/-- The starts that a lookup of change times collects are those at which the station changes. -/
theorem mem_starts_iff_changesAt {found : Entity .station → Prop}
    {keeps : Entity .station → EntityId .channelGroup → Prop} {stations : List (Entity .station)}
    (represented : Entity.Represent stations found keeps)
    {groups channels responses : List (Option Instant)} {responseIds : List (EntityId .response)}
    {t : Instant}
    (hgroups : some t ∈ groups ↔ ∃ g, r.Spans (stations.flatMap fun x => x.groups.map (·.id))
      start stop g ∧ g.start? = some t)
    (hchannels : some t ∈ channels ↔ ∃ c, r.Spans (stations.flatMap fun x =>
      x.rawChannels.map (·.id)) start stop c ∧ c.start? = some t)
    (hids : ∀ id, id ∈ responseIds ↔ ∃ c, r.Spans (stations.flatMap fun x =>
      x.rawChannels.map (·.id)) start stop c ∧ c.response?.map (·.id) = some id)
    (hresponses : some t ∈ responses ↔ ∃ e, r.Spans responseIds start stop e ∧
      e.start? = some t) :
    some t ∈ stations.map (·.start?) ++ groups ++ channels ++ responses ↔
      r.ChangesAt start stop found keeps t := by
  simp only [List.mem_append, represented.mem_starts, hgroups, hchannels, hresponses,
    Repository.Spans, hids, represented.mem_groups, represented.mem_rawChannels]
  constructor
  · rintro (((⟨v, isFound, starts⟩ | ⟨g, ⟨stored, ⟨v, isFound, kept⟩, holds⟩, starts⟩) |
      ⟨c, ⟨stored, ⟨v, isFound, named⟩, holds⟩, starts⟩) |
      ⟨e, ⟨stored, ⟨c, ⟨channelStored, ⟨v, isFound, named⟩, channelHolds⟩, carried⟩, holds⟩,
        starts⟩)
    · exact .station isFound starts
    · exact .channelGroup isFound kept stored holds starts
    · exact .rawChannel isFound named stored holds starts
    · exact .response isFound named channelStored channelHolds carried stored holds starts
  · intro changes
    cases changes with
    | station isFound starts => exact .inl (.inl (.inl ⟨_, isFound, starts⟩))
    | channelGroup isFound kept stored holds starts =>
        exact .inl (.inl (.inr ⟨_, ⟨stored, ⟨_, isFound, kept⟩, holds⟩, starts⟩))
    | rawChannel isFound named stored holds starts =>
        exact .inl (.inr ⟨_, ⟨stored, ⟨_, isFound, named⟩, holds⟩, starts⟩)
    | response isFound named channelStored channelHolds carried stored holds starts =>
        exact .inr ⟨_, ⟨stored, ⟨_, ⟨channelStored, ⟨_, isFound, named⟩, channelHolds⟩, carried⟩,
          holds⟩, starts⟩

/-- The change times of a station are those that are told by what the stack finds of it. -/
theorem leads_findChangeTimes (hr : r.Orderly) (children : r.ChildrenNamed) {s₀ : Stack}
    (hs₀ : s₀.Faithful r w) (ordered : start ≤ stop) {station : EntityId .station}
    (named : isBlank station.text = false) :
    Leads (· = s₀) (findChangeTimes station start stop)
      (fun ts => ts.Pairwise (· > ·) ∧ ∀ t, t ∈ ts ↔ t ≤ stop ∧
        r.ChangesAt start stop (s₀.Recovers r [station] start stop) (s₀.Keeps r start stop) t)
      (Stack.Faithful r w) := by
  have grounded := fun k => (Stack.kept_faithful hr w k).grounded
  have wanted : ∀ id ∈ [station], isBlank id.text = false :=
    fun id hid => List.mem_singleton.1 hid ▸ named
  have checked : ∀ name ∈ [station.text], isBlank name = false :=
    fun name hname => List.mem_singleton.1 hname ▸ named
  refine (Leads.requireNames checked).bind fun _ _ => (Leads.requireOrder ordered).bind
    fun _ _ => ?_
  apply (leads_stationsWithin hr.consistent children (Stack.upheld_faithful hr w) hs₀ ordered
    fun _ => wanted).bind
  rintro stations ⟨-, represented⟩
  have groupsNamed : Named (stations.flatMap fun x => x.groups.map (·.id)) := by
    intro _ id hid
    obtain ⟨v, ⟨⟨hv, -⟩, -⟩, kept, -⟩ := represented.mem_groups.1 hid
    exact named_map_id (children.groups v hv) rfl id kept
  have channelsNamed : Named (stations.flatMap fun x => x.rawChannels.map (·.id)) := by
    intro _ id hid
    obtain ⟨v, ⟨⟨hv, -⟩, -⟩, held⟩ := represented.mem_rawChannels.1 hid
    exact named_map_id (children.rawChannels v hv) rfl id held
  apply (finds_findWithin_map hr.consistent (grounded .channelGroup) nofun groupsNamed ordered).bind
  intro groups hgroups
  apply (finds_findWithin_map hr.consistent (grounded .channel) nofun channelsNamed ordered).bind
  intro channels hchannels
  apply (finds_findWithin_map hr.consistent (grounded .response) nofun (named_responses _)
    ordered).bind
  intro responses hresponses
  refine .pure ⟨pairwise_changeTimes stop _, fun t => mem_changeTimes.trans (and_congr_right ?_)⟩
  intro _
  apply mem_starts_iff_changesAt represented
  · exact hgroups _ Entity.start?_demote _
  · exact hchannels _ Entity.start?_demote _
  · intro id
    have seen := hchannels (fun c => c.response?.map (·.id)) Entity.map_id_response?_demote
    rw [List.mem_filterMap, ← seen, List.mem_map]
  · exact hresponses _ Entity.start?_demote _

end Cached

/-- Change times are not transparent. Over a stack with nothing cached they are, latest first, the
instants up to `stop` at which the station changes; after a run without stores they are, of these,
the ones told by the versions of the station that are not dropped, with the channel groups they
keep. Nothing is lost when no version of the station is dropped and each keeps the channel groups it
names. -/
theorem Operation.findChangeTimes_recovers {r : Repository} (hr : r.Orderly)
    (children : r.ChildrenNamed) {ops : List Operation}
    (hops : ∀ op ∈ ops, op.isStore = false ∧ op.isCacheWrite = false) {w : TimeRange}
    (working : (run ops (.over r w)).repository.failure = none) {station : EntityId .station}
    (named : isBlank station.text = false) {start stop : Instant} (ordered : start ≤ stop)
    (window : TimeRange) :
    let s := run ops (.over r w)
    ∃ ts fresh, ((Cached.findChangeTimes station start stop).perform s).1 = .ok ts ∧
      ((Cached.findChangeTimes station start stop).perform (.over s.repository window)).1 =
        .ok fresh ∧ ts.Pairwise (· > ·) ∧ fresh.Pairwise (· > ·) ∧
      (∀ t, t ∈ fresh ↔ t ≤ stop ∧ r.ChangesAt start stop (r.Spans [station] start stop)
        (fun v id => id ∈ v.groups.map (·.id)) t) ∧
      (∀ t, t ∈ ts ↔ t ≤ stop ∧
        r.ChangesAt start stop (s.Recovers r [station] start stop) (s.Keeps r start stop) t) ∧
      ts ⊆ fresh ∧
      ((∀ v, r.Spans [station] start stop v → ¬s.Drops r start stop v ∧
        ∀ id ∈ v.groups.map (·.id), s.Keeps r start stop v id) → ts = fresh) := by
  intro s
  have reached := run_faithful hr hops working
  have plain : (Stack.over s.repository window).Faithful r window :=
    ⟨reached.versions, reached.working, rfl, .empty⟩
  obtain ⟨ts, found, ⟨sorted, listed⟩, -⟩ :=
    Cached.leads_findChangeTimes hr children reached ordered named s rfl
  obtain ⟨fresh, found₀, ⟨sorted₀, listed₀⟩, -⟩ :=
    Cached.leads_findChangeTimes hr children plain ordered named _ rfl
  have whole : ∀ t, t ∈ fresh ↔ t ≤ stop ∧ r.ChangesAt start stop
      (r.Spans [station] start stop) (fun v id => id ∈ v.groups.map (·.id)) t := by
    intro t
    rw [listed₀]
    refine and_congr_right fun _ => ⟨Cached.changesAt_of_recovers, fun h => ?_⟩
    exact h.mono (fun _ => Stack.recovers_over_iff.2) fun _ _ _ => Stack.keeps_over_iff.2
  refine ⟨ts, fresh, found, found₀, sorted, sorted₀, whole, listed, ?_, ?_⟩
  · intro t ht
    rw [listed] at ht
    rw [whole]
    exact ht.imp_right Cached.changesAt_of_recovers
  · intro kept
    refine Instant.eq_of_mem_iff sorted sorted₀ fun t => ?_
    rw [listed, whole]
    refine and_congr_right fun _ => ⟨Cached.changesAt_of_recovers, fun h => ?_⟩
    exact h.mono (fun v hv => ⟨hv, (kept v hv).1⟩) fun v hv => (kept v hv).2

/-- The change times of the sample station after it was looked up. -/
theorem Operation.findChangeTimes_recovers_network :
    let ops := [.findAt (.caching .cached) .station [⟨"STA", rfl⟩] .origin]
    let s := run ops (.over Sample.network.repository .all)
    s.repository.failure = none ∧ Instant.origin ≤ Sample.change ∧ ∃ ts,
      ((Cached.findChangeTimes ⟨"STA", rfl⟩ .origin Sample.change).perform s).1 = .ok ts ∧
      ts.Pairwise (· > ·) ∧ ∀ t, t ∈ ts ↔ t ≤ Sample.change ∧
        Sample.network.repository.ChangesAt .origin Sample.change
          (s.Recovers Sample.network.repository [⟨"STA", rfl⟩] .origin Sample.change)
          (s.Keeps Sample.network.repository .origin Sample.change) t := by
  intro ops s
  have children : Sample.network.repository.ChildrenNamed := by constructor <;> decide
  have hops : ∀ op ∈ ops, op.isStore = false ∧ op.isCacheWrite = false := by decide
  have working : s.repository.failure = none := rfl
  have ordered : Instant.origin ≤ Sample.change := by decide
  have named : isBlank (⟨"STA", rfl⟩ : EntityId .station).text = false := by decide
  obtain ⟨ts, -, found, -, sorted, -, -, listed, -⟩ := findChangeTimes_recovers
    Sample.orderly_network children hops working named ordered .all
  exact ⟨working, ordered, ts, found, sorted, listed⟩

/-- A station with two channel groups, one of which starts after it does: asked for the same change
times twice in a row, it loses the start of that one. -/
theorem Operation.findChangeTimes_lost :
    let r := Sample.sited [Sample.site "STA01" .origin, Sample.site "STA02" Sample.change]
    let lookup := Cached.findChangeTimes ⟨"STA", rfl⟩ .origin Sample.change
    let ops := [.changeTimes .cached ⟨"STA", rfl⟩ .origin Sample.change]
    let s := run ops (.over r .all)
    r.Orderly ∧ r.ChildrenNamed ∧ (∀ op ∈ ops, op.isStore = false ∧ op.isCacheWrite = false) ∧
      s.repository.failure = none ∧
      (lookup.perform (.over r .all)).1.toOption = some [Sample.change, .origin] ∧
      (lookup.perform s).1.toOption = some [.origin] := by
  have orderly : (Sample.sited
      [Sample.site "STA01" .origin, Sample.site "STA02" Sample.change]).Orderly := by
    apply Sample.orderly_sited
    · decide
    · intro a ha b hb same
      have apart : (Sample.site "STA01" .origin).id ≠ (Sample.site "STA02" Sample.change).id := by
        decide
      rcases List.mem_pair.1 ha with rfl | rfl <;> rcases List.mem_pair.1 hb with rfl | rfl
      · rfl
      · exact absurd same apart
      · exact absurd same apart.symm
      · rfl
  exact ⟨orderly, by constructor <;> decide, by decide, rfl, by decide +kernel,
    by decide +kernel⟩

end StationCatalog
