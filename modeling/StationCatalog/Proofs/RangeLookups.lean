import StationCatalog.Proofs.CachedVersions

/-!
Lookups over a time range through the version cache. A version that holds within the range holds at
some instant of it; either a cached range contains that instant, and then what is cached there is
this very version, or a gap does, and then the call for the gap brings it.
-/

namespace StationCatalog

open Lookup

variable {k : Kind}

namespace Cached

/-- Only stations are resolved. -/
theorem findWithin_eq_rangeLookup (hk : k ≠ .station) (ids : List (EntityId k))
    (start stop : Instant) :
    findWithin k ids start stop = rangeLookup (fun e => return some e) ids start stop := by
  cases k with
  | station => exact absurd rfl hk
  | stationGroup | channelGroup | channel | response => rfl

section

variable {r : Repository} {w : TimeRange} {P : Stack → Prop} {start stop : Instant}

/-- The call for a gap brings the stored versions that hold within its ends. -/
theorem finds_fetchGap (hP : Stack.Served r w k P) (id : EntityId k) (gap : TimeRange) :
    Finds P (fetchGap w k id gap) fun es =>
      ∀ e, e ∈ es ↔ e ∈ r.versions k ∧ e.id = id ∧ e.BroughtBy gap := by
  unfold fetchGap
  split
  next first last hfirst hlast =>
    apply (finds_fetchWithin hP [id] first last).mono
    rintro _ rfl e
    rw [Source.mem_versionsWithin, List.mem_singleton]
    refine and_congr_right fun _ => and_congr_right fun _ => ⟨?_, ?_⟩
    · exact fun holds => ⟨first, last, hfirst, hlast, holds⟩
    · rintro ⟨first', last', hfirst', hlast', holds⟩
      obtain rfl := Option.some.inj (hfirst.symm.trans hfirst')
      obtain rfl := Option.some.inj (hlast.symm.trans hlast')
      exact holds
  next none =>
    refine .pure fun e => iff_of_false List.not_mem_nil ?_
    rintro ⟨-, -, first, last, hfirst, hlast, -⟩
    exact none first last hfirst hlast

theorem finds_fetchGaps (hP : Stack.Served r w k P) (id : EntityId k) (gs : List TimeRange) :
    Finds P (gather (fetchGap w k id) gs) fun es =>
      ∀ e, e ∈ es ↔ e ∈ r.versions k ∧ e.id = id ∧ ∃ g ∈ gs, e.BroughtBy g := by
  apply (Leads.gather fun gap _ => finds_fetchGap hP id gap).mono
  rintro es ⟨sound, complete⟩ e
  constructor
  · intro he
    obtain ⟨gap, hgap, found, hfound, hmem⟩ := sound e he
    obtain ⟨stored, hid, brought⟩ := (hfound e).1 hmem
    exact ⟨stored, hid, gap, hgap, brought⟩
  · rintro ⟨stored, hid, gap, hgap, brought⟩
    obtain ⟨found, hfound, hsub⟩ := complete gap hgap
    exact hsub ((hfound e).2 ⟨stored, hid, brought⟩)

theorem finds_recallWithin (id : EntityId k) :
    Finds P (recallWithin k id) fun cached => ∃ s, P s ∧ cached = s.cachedVersions id := by
  intro s hs
  rw [perform_recallWithin]
  exact ⟨_, rfl, ⟨s, hs, rfl⟩, hs⟩

/-- The versions of one entity over a range are its stored versions that hold within the range, up
to the form their children have. -/
theorem finds_versionsWithin (hr : r.Consistent) (hP : Stack.Grounded r w k P)
    (ordered : start ≤ stop) (id : EntityId k) :
    Finds P (versionsWithin (fun e => return some e) w start stop id) fun es =>
      (∀ e ∈ es, ∃ v ∈ r.versions k, v.id = id ∧ v.holdsWithin start stop = true ∧
        v.demote = e.demote) ∧
      ∀ v ∈ r.versions k, v.id = id → v.holdsWithin start stop = true →
        ∃ e ∈ es, v.demote = e.demote := by
  apply (finds_recallWithin id).bind
  rintro _ ⟨s, hs, rfl⟩
  have drawn := hP.drawn s hs
  have resolving : Finds P (collect (fun e => return some e.2)
      ((s.cachedVersions id).filter (·.1.overlaps (.closed start stop))))
      (Outcomes (fun f o => o = some f.2)
        ((s.cachedVersions id).filter (·.1.overlaps (.closed start stop)))) :=
    .collect fun f _ => .pure rfl
  refine resolving.bind fun resolved hresolved => (finds_fetchGaps hP.toServed id _).bind
    fun fetched hfetched => .pure ⟨?_, ?_⟩
  · intro e he
    rcases List.mem_append.1 he with he | he
    · obtain ⟨f, hf, h⟩ := hresolved.sound e he
      obtain ⟨hf, overlap⟩ := List.mem_filter.1 hf
      obtain ⟨validity, data, stored, hval, within⟩ := Stack.mem_cachedVersions drawn hf
      refine ⟨_, stored rfl, rfl, Entity.holdsWithin_of_overlaps within overlap ordered, ?_⟩
      rw [Option.some.inj h, hval, Entity.demote_demote]
    · obtain ⟨stored, hid, gap, hgap, brought⟩ := (hfetched e).1 he
      exact ⟨e, stored, hid, brought.holdsWithin ordered (encloses_of_mem_gaps hgap), rfl⟩
  · rintro v hv rfl holds
    rcases Stack.recallsWithin_or_fetchesWithin hr drawn hv ordered holds with recalled | fetched
    · obtain ⟨f, hf, hversion, overlap⟩ := recalled
      obtain ⟨validity, data, stored, hval, -⟩ := Stack.mem_cachedVersions drawn hf
      obtain ⟨_, rfl, hmem⟩ := hresolved.complete f (List.mem_filter.2 ⟨hf, overlap⟩)
      have same : .populated v.id validity data = v := by
        apply hr.eq_of_version (stored rfl) hv
        rw [← hversion, hval, Entity.version_demote]
      refine ⟨f.2, List.mem_append_left _ (hmem f.2 rfl), ?_⟩
      rw [hval, same, Entity.demote_demote]
    · obtain ⟨g, gap, brought⟩ := fetched
      have isFetched := (hfetched v).2 ⟨hv, rfl, g, mem_gaps_iff.2 gap, brought⟩
      exact ⟨v, List.mem_append_right _ isFetched, rfl⟩

/-- A range lookup that resolves nothing finds the stored versions within the range, in order. -/
theorem finds_rangeLookup (hr : r.Consistent) (hP : Stack.Grounded r w k P)
    {ids : List (EntityId k)} (named : Named ids) (ordered : start ≤ stop) :
    Finds P (rangeLookup (fun e => return some e) ids start stop) fun es =>
      (es.map Entity.demote).Pairwise (Entity.compareVersions · · = .lt) ∧
        ∀ e, e ∈ es.map Entity.demote ↔ ∃ v ∈ r.versions k, v.id ∈ ids ∧
          v.holdsWithin start stop = true ∧ v.demote = e := by
  refine (Leads.requireIds named).bind fun _ _ => (Leads.requireOrder ordered).bind fun _ _ =>
    .get_bind ?_
  intro s hs
  rw [(hP.serving s hs).window]
  apply (Leads.gather fun id _ => finds_versionsWithin hr hP ordered id).bind
  rintro found ⟨sound, complete⟩
  have stored : ∀ e ∈ found, ∃ v ∈ r.versions k, v.id ∈ ids ∧
      v.holdsWithin start stop = true ∧ v.demote = e.demote := by
    intro e he
    obtain ⟨id, hid, es, ⟨hes, -⟩, hmem⟩ := sound e he
    obtain ⟨v, hv, rfl, holds, h⟩ := hes e hmem
    exact ⟨v, hv, EntityId.mem_distinct.1 hid, holds, h⟩
  refine .pure ⟨Entity.pairwise_map_of_version Entity.version_demote
    (Entity.pairwise_distinctVersions found), ?_⟩
  intro e
  rw [List.mem_map]
  constructor
  · rintro ⟨x, hx, rfl⟩
    exact stored x (Sorted.mem_of_mem_ofList hx)
  · rintro ⟨v, hv, hid, holds, rfl⟩
    obtain ⟨es, ⟨-, hes⟩, hsub⟩ := complete v.id (EntityId.mem_distinct.2 hid)
    obtain ⟨x, hx, h⟩ := hes v hv rfl holds
    obtain ⟨y, hy, hversion⟩ := Entity.exists_mem_distinctVersions (hsub hx)
    obtain ⟨u, hu, -, -, hu'⟩ := stored y (Sorted.mem_of_mem_ofList hy)
    have same : u = v := by
      apply hr.eq_of_version hu hv
      rw [← Entity.version_demote u, hu', Entity.version_demote, hversion,
        ← Entity.version_demote x, ← h, Entity.version_demote]
    exact ⟨y, hy, by rw [← hu', same]⟩

/-- So does a range lookup of any kind but stations. -/
theorem finds_findWithin (hr : r.Consistent) (hP : Stack.Grounded r w k P) (hk : k ≠ .station)
    {ids : List (EntityId k)} (named : Named ids) (ordered : start ≤ stop) :
    Finds P (findWithin k ids start stop) fun es =>
      (es.map Entity.demote).Pairwise (Entity.compareVersions · · = .lt) ∧
        ∀ e, e ∈ es.map Entity.demote ↔ ∃ v ∈ r.versions k, v.id ∈ ids ∧
          v.holdsWithin start stop = true ∧ v.demote = e := by
  rw [findWithin_eq_rangeLookup hk]
  exact finds_rangeLookup hr hP named ordered

end

end Cached

/-- Range lookups cover what is stored: after any run without stores a lookup of any kind but
stations from `start` to `stop` finds, up to the form of their children, the stored versions of the
wanted entities that hold within the range, each once and in order. -/
theorem Operation.findWithin_covers {r : Repository} (hr : r.Orderly) {ops : List Operation}
    (hops : ∀ op ∈ ops, op.isStore = false ∧ op.isCacheWrite = false) {w : TimeRange}
    (working : (run ops (.over r w)).repository.failure = none) {k : Kind} (hk : k ≠ .station)
    {ids : List (EntityId k)} (named : ∀ id ∈ ids, isBlank id.text = false)
    {start stop : Instant} (ordered : start ≤ stop) :
    ∃ es, ((Cached.findWithin k ids start stop).perform (run ops (.over r w))).1 = .ok es ∧
      (es.map Entity.demote).Pairwise (Entity.compareVersions · · = .lt) ∧
        ∀ e, e ∈ es.map Entity.demote ↔ ∃ v ∈ r.versions k, v.id ∈ ids ∧
          v.holdsWithin start stop = true ∧ v.demote = e := by
  have reached := run_faithful hr hops working
  have kept := Stack.kept_faithful hr (run ops (.over r w)).window k
  obtain ⟨es, found, covers, -⟩ :=
    Cached.finds_findWithin hr.consistent kept.grounded hk (fun _ => named) ordered _ reached
  exact ⟨es, found, covers⟩

theorem Operation.findWithin_covers_network :
    let ops := [.findAt (.caching .cached) .channel [⟨"STA.BHZ", rfl⟩] .origin]
    let s := run ops (.over Sample.network.repository .all)
    s.repository.failure = none ∧ Instant.origin ≤ Sample.change ∧ ∃ es,
      ((Cached.findWithin .channel [⟨"STA.BHZ", rfl⟩] .origin Sample.change).perform s).1 =
        .ok es ∧
      (es.map Entity.demote).Pairwise (Entity.compareVersions · · = .lt) ∧
        ∀ e, e ∈ es.map Entity.demote ↔ ∃ v ∈ Sample.network.repository.versions .channel,
          v.id ∈ [⟨"STA.BHZ", rfl⟩] ∧ v.holdsWithin .origin Sample.change = true ∧
            v.demote = e := by
  intro ops s
  have hops : ∀ op ∈ ops, op.isStore = false ∧ op.isCacheWrite = false := by decide
  have working : s.repository.failure = none := rfl
  have ordered : Instant.origin ≤ Sample.change := by decide
  exact ⟨working, ordered, findWithin_covers Sample.orderly_network hops working (by decide)
    (by decide) ordered⟩

end StationCatalog
