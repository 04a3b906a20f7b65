import StationCatalog.Proofs.CalledLookups
import StationCatalog.Proofs.Refusals
import StationCatalog.Proofs.StationRanges

/-!
Refusals by nested lookups, told by the stored versions. Over a consistent content, and with a cache
drawn from it, a lookup of valid arguments is refused just when a version it resolves trips over a
blank name somewhere below it.
-/

namespace StationCatalog

open Lookup

variable {j k : Kind}

/-- Resolving a version as of an instant trips: it names a child with a blank name, or a child whose
version at the instant trips. -/
inductive Repository.Trips (r : Repository) (t : Instant) : {k : Kind} → Entity k → Prop
  | blank {j k : Kind} {v : Entity j} {id : EntityId k} (named : v.Names id)
    (blank : id.IsBlank) : Trips r t v
  | child {j k : Kind} {v : Entity j} {u : Entity k} (named : v.Names u.id)
    (stored : u ∈ r.versions k) (holds : u.holdsAt t = true) (trips : Trips r t u) : Trips r t v

/-- Looking entities up at an instant trips: a name is blank, or the version of an entity trips. -/
def Repository.TripsAt (r : Repository) (t : Instant) (k : Kind) (ids : List (EntityId k)) : Prop :=
  ¬Named ids ∨ ∃ v ∈ r.versions k, v.id ∈ ids ∧ v.holdsAt t = true ∧ r.Trips t v

namespace Repository

variable {r : Repository} {t : Instant}

theorem not_tripsAt_nil (k : Kind) : ¬r.TripsAt t k [] := by
  rintro (unnamed | ⟨v, -, hid, -⟩)
  · exact unnamed (named_nil k)
  · exact absurd hid List.not_mem_nil

/-- A version trips just when looking up one of its collections of children does. -/
theorem trips_iff {v : Entity k} : r.Trips t v ↔ ∃ l ∈ v.children, r.TripsAt t l.1 l.2 := by
  constructor
  · intro trips
    cases trips with
    | blank named blank =>
        obtain ⟨ids, hids, hid⟩ := named
        exact ⟨_, hids, .inl (not_named_iff.2 ⟨_, hid, blank⟩)⟩
    | child named stored holds trips =>
        obtain ⟨ids, hids, hid⟩ := named
        exact ⟨_, hids, .inr ⟨_, stored, hid, holds, trips⟩⟩
  · rintro ⟨⟨j, ids⟩, hids, unnamed | ⟨u, stored, hid, holds, trips⟩⟩
    · obtain ⟨id, hid, blank⟩ := not_named_iff.1 unnamed
      exact .blank ⟨ids, hids, hid⟩ blank
    · exact .child ⟨ids, hids, hid⟩ stored holds trips

theorem trips_demote {v : Entity k} : r.Trips t v.demote ↔ r.Trips t v := by
  simp only [trips_iff, Entity.children_demote]

end Repository

namespace Cached

variable {r : Repository} {w : TimeRange} {P : Stack → Prop} {t : Instant}
  {resolve : Entity k → Lookup (Option (Entity k))} {c : Entity k → Prop}

/-- A lookup whose identifiers are all named is refused if the version of one of them is. -/
theorem refused_pointLookup (hr : r.Consistent) (hP : Stack.Grounded r w k P)
    (hdemote : ∀ v, c v.demote ↔ c v) (hresolve : ∀ e, RefusedIff P (resolve e) (c e) P)
    (own : ∀ e, Ends P (resolve e) (fun o _ => ∀ x ∈ o, x.id = e.id) fun _ => True)
    {ids : List (EntityId k)} {v : Entity k} (hv : v ∈ r.versions k) (hid : v.id ∈ ids)
    (holds : v.holdsAt t = true) (hc : c v) :
    Ends P (pointLookup resolve ids t) (fun _ _ => False) CatalogError.IsRefusal := by
  rw [pointLookup_eq]
  refine (Ends.requireIds fun field => ⟨field, rfl⟩).bind fun _ => .given fun _ => .get_bind ?_
  intro s hs
  rw [(hP.serving s hs).window]
  -- Where the version is recalled it is refused, so whatever is answered is not of its entity.
  have recalled : Ends P (recallWanted resolve w (EntityId.distinct ids) t)
      (fun answered s => False ∨ P s ∧ ∀ e ∈ answered, e.id ≠ v.id) CatalogError.IsRefusal := by
    unfold recallWanted
    split
    · refine .collect ?_ fun _ _ _ => False.elim
      intro id _
      refine ends_answerAt (fun s hs => hP.effect s _ hs (.read s id t)) ?_ fun _ hs =>
        .inr ⟨hs, fun _ h => absurd h (Option.not_mem_none _)⟩
      intro s e hs found
      obtain ⟨u, hu, rfl, uholds, rfl⟩ := hP.find? hs found
      refine ((hresolve u.demote).ends.and (own u.demote)).mono ?_
      rintro o s ⟨⟨spared, hs⟩, same⟩
      refine .inr ⟨hs, fun x hx hxv => spared ((hdemote u).2 ?_)⟩
      have hids : u.id = v.id := by rw [← hxv, same x hx, Entity.id_demote]
      exact hr.disjoint k u hu v hv hids t uholds holds ▸ hc
    · exact .pure fun _ hs => .inr ⟨hs, fun _ h => absurd h List.not_mem_nil⟩
  refine recalled.bind fun answered => .or (fun _ => False.elim) (.given fun others => ?_)
  have missing : v.id ∈ unanswered (EntityId.distinct ids) answered :=
    mem_unanswered.2 ⟨EntityId.mem_distinct.2 hid, others⟩
  have fetched : Ends P (fetchMissing resolve w (unanswered (EntityId.distinct ids) answered) t)
      (fun _ _ => False) CatalogError.IsRefusal := by
    rw [fetchMissing, List.isEmpty_eq_false_iff.2 (List.ne_nil_of_mem missing)]
    refine (Ends.of_leads (finds_fetchAt hP.toServed _ t)).bind ?_
    intro es
    rintro s ⟨rfl, hs⟩
    have among : v ∈ (unanswered (EntityId.distinct ids) answered).filterMap (r.versionAt? · t) :=
      List.mem_filterMap.2 ⟨v.id, missing, hr.versionAt?_eq hv holds⟩
    refine Ends.collect_mem among ((hresolve v).refused hc) ?_ (fun _ _ _ => False.elim) s hs
    exact fun u _ => (hresolve u).ends.mono fun _ _ h => .inl h.2
  exact fetched.bind fun _ _ => False.elim

theorem refusedIff_pointLookup (hr : r.Consistent) (hP : Stack.Grounded r w k P)
    (hdemote : ∀ v, c v.demote ↔ c v) (hresolve : ∀ e, RefusedIff P (resolve e) (c e) P)
    (own : ∀ e, Ends P (resolve e) (fun o _ => ∀ x ∈ o, x.id = e.id) fun _ => True)
    (ids : List (EntityId k)) :
    RefusedIff P (pointLookup resolve ids t)
      (¬Named ids ∨ ∃ v ∈ r.versions k, v.id ∈ ids ∧ v.holdsAt t = true ∧ c v) P where
  succeeds := by
    intro neither
    obtain ⟨named, spared⟩ := not_or.1 neither
    have resolves : ∀ v ∈ r.versions k, v.id ∈ ids → v.holdsAt t = true → ¬c v :=
      fun v hv hid holds hc => spared ⟨v, hv, hid, holds, hc⟩
    apply finds_pointLookup_of hP.toServed (not_not.1 named)
    · intro id hid s e hs found
      obtain ⟨v, hv, rfl, holds, rfl⟩ := hP.find? hs found
      exact (hresolve v.demote).succeeds fun hc => resolves v hv hid holds ((hdemote v).1 hc)
    · exact fun v hv hid holds => (hresolve v).succeeds (resolves v hv hid holds)
  refused := by
    rintro (unnamed | ⟨v, hv, hid, holds, hc⟩)
    · exact ((RefusedIff.requireIds ids).refused unnamed).bind fun _ _ => False.elim
    · exact refused_pointLookup hr hP hdemote hresolve own hv hid holds hc

/-- A lookup at an instant is refused just when it trips, whatever is cached. -/
theorem refusedIff_findAt (hr : r.Consistent)
    (served : ∀ j, k.rank ≤ j.rank → Stack.Served r w j P)
    (drawn : ∀ s, P s → s.versionCache.DrawnFrom fun k e => k = .response ∨ e ∈ r.versions k)
    (ids : List (EntityId k)) : RefusedIff P (findAt k ids t) (r.TripsAt t k ids) P := by
  induction k using Kind.upward with
  | h k below =>
      have nested : ∀ j, k.rank < j.rank → ∀ ids,
          RefusedIff P (findAt j ids t) (r.TripsAt t j ids) P := fun j hj ids =>
        below j hj (fun i hi => served i (Nat.le_trans (Nat.le_of_lt hj) hi)) ids
      have resolves : ∀ e : Entity k, RefusedIff P (resolveAt t k e) (r.Trips t e) P := fun e =>
        (refusedIff_resolveAt Repository.not_tripsAt_nil nested e).congr r.trips_iff.symm
      rw [findAt_eq_pointLookup]
      by_cases hk : k = .response
      · subst hk
        have untripped : ∀ v : Entity .response, ¬r.Trips t v := by
          intro v
          rw [r.trips_iff]
          rintro ⟨l, hl, -⟩
          exact absurd hl List.not_mem_nil
        refine (refusedIff_pointLookup_of (served .response (Nat.le_refl _))
          (fun _ _ _ _ _ _ => .pure trivial) fun _ _ _ _ => .pure trivial).congr ?_
        refine (or_iff_left ?_).symm
        rintro ⟨v, -, -, -, trips⟩
        exact untripped v trips
      · have grounded : Stack.Grounded r w k P := by
          refine ⟨served k (Nat.le_refl _), fun s hs => (drawn s hs).mono ?_⟩
          exact fun _ _ source same => source.resolve_left (same ▸ hk)
        exact refusedIff_pointLookup hr grounded (fun _ => r.trips_demote) resolves
          (ends_resolveAt_id t k) ids

end Cached

/-- The channel groups of a station trip as of its start. -/
def Repository.TripsAtStart (r : Repository) (v : Entity .station) : Prop :=
  ∃ t, v.start? = some t ∧ r.TripsAt t .channelGroup (v.groups.map (·.id))

theorem Repository.tripsAtStart_demote {r : Repository} {v : Entity .station} :
    r.TripsAtStart v.demote ↔ r.TripsAtStart v := by
  simp only [TripsAtStart, Entity.start?_demote, Entity.groups_demote]

/-- A station whose channel groups trip is recalled over a range; entities of other kinds are not
resolved over ranges. -/
def Stack.TripsWithin (s : Stack) (r : Repository) (start stop : Instant) :
    (k : Kind) → List (EntityId k) → Prop
  | .station, ids => ∃ v ∈ r.versions .station, v.id ∈ ids ∧ s.RecallsWithin start stop v ∧
    r.TripsAtStart v
  | .stationGroup, _ | .channelGroup, _ | .channel, _ | .response, _ => False

namespace Cached

variable {r : Repository} {w : TimeRange} {P : Stack → Prop} {start stop : Instant} {s₀ : Stack}
  (hr : r.Consistent) (hP : Stack.Upheld r w P)

include hr hP

theorem refusedIff_versionsWithin_station {id : EntityId .station}
    {left : List (EntityId .station)} (other : id ∉ left) :
    RefusedIff (s₀.Awaiting P (id :: left)) (versionsWithin resolveCachedStation w start stop id)
      (∃ f ∈ (s₀.cachedVersions id).filter (·.1.overlaps (.closed start stop)),
        r.TripsAtStart f.2) (s₀.Awaiting P left) := by
  apply RefusedIff.leads_bind (leads_recallWithin_awaiting id left)
  rintro _ rfl
  have groups : ∀ t ids, RefusedIff (s₀.Awaiting P left) (groupsAt ids t)
      (r.TripsAt t .channelGroup ids) (s₀.Awaiting P left) := by
    intro t ids
    refine refusedIff_findAt (k := .channelGroup) (w := w) hr ?_ (fun s hs => hP.drawn s hs.1) ids
    intro j hj
    refine (hP.served j).awaiting ?_ s₀ left
    rintro rfl
    exact absurd hj (by decide)
  have resolving := RefusedIff.collect fun (f : TimeRange × Entity .station)
    (_ : f ∈ (s₀.cachedVersions id).filter (·.1.overlaps (.closed start stop))) =>
      refusedIff_resolveCachedStation (fun t => Repository.not_tripsAt_nil .channelGroup) groups f.2
  refine resolving.bind_pure fun _ => ?_
  have fetching := finds_fetchGaps_awaiting (hP.served .station) s₀ other
    (gaps (.closed start stop) (s₀.cachedRanges id))
  exact fetching.bind fun _ _ => .pure trivial

/-- A lookup over a range is refused for a blank name, or when a station that it recalls trips. -/
theorem refusedIff_findWithin (hs₀ : P s₀) (ordered : start ≤ stop) (ids : List (EntityId k)) :
    RefusedIff (· = s₀) (findWithin k ids start stop)
      (¬Named ids ∨ s₀.TripsWithin r start stop k ids) P := by
  by_cases hk : k = .station
  · subst hk
    have drawn := (hP.grounded (k := .station) nofun).drawn s₀ hs₀
    refine (RefusedIff.requireIds ids).bind fun _ => .leads_bind (Leads.requireOrder ordered)
      fun _ _ => .get_bind ?_
    rintro s rfl
    rw [((hP.served .station).serving s hs₀).window]
    have distinct := Sorted.nodup_of_pairwise (EntityId.pairwise_distinct ids)
    have each : ∀ id left, id :: left <:+ EntityId.distinct ids →
        RefusedIff (s.Awaiting P (id :: left)) (versionsWithin resolveCachedStation w start stop id)
          (∃ f ∈ (s.cachedVersions id).filter (·.1.overlaps (.closed start stop)),
            r.TripsAtStart f.2) (s.Awaiting P left) := fun id left suffix =>
      refusedIff_versionsWithin_station hr hP
        (List.nodup_cons.1 (distinct.sublist suffix.sublist)).1
    have whole := RefusedIff.gather_left each
    have begun : ∀ s', s' = s → s.Awaiting P (EntityId.distinct ids) s' := by
      rintro _ rfl
      exact ⟨hs₀, fun _ _ => rfl⟩
    refine ((whole.weaken begun fun _ hs => hs.1).bind_pure fun _ => .pure trivial).congr ?_
    constructor
    · rintro ⟨id, hid, f, hf, trips⟩
      obtain ⟨hf, overlap⟩ := List.mem_filter.1 hf
      obtain ⟨validity, data, stored, hval, -⟩ := Stack.mem_cachedVersions drawn hf
      rw [hval, Repository.tripsAtStart_demote] at trips
      refine ⟨_, stored rfl, EntityId.mem_distinct.1 hid, ⟨f, hf, ?_, overlap⟩, trips⟩
      rw [hval, Entity.version_demote]
    · rintro ⟨v, hv, hid, ⟨f, hf, hversion, overlap⟩, trips⟩
      obtain ⟨validity, data, stored, hval, -⟩ := Stack.mem_cachedVersions drawn hf
      have same : .populated v.id validity data = v := by
        apply hr.eq_of_version (stored rfl) hv
        rw [← hversion, hval, Entity.version_demote]
      refine ⟨v.id, EntityId.mem_distinct.2 hid, f, List.mem_filter.2 ⟨hf, overlap⟩, ?_⟩
      rw [hval, Repository.tripsAtStart_demote, same]
      exact trips
  · rw [findWithin_eq_rangeLookup hk]
    have untripped : ¬s₀.TripsWithin r start stop k ids := by
      cases k with
      | station => exact absurd rfl hk
      | stationGroup | channelGroup | channel | response => exact id
    have plain : RefusedIff P (rangeLookup (fun e => return some e) ids start stop) (¬Named ids)
        P :=
      refusedIff_rangeLookup_of (hP.served k) ordered fun _ _ _ _ _ _ => .pure trivial
    refine (plain.weaken ?_ fun _ hs => hs).congr (or_iff_left untripped).symm
    rintro _ rfl
    exact hs₀

end Cached

end StationCatalog
