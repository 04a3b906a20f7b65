import StationCatalog.Proofs.CalledLookups
import StationCatalog.Proofs.LastingProperties
import StationCatalog.Proofs.RangeLookups

/-!
What lookups through the version cache come across while it holds populated versions under their own
keys and over their own validity: what is recalled or fetched of an entity is a version of that
entity, and holds when it was asked for.
-/

namespace StationCatalog

open Lookup

variable {k : Kind}

/-- A property of stacks with a cache of populated versions, which lookups keep. -/
structure Stack.Drawing (P : Stack → Prop) : Prop where
  drawn {s : Stack} (hs : P s) : s.versionCache.DrawnFrom fun _ _ => True
  call {s : Stack} (hs : P s) {k : Kind} (ids : List (EntityId k)) (time : RequestTime) :
    P { s with repository := s.repository.record ids time }
  read {s : Stack} (hs : P s) {k : Kind} (id : EntityId k) (t : Instant) :
    P { s with versionCache := (s.versionCache.read k (.ofId id) t).2 }
  keep {s : Stack} (hs : P s) (w : TimeRange) {k : Kind} (es : List (Entity k)) :
    P { s with versionCache :=
      (s.versionCache.keep w es).keep w (Entity.carriedResponses es) }

open Stack (Drawing)

theorem Stack.drawing_drawn : Drawing fun s => s.versionCache.DrawnFrom fun _ _ => True where
  drawn hs := hs
  call hs _ _ _ := hs
  read hs _ _ _ := ⟨hs.keys, hs.histories⟩
  keep hs w _ _ := (hs.keep w fun _ _ _ => trivial).keep w fun _ _ _ => trivial

theorem Stack.Drawing.effect {P : Stack → Prop} (hP : Drawing P) {s s' : Stack}
    (step : Effect k s s') (hs : P s) : P s' := by
  cases step with
  | call ids time => exact hP.call hs ids time
  | read id t => exact hP.read hs id t
  | keep es stored working => exact hP.keep hs s.window es

/-- The repository finds at most one version of each entity, in the order they are asked for. -/
theorem Repository.map_id_versionsAt_sublist (r : Repository) (ids : List (EntityId k))
    (t : Instant) : ((r.versionsAt ids t).map (·.id)).Sublist ids := by
  induction ids with
  | nil => exact .slnil
  | cons id ids ih =>
      rw [versionsAt, List.filterMap_cons]
      split
      next => exact ih.cons id
      next e found =>
        have own := List.mem_of_find?_eq_some found
        have same : e.id = id := of_decide_eq_true (List.mem_filter.1 own).2
        rw [List.map_cons, same]
        exact ih.cons_cons id

section

variable {P : Stack → Prop} (hP : Drawing P)

include hP

namespace Source

theorem yields_findAt (ids : List (EntityId k)) (t : Instant) :
    Yields P (findAt k ids t) fun es =>
      (es.map (·.id)).Sublist ids ∧ ∀ e ∈ es, e.holdsAt t = true := by
  intro s hs
  rw [perform_findAt]
  refine ⟨hP.call hs ids (.at t), ?_⟩
  cases s.repository.failure with
  | some e => exact nofun
  | none =>
      rintro _ ⟨⟩
      refine ⟨Repository.map_id_versionsAt_sublist .., fun e he => ?_⟩
      obtain ⟨id, -, found⟩ := List.mem_filterMap.1 he
      simpa only using List.find?_some found

theorem yields_findWithin (ids : List (EntityId k)) (start stop : Instant) :
    Yields P (findWithin k ids start stop) fun es =>
      ∀ e ∈ es, e.id ∈ ids ∧ e.holdsWithin start stop = true := by
  intro s hs
  rw [perform_findWithin]
  refine ⟨hP.call hs ids (.within start stop), ?_⟩
  cases s.repository.failure with
  | some e => exact nofun
  | none =>
      rintro _ ⟨⟩ e he
      exact (mem_versionsWithin.1 he).2

end Source

namespace Cached

theorem yields_keep (w : TimeRange) (es : List (Entity k)) :
    Yields P (keep w es) fun _ => True := by
  intro s hs
  rw [perform_keep]
  exact ⟨hP.keep hs w es, fun _ _ => trivial⟩

/-- What is fetched is what the repository answers. -/
theorem yields_fetchAt_of {Q : List (Entity k) → Prop} {ids : List (EntityId k)} {t : Instant}
    (asked : Yields P (Source.findAt k ids t) Q) (w : TimeRange) :
    Yields P (fetchAt w k ids t) Q := by
  apply asked.bind
  intro es hes
  split
  · exact (yields_keep hP w es).bind fun _ _ => .pure hes
  · exact .pure hes

theorem yields_fetchAt (w : TimeRange) (ids : List (EntityId k)) (t : Instant) :
    Yields P (fetchAt w k ids t) fun es =>
      (es.map (·.id)).Sublist ids ∧ ∀ e ∈ es, e.holdsAt t = true :=
  yields_fetchAt_of hP (Source.yields_findAt hP ids t) w

theorem yields_fetchWithin (w : TimeRange) (ids : List (EntityId k)) (start stop : Instant) :
    Yields P (fetchWithin w k ids start stop) fun es =>
      ∀ e ∈ es, e.id ∈ ids ∧ e.holdsWithin start stop = true :=
  (Source.yields_findWithin hP ids start stop).bind fun es hes =>
    (yields_keep hP w es).bind fun _ _ => .pure hes

theorem yields_recallAt (id : EntityId k) (t : Instant) :
    Yields P (recallAt k id t) fun o =>
      ∀ e ∈ o, e.id = id ∧ e.isPopulated = true ∧ e.holdsAt t = true := by
  intro s hs
  rw [perform_recallAt]
  constructor
  · split
    · exact hP.read hs id t
    · exact hs
  · rintro _ ⟨⟩ e he
    obtain ⟨validity, data, -, rfl, inside⟩ := (hP.drawn hs).find? he
    exact ⟨rfl, rfl, (Entity.holdsAt_populated id validity data.demote t).trans inside⟩

theorem yields_recallWithin (id : EntityId k) :
    Yields P (recallWithin k id) fun cached => ∀ f ∈ cached, ∃ validity data,
      f.2 = Entity.populated id validity data ∧ validity.range.Encloses f.1 := by
  refine .get_bind fun s hs => ?_
  split
  next m hm =>
    refine .pure ?_
    intro f hf
    obtain ⟨-, validity, data, -, hval, within⟩ :=
      (hP.drawn hs).rangeMap? hm (List.mem_reverse.1 hf)
    exact ⟨validity, data.demote, hval, within⟩
  next => exact .pure fun _ h => absurd h List.not_mem_nil

/-- What an entity is resolved to is that entity, populated if it was. -/
theorem yields_resolveAt_same (t : Instant) (k : Kind) (e : Entity k) :
    Yields P (resolveAt t k e) fun o =>
      ∀ x ∈ o, x.id = e.id ∧ x.isPopulated = e.isPopulated := by
  have kept : Yields P (resolveAt t k e) fun _ => True :=
    .of_traced fun _ => traced_resolveAt (fun _ _ _ step hs => hP.effect step hs) t k e
  exact fun s hs => ⟨(kept s hs).1, (ends_resolveAt_same t k e s hs).1⟩

/-- Resolving a cached station keeps its identity and its time. -/
theorem yields_resolveCachedStation (e : Entity .station) :
    Yields P (resolveCachedStation e) fun o =>
      ∀ x ∈ o, x.id = e.id ∧ x.start? = e.start? ∧ x.stop? = e.stop? := by
  unfold resolveCachedStation
  split
  next validity _ =>
    have groups : ∀ ids : List (EntityId .channelGroup),
        Yields P (groupsAt ids validity.start) fun _ => True := fun ids =>
      .of_traced fun _ =>
        traced_findAt (fun _ _ _ step hs => hP.effect step hs) .channelGroup ids validity.start
    refine (groups _).bind fun found _ => ?_
    dsimp only
    split
    · exact .none
    · exact .some ⟨Entity.id_withChildren .., Entity.start?_withChildren ..,
        Entity.stop?_withChildren ..⟩
  next => exact .some ⟨rfl, rfl, rfl⟩

/-- A range lookup that resolves cached versions to themselves answers with versions of the entities
wanted that hold within the range; each version comes once, and they come in order. -/
theorem yields_rangeLookup {resolve : Entity k → Lookup (Option (Entity k))}
    (hresolve : ∀ e, Yields P (resolve e) fun o =>
      ∀ x ∈ o, x.id = e.id ∧ x.start? = e.start? ∧ x.stop? = e.stop?)
    (ids : List (EntityId k)) (start stop : Instant) :
    Yields P (rangeLookup resolve ids start stop) fun es =>
      es.Pairwise (Entity.compareVersions · · = .lt) ∧
        ∀ e ∈ es, e.id ∈ ids ∧ e.holdsWithin start stop = true := by
  refine (Yields.requireIds ids).bind fun _ _ => (Yields.requireOrder start stop).bind
    fun _ ordered => .get_bind fun s _ => ?_
  have resolving : ∀ (id : EntityId k) (cached : List (TimeRange × Entity k)),
      (∀ f ∈ cached, ∃ validity data, f.2 = Entity.populated id validity data ∧
        validity.range.Encloses f.1) → Yields P
      (collect (fun f => resolve f.2) (cached.filter (·.1.overlaps (.closed start stop))))
      fun es => ∀ e ∈ es, e.id = id ∧ e.holdsWithin start stop = true := by
    intro id cached hcached
    refine .collect fun f hf => (hresolve f.2).mono fun o ho x hx => ?_
    obtain ⟨hf, overlap⟩ := List.mem_filter.1 hf
    obtain ⟨validity, data, hval, within⟩ := hcached f hf
    obtain ⟨hid, hstart, hstop⟩ := ho x hx
    rw [Entity.holdsWithin, hid, hstart, hstop, hval]
    exact ⟨rfl, Entity.holdsWithin_of_overlaps within overlap ordered⟩
  have fetching : ∀ (id : EntityId k) cached, Yields P
      (gather (fetchGap s.window k id) (gaps (.closed start stop) cached))
      fun es => ∀ e ∈ es, e.id = id ∧ e.holdsWithin start stop = true := by
    intro id cached
    refine .gather fun gap hgap => ?_
    obtain ⟨first, last, hfirst, hlast, hstart, hstop⟩ :=
      TimeRange.exists_endpoints ordered (encloses_of_mem_gaps hgap)
    rw [fetchGap, hfirst, hlast]
    refine (yields_fetchWithin hP s.window [id] first last).mono fun es hes e he => ?_
    obtain ⟨own, holds⟩ := hes e he
    exact ⟨List.mem_singleton.1 own, Entity.holdsWithin_mono holds hstart hstop⟩
  have each : ∀ id ∈ EntityId.distinct ids, Yields P
      (versionsWithin resolve s.window start stop id)
      fun es => ∀ e ∈ es, e.id ∈ ids ∧ e.holdsWithin start stop = true := by
    intro id hid
    refine (yields_recallWithin hP id).bind fun cached hcached =>
      (resolving id cached hcached).bind fun resolved hresolved =>
      (fetching id _).bind fun fetched hfetched => .pure fun e he => ?_
    have own : e.id = id ∧ e.holdsWithin start stop = true :=
      (List.mem_append.1 he).elim (hresolved e) (hfetched e)
    exact ⟨own.1 ▸ EntityId.mem_distinct.1 hid, own.2⟩
  exact (Yields.gather each).bind fun found hfound =>
    .pure ⟨Entity.pairwise_distinctVersions found,
      fun e he => hfound e (Sorted.mem_of_mem_ofList he)⟩

/-- So does every range lookup. -/
theorem yields_findWithin (k : Kind) (ids : List (EntityId k)) (start stop : Instant) :
    Yields P (findWithin k ids start stop) fun es =>
      es.Pairwise (Entity.compareVersions · · = .lt) ∧
        ∀ e ∈ es, e.id ∈ ids ∧ e.holdsWithin start stop = true := by
  by_cases hk : k = .station
  · subst hk
    exact yields_rangeLookup hP (yields_resolveCachedStation hP) ids start stop
  · rw [findWithin_eq_rangeLookup hk]
    exact yields_rangeLookup hP (fun _ => .some ⟨rfl, rfl, rfl⟩) ids start stop

end Cached

end

namespace Cached

/-- A point lookup answers with what resolving makes of what the cache and the repository have. -/
theorem yields_pointLookup_of {P : Stack → Prop} {A Q : Entity k → Prop} {t : Instant}
    {resolve : Entity k → Lookup (Option (Entity k))}
    (recalled : ∀ id, Yields P (recallAt k id t) fun o => ∀ e ∈ o, A e)
    (fetch : ∀ w ids, Yields P (fetchAt w k ids t) fun es => ∀ e ∈ es, A e)
    (hresolve : ∀ e, A e → Yields P (resolve e) fun o => ∀ x ∈ o, Q x) (ids : List (EntityId k)) :
    Yields P (pointLookup resolve ids t) fun es => ∀ e ∈ es, Q e := by
  have answered : ∀ id, Yields P (answerAt resolve t id) fun o => ∀ x ∈ o, Q x := by
    intro id
    apply (recalled id).bind
    intro found hfound
    cases found with
    | none => exact .none
    | some e => exact hresolve e (hfound e rfl)
  have recalled : ∀ w wanted, Yields P (recallWanted resolve w wanted t)
      fun es => ∀ e ∈ es, Q e := by
    intro w wanted
    unfold recallWanted
    split
    · exact .collect fun id _ => answered id
    · exact .pure fun _ h => absurd h List.not_mem_nil
  have fetched : ∀ w missing, Yields P (fetchMissing resolve w missing t)
      fun es => ∀ e ∈ es, Q e := by
    intro w missing
    unfold fetchMissing
    split
    · exact .pure fun _ h => absurd h List.not_mem_nil
    · exact (fetch w missing).bind fun es hes =>
        .collect fun e he => hresolve e (hes e he)
  rw [pointLookup_eq]
  refine (Yields.requireIds ids).bind fun _ _ => .get_bind fun s _ =>
    (recalled _ _).bind fun answers hanswers => (fetched _ _).bind fun found hfound => .pure ?_
  intro e he
  rcases List.mem_append.1 (Sorted.mem_of_mem_ofList he) with he | he
  · exact hanswers e he
  · exact hfound e he

end Cached

end StationCatalog
