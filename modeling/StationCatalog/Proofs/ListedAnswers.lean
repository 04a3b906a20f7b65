import Mathlib.Data.List.Nodup
import Mathlib.Data.String.Basic
import StationCatalog.Proofs.ChangeTimes
import StationCatalog.Proofs.DrawnLookups
import StationCatalog.Proofs.TimelyAnswers

/-!
How answers are listed. Whatever the caches hold, the entities found are those asked for, each
version once and in order; of an instant there is at most one version of each entity. Change times
come latest first.
-/

namespace StationCatalog

open Lookup
open Stack (Drawing Minds)

variable {k : Kind}

namespace Entity

/-- Before by identifier or, of one entity, by start; without a start before any that has one. -/
def Precedes (a b : Entity k) : Prop :=
  a.id.text < b.id.text ∨ a.id = b.id ∧
    match a.start?, b.start? with
    | none, some _ => True
    | some s, some t => s < t
    | _, none => False

theorem compareVersions_eq_lt {a b : Entity k} : a.compareVersions b = .lt ↔ a.Precedes b := by
  have names : a.id.compare b.id = .lt ↔ a.id.text < b.id.text := compare_lt_iff_lt
  have same : a.id.compare b.id = .eq ↔ a.id = b.id :=
    Std.LawfulEqCmp.compare_eq_iff_eq
  rw [compareVersions, Ordering.then_eq_lt, names, same, Precedes]
  refine or_congr_right (and_congr_right fun _ => ?_)
  cases a.start? <;> cases b.start?
  case some.some s t => exact Int.compare_eq_lt
  case none.some => exact iff_of_true rfl trivial
  all_goals exact iff_of_false (by rintro ⟨⟩) fun never => never

/-- Asked for, and at most one of each entity, in the order of their identifiers. -/
structure ListedAt (ids : List (EntityId k)) (es : List (Entity k)) : Prop where
  among : ∀ e ∈ es, e.id ∈ ids
  ascending : es.Pairwise fun a b => a.id.compare b.id = .lt

variable {ids : List (EntityId k)} {es xs : List (Entity k)}

theorem ListedAt.sorted (h : ListedAt ids es) :
    (es.map (·.id)).Pairwise (EntityId.compare · · = .lt) := List.pairwise_map.2 h.ascending

theorem ListedAt.nodup (h : ListedAt ids es) : (es.map (·.id)).Nodup :=
  Sorted.nodup_of_pairwise h.sorted

theorem ListedAt.precedes (h : ListedAt ids es) : es.Pairwise Precedes :=
  h.ascending.imp fun before => compareVersions_eq_lt.1 (Ordering.then_eq_lt.2 (.inl before))

theorem ListedAt.of_sublist (h : ListedAt ids es)
    (part : (xs.map (·.id)).Sublist (es.map (·.id))) : ListedAt ids xs where
  among := by
    intro x hx
    obtain ⟨e, he, same⟩ := List.mem_map.1 (part.mem (List.mem_map_of_mem hx))
    exact same ▸ h.among e he
  ascending := List.pairwise_map.1 (h.sorted.sublist part)

/-- Where no two entities are the same, sorting by version sorts by identifier. -/
theorem listedAt_distinctVersions (among : ∀ e ∈ es, e.id ∈ ids) (apart : (es.map (·.id)).Nodup) :
    ListedAt ids (distinctVersions es) where
  among e he := among e (Sorted.mem_of_mem_ofList he)
  ascending := by
    refine (pairwise_distinctVersions es).imp_of_mem ?_
    intro a b ha hb before
    rcases Ordering.then_eq_lt.1 before with first | ⟨same, -⟩
    · exact first
    · obtain rfl := List.inj_on_of_nodup_map apart (Sorted.mem_of_mem_ofList ha)
        (Sorted.mem_of_mem_ofList hb) (Std.LawfulEqCmp.eq_of_compare same)
      have self : a.compareVersions a = .eq := Std.ReflCmp.compare_self
      rw [self] at before
      cases before

end Entity

open Entity (ListedAt)

section

variable {P : Stack → Prop} (hP : Drawing P) {t : Instant}

include hP

namespace Cached

/-- What the cache answers comes in the order it was wanted. -/
theorem yields_recallWanted_ids {resolve : Entity k → Lookup (Option (Entity k))}
    (hresolve : ∀ e, Yields P (resolve e) fun o => ∀ x ∈ o, x.id = e.id) (w : TimeRange)
    (wanted : List (EntityId k)) :
    Yields P (recallWanted resolve w wanted t) fun es => (es.map (·.id)).Sublist wanted := by
  have answered : ∀ id, Yields P (answerAt resolve t id) fun o => ∀ x ∈ o, x.id = id := by
    intro id
    refine (yields_recallAt hP id t).bind fun found hfound => ?_
    cases found with
    | none => exact .none
    | some e =>
        exact (hresolve e).mono fun _ ho x hx => (ho x hx).trans (hfound e rfl).1
  unfold recallWanted
  split
  · refine (Yields.collect_sublist fun id _ => answered id).mono fun es h => ?_
    rwa [List.map_id'] at h
  · exact .pure (List.nil_sublist wanted)

/-- What the repository answers comes in the order it was missing. -/
theorem yields_fetchMissing_ids {resolve : Entity k → Lookup (Option (Entity k))}
    (hresolve : ∀ e, Yields P (resolve e) fun o => ∀ x ∈ o, x.id = e.id) (w : TimeRange)
    (missing : List (EntityId k)) :
    Yields P (fetchMissing resolve w missing t) fun es => (es.map (·.id)).Sublist missing := by
  unfold fetchMissing
  split
  · exact .pure (List.nil_sublist missing)
  · exact (yields_fetchAt hP w missing t).bind fun found hfound =>
      (Yields.collect_sublist fun e _ => hresolve e).mono fun _ h => h.trans hfound.1

/-- What is cached is not asked for, so no entity is found twice. -/
theorem yields_pointLookup_listed {resolve : Entity k → Lookup (Option (Entity k))}
    (hresolve : ∀ e, Yields P (resolve e) fun o => ∀ x ∈ o, x.id = e.id)
    (ids : List (EntityId k)) : Yields P (pointLookup resolve ids t) (ListedAt ids) := by
  rw [pointLookup_eq]
  refine (Yields.requireIds ids).bind fun _ _ => .get_bind fun s _ =>
    (yields_recallWanted_ids hP hresolve s.window _).bind fun answered hanswered =>
    (yields_fetchMissing_ids hP hresolve s.window _).bind fun fetched hfetched => .pure ?_
  have wanted : (EntityId.distinct ids).Nodup :=
    Sorted.nodup_of_pairwise (EntityId.pairwise_distinct ids)
  have missing : ∀ e ∈ fetched, e.id ∈ unanswered (EntityId.distinct ids) answered :=
    fun e he => hfetched.mem (List.mem_map_of_mem he)
  apply Entity.listedAt_distinctVersions
  · intro e he
    rcases List.mem_append.1 he with he | he
    · exact EntityId.mem_distinct.1 (hanswered.mem (List.mem_map_of_mem he))
    · exact EntityId.mem_distinct.1 (mem_unanswered.1 (missing e he)).1
  · rw [List.map_append, List.nodup_append]
    refine ⟨wanted.sublist hanswered, (wanted.filter _).sublist hfetched, ?_⟩
    rintro _ ha _ hb rfl
    obtain ⟨e, he, same⟩ := List.mem_map.1 hb
    obtain ⟨x, hx, hid⟩ := List.mem_map.1 ha
    exact (mem_unanswered.1 (missing e he)).2 x hx (hid.trans same.symm)

theorem yields_findAt_listed (k : Kind) (ids : List (EntityId k)) (t : Instant) :
    Yields P (findAt k ids t) (ListedAt ids) := by
  rw [findAt_eq_pointLookup]
  exact yields_pointLookup_listed hP
    (fun e => (yields_resolveAt_same hP t k e).mono fun _ h x hx => (h x hx).1) ids

theorem yields_findChangeTimes_listed (station : EntityId .station) (start stop : Instant) :
    Yields P (findChangeTimes station start stop) fun ts =>
      ts.Pairwise (· > ·) ∧ ∀ t ∈ ts, t ≤ stop :=
  (Yields.requireNames _ _).bind fun _ _ => (Yields.requireOrder start stop).bind fun _ _ =>
    (yields_findWithin hP .station _ start stop).bind fun _ _ =>
    (yields_findWithin hP .channelGroup _ start stop).bind fun _ _ =>
    (yields_findWithin hP .channel _ start stop).bind fun _ _ =>
    (yields_findWithin hP .response _ start stop).bind fun _ _ =>
    .pure ⟨pairwise_changeTimes stop _, fun _ ht => (mem_changeTimes.1 ht).1⟩

end Cached

end

/-- Faceting keeps what it facets in order. -/
theorem Populate.yields_collect_ids {P : Stack → Prop} {find : Finder} {t : Instant}
    (hfind : ∀ k ids, Yields P (find k ids t) (ListedAt ids)) (f : Faceting)
    (es : List (Entity k)) :
    Yields P (collect (entity find t k f) es) fun xs =>
      (xs.map (·.id)).Sublist (es.map (·.id)) := by
  have own : ∀ (k : Kind) (e : Entity k),
      Yields P (find k [e.id] t) fun es => ∀ x ∈ es, x.id = e.id :=
    fun k e => (hfind k [e.id]).mono fun _ h x hx => List.mem_singleton.1 (h.among x hx)
  exact .collect_sublist fun e _ => yields_entity relates_id own k f e

namespace Request

theorem text_mem_ids {ids : List (EntityId k)} {time : RequestTime} {f : Option Faceting}
    {id : EntityId k} : id.text ∈ (ofIds ids time f).ids ↔ id ∈ ids := by
  constructor
  · intro h
    obtain ⟨i, hi, same⟩ := List.mem_map.1 h
    exact EntityId.ext same ▸ EntityId.mem_distinct.1 hi
  · exact fun h => List.mem_map_of_mem (EntityId.mem_distinct.2 h)

/-- The answer to a request is in order, without repetition, and of nothing else. -/
def Lists : (slot : Slot) → Request → List slot.Result → Prop
  | .entities _, request, es =>
    (∀ e ∈ es, e.id.text ∈ request.ids) ∧
      match request.time with
      | .at _ => es.Pairwise fun a b => a.id.compare b.id = .lt
      | .within .. => es.Pairwise (Entity.compareVersions · · = .lt)
  | .changeTimes, request, ts =>
    match request.time with
    | .at _ => True
    | .within _ stop => ts.Pairwise (· > ·) ∧ ∀ t ∈ ts, t ≤ stop

theorem lists_at {ids : List (EntityId k)} {t : Instant} {f : Option Faceting}
    {es : List (Entity k)} : (ofIds ids (.at t) f).Lists (.entities k) es ↔ ListedAt ids es :=
  ⟨fun h => ⟨fun e he => text_mem_ids.1 (h.1 e he), h.2⟩,
    fun h => ⟨fun e he => text_mem_ids.2 (h.among e he), h.ascending⟩⟩

end Request

/-- What the version cache answers is listed well, and still is when it is faceted again. -/
theorem Inquiry.sound_lists : Sound Request.Lists where
  cached q := by
    have hP : Drawing (Minds Request.Lists) := Stack.drawing_minds
    cases q with
    | plain ids time =>
        cases time with
        | «at» t => exact (Cached.yields_findAt_listed hP _ ids t).mono fun _ => Request.lists_at.2
        | within start stop =>
            exact (Cached.yields_findWithin hP _ ids start stop).mono fun _ h =>
              ⟨fun e he => Request.text_mem_ids.2 (h.2 e he).1, h.1⟩
    | faceted ids t f =>
        have finds := fun k ids => Cached.yields_findAt_listed hP k ids t
        refine (finds _ ids).bind fun found hfound =>
          (Populate.yields_collect_ids finds f found).bind fun xs hxs => .pure ?_
        have listed := hfound.of_sublist hxs
        exact Request.lists_at.2 (Entity.listedAt_distinctVersions listed.among listed.nodup)
    | changeTimes station start stop =>
        exact Cached.yields_findChangeTimes_listed hP station start stop
  again ids t f es finds hes := by
    have listing := fun k ids => (finds k ids).mono fun _ => Request.lists_at.1
    refine (Populate.yields_collect_ids listing f es).bind fun xs hxs => .pure ?_
    have kept := (Memoised.dropRepeated_sublist [] xs).map (·.id)
    exact Request.lists_at.2 ((Request.lists_at.1 hes).of_sublist (kept.trans hxs))

namespace Operation

/-- Answers are listed well: over any run, on either tier, what is found of an instant, plain or
faceted, or of a range, are entities asked for, each before the next by identifier and then by start,
and of an instant no entity twice; change times go down strictly from the end of the range asked
about. -/
theorem answers_listed {ops : List Operation}
    (hops : ∀ op ∈ ops, op.isCacheWrite = false ∧ op.isMemoWrite = false) (window : TimeRange)
    (tier : CachingTier) :
    let s := run ops (.fresh window)
    (∀ (k : Kind) (ids : List (EntityId k)) (t : Instant) (es : List (Entity k)),
      ((((Tier.caching tier).findAt k ids t).perform s).1 = .ok es ∨
        ∃ f, ((tier.findFaceted k ids t f).perform s).1 = .ok es) →
      es.Pairwise Entity.Precedes ∧ (∀ e ∈ es, e.id ∈ ids) ∧ (es.map (·.id)).Nodup) ∧
    (∀ (k : Kind) (ids : List (EntityId k)) (start stop : Instant) (es : List (Entity k)),
      (((Tier.caching tier).findWithin k ids start stop).perform s).1 = .ok es →
      es.Pairwise Entity.Precedes ∧ ∀ e ∈ es, e.id ∈ ids) ∧
    ∀ (station : EntityId .station) (start stop : Instant) (ts : List Instant),
      ((tier.findChangeTimes station start stop).perform s).1 = .ok ts →
      ts.Pairwise (· > ·) ∧ ∀ t ∈ ts, t ≤ stop := by
  intro s
  have minds : s.Minds Request.Lists :=
    Inquiry.sound_lists.run hops (Stack.minds_over Repository.empty window)
  have answers := fun {slot} (q : Inquiry slot) =>
    (Inquiry.sound_lists.yields_lookup tier q s minds).2
  refine ⟨?_, ?_, ?_⟩
  · intro k ids t es found
    have listed : ListedAt ids es := by
      rcases found with plain | ⟨f, faceted⟩
      · exact Request.lists_at.1 (answers (.plain ids (.at t)) es plain)
      · exact Request.lists_at.1 (answers (.faceted ids t f) es faceted)
    exact ⟨listed.precedes, listed.among, listed.nodup⟩
  · intro k ids start stop es found
    obtain ⟨among, ascending⟩ := answers (.plain ids (.within start stop)) es found
    exact ⟨ascending.imp Entity.compareVersions_eq_lt.1,
      fun e he => Request.text_mem_ids.1 (among e he)⟩
  · exact fun station start stop => answers (.changeTimes station start stop)

/-- The later version of a channel is cached before both are asked for. -/
theorem answers_listed_network :
    let ops := [.storeNetwork,
      .findAt (.caching .cached) .channel [⟨"STA.BHZ", rfl⟩] Sample.change]
    let found := ((Tier.caching .memoised).findWithin .channel [⟨"STA.BHZ", rfl⟩] .origin
      Sample.change).perform (run ops (.fresh .all))
    (∀ op ∈ ops, op.isCacheWrite = false ∧ op.isMemoWrite = false) ∧
      ∃ early late, found.1 = .ok [early, late] ∧ early.Precedes late := by
  intro ops found
  have hops : ∀ op ∈ ops, op.isCacheWrite = false ∧ op.isMemoWrite = false := by decide
  obtain ⟨-, range, -⟩ := answers_listed hops .all .memoised
  have answered : found.1.toOption.map (·.length) = some 2 := by decide +kernel
  cases h : found.1 with
  | error => rw [h] at answered; cases answered
  | ok es =>
      rw [h] at answered
      obtain ⟨early, late, rfl⟩ := List.length_eq_two.1 (Option.some.inj answered)
      obtain ⟨ascending, -⟩ := range .channel _ .origin Sample.change [early, late] h
      exact ⟨hops, early, late, rfl, List.pairwise_pair.1 ascending⟩

end Operation

end StationCatalog
