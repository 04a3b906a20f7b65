import StationCatalog.Proofs.Coverage
import StationCatalog.Proofs.LastingProperties
import StationCatalog.Proofs.PointAnswers
import StationCatalog.Proofs.SoundCache

/-!
The calls of a lookup at an instant. What is covered of an entity stays covered until the cache is
emptied; and a lookup of channels or responses asks, by one call of its own kind, for the wanted
entities that are not covered at the instant and for no others.
-/

namespace StationCatalog

open Lookup

variable {k : Kind} {t : Instant}

/-- Some range that is cached of an entity contains the instant. -/
def Stack.CoveredAt (s : Stack) (id : EntityId k) (t : Instant) : Prop :=
  ∃ cached ∈ s.cachedRanges id, cached.contains t = true

namespace VersionCache

variable {c : VersionCache} {key : VersionKey}

/-- What is found is held. -/
theorem heldAt_of_find? {e : Entity k} (h : c.find? k key t = some e) : c.HeldAt key t := by
  obtain ⟨any, found, -⟩ := Option.bind_eq_some_iff.1 h
  obtain ⟨history, hhist, hget⟩ := Option.bind_eq_some_iff.1 found
  obtain ⟨entry, hentry, -⟩ := Option.map_eq_some_iff.1 hget
  have inside : entry.1.contains t = true := by simpa only using List.find?_some hentry
  exact ⟨history, hhist, entry, List.mem_of_find?_eq_some hentry, inside⟩

/-- In a drawn cache what is found is what is held. -/
theorem DrawnFrom.isSome_find?_iff {S : Versions} (h : c.DrawnFrom S) {id : EntityId k} :
    (c.find? k (.ofId id) t).isSome = true ↔ c.HeldAt (.ofId id) t := by
  rw [Option.isSome_iff_exists]
  exact ⟨fun ⟨_, found⟩ => heldAt_of_find? found, h.exists_find?⟩

end VersionCache

namespace Stack

variable {s : Stack} {id : EntityId k}

theorem coveredAt_iff_heldAt {S : Versions} (h : s.versionCache.DrawnFrom S) :
    s.CoveredAt id t ↔ s.versionCache.HeldAt (.ofId id) t := by
  rw [← exists_cached_iff h]
  simp only [CoveredAt, cachedRanges, List.mem_map, exists_exists_and_eq_and]

/-- What is held stays held, until it is forgotten. -/
theorem lasting_heldAt (key : VersionKey) (t : Instant) :
    Lasting fun s => s.versionCache.HeldAt key t where
  rests hs entries _ := by
    simp only [VersionCache.HeldAt, VersionCache.history?, entries]
    exact hs
  unlearns hs := hs
  asked tier _ q := .of_traced fun _ => q.traced
    (fun k s s' step => (retains_of_effect k s s' step).2 key t) (fun _ _ held => held) tier

/-- A serving stack that has received, since another, these calls of a kind. -/
structure Received (before : Stack) (k : Kind) (own : List Call) (s : Stack) : Prop
    extends Serving before.repository before.window s where
  calls : ∃ calls, s.repository.calls = before.repository.calls ++ calls ∧
    calls.filter (·.kind = k) = own

/-- And that has cached of the kind what was cached before. -/
structure Recalling (before : Stack) (k : Kind) (s : Stack) : Prop
    extends Received before k [] s where
  cached : ∀ key : VersionKey, key.kind = k →
    s.versionCache.history? key = before.versionCache.history? key

variable {before s' : Stack} {own : List Call} {j : Kind}

theorem Received.effect (hj : j ≠ k) (h : before.Received k own s) (step : Effect j s s') :
    before.Received k own s' := by
  refine ⟨⟨step.versions_eq.trans h.versions, step.failure_eq.trans h.working,
    step.window_eq.trans h.window⟩, ?_⟩
  obtain ⟨calls, added, filtered⟩ := h.calls
  cases step with
  | read | keep => exact ⟨calls, added, filtered⟩
  | call ids time =>
      refine ⟨calls ++ [⟨j, ids.map (·.text), time⟩], ?_, ?_⟩
      · rw [Repository.record, added, List.append_assoc]
      · rw [List.filter_append, filtered, List.filter_cons_of_neg (by simpa only [decide_eq_true_eq]),
          List.filter_nil, List.append_nil]

theorem served_received (hj : j ≠ k) :
    Served before.repository before.window j (before.Received k own) where
  serving _ h := h.toServing
  effect _ _ h step := h.effect hj step

theorem served_recalling (hj : j ≠ k) (hk : k ≠ .response) :
    Served before.repository before.window j (before.Recalling k) where
  serving _ h := h.toServing
  effect s s' h step := by
    refine ⟨h.toReceived.effect hj step, fun key own => ?_⟩
    rw [step.history?_eq key (own ▸ hj.symm) (own ▸ hk), h.cached key own]

end Stack

namespace Cached

/-- The wanted entities of which the cache has no version at an instant. -/
def uncovered (c : VersionCache) (ids : List (EntityId k)) (t : Instant) : List (EntityId k) :=
  (EntityId.distinct ids).filter fun id => (c.find? k (.ofId id) t).isNone

/-- The call for missing entities; there is none when none is missing. -/
def ownCalls (missing : List (EntityId k)) (t : Instant) : List Call :=
  if missing.isEmpty then [] else [⟨k, missing.map (·.text), .at t⟩]

/-- What comes of asking the cache for an entity, when it is resolved to itself: the entity if it is
found, and nothing if it is not. -/
def Told (c : VersionCache) (t : Instant) (id : EntityId k) (o : Option (Entity k)) : Prop :=
  (∀ e ∈ o, e.id = id) ∧ o.isSome = (c.find? k (.ofId id) t).isSome

variable {before : Stack} {resolve : Entity k → Lookup (Option (Entity k))}
  {ids : List (EntityId k)}

theorem unanswered_of_told {c : VersionCache} {answered : List (Entity k)}
    (told : Outcomes (Told c t) (EntityId.distinct ids) answered) :
    unanswered (EntityId.distinct ids) answered = uncovered c ids t := by
  refine List.filter_congr fun id hid => ?_
  have among : (answered.any (·.id = id)) = (c.find? k (.ofId id) t).isSome := by
    rw [Bool.eq_iff_iff, List.any_eq_true]
    constructor
    · rintro ⟨e, he, same⟩
      obtain ⟨j, -, own, some⟩ := told.sound e he
      obtain rfl : j = id := (own e rfl).symm.trans (of_decide_eq_true same)
      exact some.symm
    · intro found
      obtain ⟨o, ⟨own, some⟩, mem⟩ := told.complete id hid
      obtain ⟨e, rfl⟩ := Option.isSome_iff_exists.1 (some.trans found)
      exact ⟨e, mem e rfl, decide_eq_true (own e rfl)⟩
  rw [among]
  cases c.find? k (.ofId id) t <;> rfl

theorem leads_fetchAt_received (missing : List (EntityId k)) :
    Leads (before.Recalling k) (fetchAt before.window k missing t) (fun _ => True)
      (before.Received k [⟨k, missing.map (·.text), .at t⟩]) := by
  intro s hs
  have received : before.Received k [⟨k, missing.map (·.text), .at t⟩]
      { s with repository := s.repository.record missing (.at t) } := by
    obtain ⟨calls, added, filtered⟩ := hs.calls
    refine ⟨⟨hs.versions, hs.working, hs.window⟩,
      calls ++ [⟨k, missing.map (·.text), .at t⟩], ?_, ?_⟩
    · rw [Repository.record, added, List.append_assoc]
    · simp [filtered]
  refine ⟨s.repository.versionsAt missing t, ?_⟩
  simp only [fetchAt, perform_bind, Source.perform_findAt, hs.working]
  split
  · rw [perform_bind, perform_keep]
    exact ⟨rfl, trivial, ⟨received.versions, received.working, received.window⟩, received.calls⟩
  · exact ⟨rfl, trivial, received⟩

section

variable (fetched : ∀ own (e : Entity k), Finds (before.Received k own) (resolve e) fun _ => True)

include fetched

theorem leads_fetchMissing_received (missing : List (EntityId k)) :
    Leads (before.Recalling k) (fetchMissing resolve before.window missing t) (fun _ => True)
      (before.Received k (ownCalls missing t)) := by
  unfold fetchMissing ownCalls
  split
  · exact fun s hs => ⟨[], rfl, trivial, hs.toReceived⟩
  · refine (leads_fetchAt_received missing).bind fun es _ => ?_
    exact (Leads.collect fun e _ => fetched _ e).mono fun _ _ => trivial

/-- Where resolving keeps to other kinds and drops nothing, a lookup at an instant of the window
makes the one call of its own kind for what is not covered. -/
theorem leads_pointLookup_received (drawn : before.versionCache.DrawnFrom fun _ _ => True)
    (inside : before.window.contains t = true) (named : Named ids)
    (recalled : ∀ e : Entity k, Finds (before.Recalling k) (resolve e) fun o =>
      o.map Entity.toVersionReference = some e.toVersionReference) :
    Leads (before.Recalling k) (pointLookup resolve ids t) (fun _ => True)
      (before.Received k (ownCalls (uncovered before.versionCache ids t) t)) := by
  rw [pointLookup_eq]
  refine (Leads.requireIds named).bind fun _ _ => .get_bind fun s hs => ?_
  have same : ∀ s (id : EntityId k), before.Recalling k s →
      s.versionCache.find? k (.ofId id) t = before.versionCache.find? k (.ofId id) t := by
    intro s id hs
    rw [VersionCache.find?, hs.cached _ rfl, ← VersionCache.find?]
  have recalling : Finds (before.Recalling k)
      (recallWanted resolve before.window (EntityId.distinct ids) t)
      (Outcomes (Told before.versionCache t) (EntityId.distinct ids)) := by
    refine finds_recallWanted ?_ (fun id _ _ s e hs found => ?_) (fun id _ _ s hs absent => ?_)
      (fun id _ outside => ?_)
    · intro id s hs
      exact ⟨⟨⟨hs.versions, hs.working, hs.window⟩, hs.calls⟩, hs.cached⟩
    · rw [same s id hs] at found
      obtain ⟨validity, data, -, rfl, -⟩ := drawn.find? found
      apply (recalled _).mono
      intro o ho
      obtain ⟨x, rfl, hx⟩ := Option.map_eq_some_iff.1 ho
      refine ⟨?_, by rw [found]; rfl⟩
      rintro _ ⟨⟩
      rw [← Entity.id_toVersionReference, hx, Entity.id_toVersionReference]
      rfl
    · rw [same s id hs] at absent
      exact ⟨fun _ h => absurd h (Option.not_mem_none _), by rw [absent]⟩
    · rw [inside] at outside
      cases outside
  rw [hs.window]
  refine recalling.bind fun answered told => ?_
  rw [unanswered_of_told told]
  exact (leads_fetchMissing_received fetched _).bind fun _ _ => .pure trivial

end

/-- Lookups of channels and of responses make the one call of their own kind for what is not
covered. -/
theorem leads_findAt_received (hk : k = .channel ∨ k = .response)
    (drawn : before.versionCache.DrawnFrom fun _ _ => True)
    (inside : before.window.contains t = true) (named : Named ids) :
    Leads (before.Recalling k) (findAt k ids t) (fun _ => True)
      (before.Received k (ownCalls (uncovered before.versionCache ids t) t)) := by
  rw [findAt_eq_pointLookup]
  rcases hk with rfl | rfl
  · have below : Kind.response ≠ .channel := by decide
    refine leads_pointLookup_received (fun own e => ?_) drawn inside named fun e => ?_
    · exact (finds_resolveChannel_version (Stack.served_received below) e).mono fun _ _ => trivial
    · exact finds_resolveChannel_version (Stack.served_recalling below below.symm) e
  · exact leads_pointLookup_received (fun _ _ => .pure trivial) drawn inside named
      fun _ => .pure rfl

end Cached

namespace Operation

/-- Coverage never shrinks, and point lookups fetch exactly what is not covered. Over a run without
writes by hand to the version cache, what is covered of an entity at an instant is covered in every
later state, as long as the cached versions are not forgotten. Where the repository works and the
instant lies in the window, a lookup of channels or responses succeeds; it makes no call of its own
kind if all it wants is covered at the instant, and otherwise exactly one, for the wanted entities
that are not covered. -/
theorem findAt_fetches {ops : List Operation} (hops : ∀ op ∈ ops, op.isCacheWrite = false)
    (window : TimeRange) :
    let s := run ops (.fresh window)
    (∀ more : List Operation, (∀ op ∈ more, op.isCacheWrite = false ∧ op.isForgetting = false) →
      ∀ {k : Kind} (id : EntityId k) (t : Instant), s.CoveredAt id t →
        (run more s).CoveredAt id t) ∧
    ∀ {k : Kind}, k = .channel ∨ k = .response → ∀ {t : Instant}, s.window.contains t = true →
      s.repository.failure = none → ∀ {ids : List (EntityId k)}, Named ids →
      let result := (Cached.findAt k ids t).perform s
      (∃ es, result.1 = .ok es) ∧ ∃ (missing : List (EntityId k)) (calls : List Call),
        missing.Pairwise (EntityId.compare · · = .lt) ∧
        (∀ id, id ∈ missing ↔ id ∈ ids ∧ ¬s.CoveredAt id t) ∧
        result.2.repository.calls = s.repository.calls ++ calls ∧
        ((∀ id ∈ ids, s.CoveredAt id t) → calls.filter (·.kind = k) = []) ∧
        ((∃ id ∈ ids, ¬s.CoveredAt id t) →
          calls.filter (·.kind = k) = [⟨k, missing.map (·.text), .at t⟩]) := by
  intro s
  have drawn : s.versionCache.DrawnFrom fun _ _ => True := run_drawn_any hops .empty
  constructor
  · intro more hmore k id t covered
    have drawnLater : (run more s).versionCache.DrawnFrom fun _ _ => True :=
      run_drawn_any (fun op hop => (hmore op hop).1) drawn
    rw [Stack.coveredAt_iff_heldAt drawn] at covered
    rw [Stack.coveredAt_iff_heldAt drawnLater]
    refine (Stack.lasting_heldAt (.ofId id) t).run (fun op hop => (hmore op hop).1)
      (fun _ _ _ _ _ held => held) ?_ covered
    intro op hop forgets
    rw [(hmore op hop).2] at forgets
    cases forgets
  · intro k hk t inside working ids named result
    have begun : s.Recalling k s :=
      ⟨⟨⟨rfl, working, rfl⟩, [], (List.append_nil _).symm, List.filter_nil⟩, fun _ _ => rfl⟩
    obtain ⟨es, found, -, received⟩ := Cached.leads_findAt_received hk drawn inside named s begun
    obtain ⟨calls, added, own⟩ := received.calls
    have missing : ∀ id, id ∈ Cached.uncovered s.versionCache ids t ↔
        id ∈ ids ∧ ¬s.CoveredAt id t := by
      intro id
      rw [Stack.coveredAt_iff_heldAt drawn, ← drawn.isSome_find?_iff, Cached.uncovered,
        List.mem_filter, EntityId.mem_distinct, Bool.not_eq_true, Option.isSome_eq_false_iff]
    refine ⟨⟨es, found⟩, Cached.uncovered s.versionCache ids t, calls,
      (EntityId.pairwise_distinct ids).filter _, missing, added, ?_, ?_⟩
    · intro covered
      have none : Cached.uncovered s.versionCache ids t = [] :=
        List.eq_nil_iff_forall_not_mem.2 fun id hid =>
          ((missing id).1 hid).2 (covered id ((missing id).1 hid).1)
      rw [own, none]
      rfl
    · rintro ⟨id, hid, uncovered⟩
      have some := List.ne_nil_of_mem ((missing id).2 ⟨hid, uncovered⟩)
      rw [own, Cached.ownCalls, if_neg (by rwa [List.isEmpty_iff])]

/-- The earlier version of the sample channel is covered, still after another is stored over it and
looked up; an unknown channel is asked for alone. -/
theorem findAt_fetches_network :
    let known : EntityId .channel := ⟨"STA.BHZ", rfl⟩
    let unknown : EntityId .channel := ⟨"NEW.BHZ", rfl⟩
    let ops := [.storeNetwork, .findAt (.caching .cached) .channel [known] .origin]
    let more := [.store .channel [Sample.channel known ⟨.origin, none⟩ none],
      .findWithin (.caching .cached) .channel [known] .origin Sample.change]
    let s := run ops (.fresh .all)
    let ids := [known, unknown, known]
    let result := (Cached.findAt .channel ids .origin).perform s
    (∀ op ∈ ops, op.isCacheWrite = false) ∧
      (∀ op ∈ more, op.isCacheWrite = false ∧ op.isForgetting = false) ∧
      s.window.contains .origin = true ∧ s.repository.failure = none ∧ Named ids ∧
      s.CoveredAt known .origin ∧ (run more s).CoveredAt known .origin ∧
      ∃ (missing : List (EntityId .channel)) (calls : List Call),
        (∀ id, id ∈ missing ↔ id ∈ ids ∧ ¬s.CoveredAt id .origin) ∧
        result.2.repository.calls = s.repository.calls ++ calls ∧
        calls.filter (·.kind = .channel) = [⟨.channel, missing.map (·.text), .at .origin⟩] := by
  intro known unknown ops more s ids result
  have hops : ∀ op ∈ ops, op.isCacheWrite = false := by decide
  have hmore : ∀ op ∈ more, op.isCacheWrite = false ∧ op.isForgetting = false := by decide
  have inside : s.window.contains .origin = true := by decide +kernel
  have working : s.repository.failure = none := by decide +kernel
  have named : Named ids := fun _ => by decide
  have covered : s.CoveredAt known .origin := by
    have any : (s.cachedRanges known).any (·.contains .origin) = true := by decide +kernel
    exact List.any_eq_true.1 any
  have uncovered : ¬s.CoveredAt unknown .origin := by
    have none : s.cachedRanges unknown = [] := by decide +kernel
    rintro ⟨_, hcached, -⟩
    exact absurd (none ▸ hcached) List.not_mem_nil
  obtain ⟨stays, fetches⟩ := findAt_fetches hops .all
  obtain ⟨-, missing, calls, -, same, added, -, once⟩ :=
    fetches (.inl rfl) inside working named
  exact ⟨hops, hmore, inside, working, named, covered, stays more hmore known .origin covered,
    missing, calls, same, added, once ⟨unknown, by simp [ids], uncovered⟩⟩

end Operation

end StationCatalog
