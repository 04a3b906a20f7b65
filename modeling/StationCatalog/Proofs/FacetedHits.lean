import StationCatalog.Proofs.LastingProperties
import StationCatalog.Proofs.Memos
import StationCatalog.Proofs.MetFacets
import StationCatalog.Proofs.TimelyAnswers

/-!
Faceted answers from the request cache. While only populated versions are stored, lookups find
populated entities only, so a faceted answer meets its definition; when it is remembered it is
faceted again, which changes nothing of it and takes no lookup.
-/

namespace StationCatalog

open Lookup
open Populate (MeetsFacets)

variable {k : Kind} {t : Instant} {f : Faceting}

/-- Everything that is stored or cached is populated. -/
structure Stack.Whole (s : Stack) : Prop where
  stored : ∀ k, ∀ e ∈ s.repository.versions k, e.isPopulated = true
  drawn : s.versionCache.DrawnFrom fun _ _ => True

open Stack (Whole Drawing)

theorem Stack.drawing_whole : Drawing Whole where
  drawn hs := hs.drawn
  call hs _ _ _ := ⟨hs.stored, hs.drawn⟩
  read hs _ id t := ⟨hs.stored, Stack.drawing_drawn.read hs.drawn id t⟩
  keep hs w _ es := ⟨hs.stored, Stack.drawing_drawn.keep hs.drawn w es⟩

namespace Cached

theorem yields_fetchAt_whole (w : TimeRange) (ids : List (EntityId k)) (t : Instant) :
    Yields Whole (fetchAt w k ids t) fun es => ∀ e ∈ es, e.isPopulated = true := by
  refine yields_fetchAt_of Stack.drawing_whole ?_ w
  intro s hs
  rw [Source.perform_findAt]
  refine ⟨⟨hs.stored, hs.drawn⟩, ?_⟩
  cases s.repository.failure with
  | some e => exact nofun
  | none =>
      rintro _ ⟨⟩ e he
      exact hs.stored k e (Source.mem_of_mem_versionsAt he)

theorem yields_findAt_whole (k : Kind) (ids : List (EntityId k)) (t : Instant) :
    Yields Whole (findAt k ids t) fun es => ∀ e ∈ es, e.isPopulated = true := by
  have recalled : ∀ id : EntityId k, Yields Whole (recallAt k id t) fun o =>
      ∀ e ∈ o, e.isPopulated = true :=
    fun id => (yields_recallAt Stack.drawing_whole id t).mono fun _ h e he => (h e he).2.1
  have resolved : ∀ e : Entity k, e.isPopulated = true →
      Yields Whole (resolveAt t k e) fun o => ∀ x ∈ o, x.isPopulated = true := fun e he =>
    (yields_resolveAt_same Stack.drawing_whole t k e).mono fun _ h x hx => (h x hx).2.trans he
  rw [findAt_eq_pointLookup]
  exact yields_pointLookup_of recalled (fun w ids => yields_fetchAt_whole w ids t) resolved ids

/-- What a faceted lookup finds meets its definition, and has no version twice. -/
theorem yields_findFaceted_meets (k : Kind) (ids : List (EntityId k)) (t : Instant)
    (f : Faceting) :
    Yields Whole (findFaceted k ids t f) fun es =>
      (∀ e ∈ es, MeetsFacets (fun _ => False) k f e) ∧ es.Pairwise fun a b => a.version ≠ b.version := by
  have finds : ∀ k ids, Yields Whole (findAt k ids t) fun es =>
      ∀ e ∈ es, e.isPopulated = false → False :=
    fun k ids => (yields_findAt_whole k ids t).mono fun es h e he missing => by simp [h e he] at missing
  refine (yields_findAt_whole k ids t).bind fun found _ =>
    (Yields.collect fun e _ => Populate.yields_meetsFacets finds k f e).bind fun es hes => .pure ?_
  refine ⟨fun e he => hes e (Sorted.mem_of_mem_ofList he), ?_⟩
  refine (Entity.pairwise_distinctVersions es).imp fun {a b} before same => ?_
  rw [Entity.compareVersions_eq_iff.2 same] at before
  cases before

end Cached

/-- Where no version comes twice, none is dropped. -/
theorem Memoised.dropRepeated_eq {seen : List (EntityId k × Option Instant)} {es : List (Entity k)}
    (apart : es.Pairwise fun a b => a.version ≠ b.version) (unseen : ∀ e ∈ es, e.version ∉ seen) :
    dropRepeated seen es = es := by
  induction es generalizing seen with
  | nil => rfl
  | cons e es ih =>
      obtain ⟨first, apart⟩ := List.pairwise_cons.1 apart
      obtain ⟨new, unseen⟩ := List.forall_mem_cons.1 unseen
      have fresh : (seen.any (· = e.version)) = false := by
        rw [List.any_eq_false]
        intro v hv same
        exact new (of_decide_eq_true same ▸ hv)
      rw [dropRepeated, fresh, if_neg Bool.false_ne_true, ih apart]
      intro x hx seen
      rcases List.mem_cons.1 seen with same | seen
      · exact first x hx same.symm
      · exact unseen x hx seen

/-- Storing populated versions leaves populated versions stored. -/
theorem Repository.store_populated {r : Repository}
    (hr : ∀ j, ∀ e ∈ r.versions j, e.isPopulated = true) {es : List (Entity k)}
    (hes : ∀ e ∈ es, e.isPopulated = true) :
    ∀ j, ∀ e ∈ (r.store es).versions j, e.isPopulated = true := by
  intro j
  by_cases same : k = j
  · subst same
    rw [versions_store]
    have stored := hr k
    generalize r.versions k = vs at stored
    induction es generalizing vs with
    | nil => exact stored
    | cons e es ih =>
        obtain ⟨new, hes⟩ := List.forall_mem_cons.1 hes
        refine ih hes (storeVersion vs e) fun x hx => ?_
        unfold storeVersion at hx
        split at hx
        · rcases Sorted.mem_of_mem_insert hx with rfl | hx
          · exact new
          · exact stored x hx
        · exact stored x hx
  · rw [versions_store_of_ne r es same]
    exact hr j

theorem Source.yields_store_whole {es : List (Entity k)} (hes : ∀ e ∈ es, e.isPopulated = true) :
    Yields Whole (store k es) fun _ => True := by
  intro s hs
  refine ⟨?_, fun _ _ => trivial⟩
  simp only [store, requireWorking, perform_bind, perform_get]
  cases s.repository.failure with
  | some e => exact hs
  | none => exact ⟨Repository.store_populated hs.stored hes, hs.drawn⟩

namespace Operation

/-- The operation stores nothing but populated versions. -/
def StoresPopulated : Operation → Prop
  | store _ es => ∀ e ∈ es, e.isPopulated = true
  | _ => True

theorem perform_whole {op : Operation} (hw : op.isCacheWrite = false) (hp : op.StoresPopulated)
    {s : Stack} (hs : s.Whole) : (op.perform s).2.Whole := by
  cases stores : op.isStore with
  | false =>
      obtain ⟨same, drawn⟩ := Stack.drawn_of_steps (reaches stores hw s)
        (S := fun _ _ => True) ⟨fun _ _ _ _ => trivial, fun _ _ _ _ _ => trivial⟩ hs.drawn
      exact ⟨same ▸ hs.stored, drawn⟩
  | true =>
      cases op with
      | store k es =>
          have stored : Yields Whole (Operation.store k es).lookup fun _ => True :=
            (Source.yields_store_whole hp).bind fun _ _ => .pure trivial
          exact (stored s hs).1
      | storeNetwork =>
          have one : ∀ {k : Kind} {e : Entity k}, e.isPopulated = true →
              ∀ x ∈ [e], x.isPopulated = true := fun h _ hx => List.mem_singleton.1 hx ▸ h
          have channels : ∀ c ∈ Sample.network.channels, c.isPopulated = true :=
            List.forall_mem_cons.2 ⟨rfl, one rfl⟩
          have stored : Yields Whole Operation.storeNetwork.lookup fun _ => True :=
            Yields.bind (Q := fun _ => True) ((Source.yields_store_whole (one rfl)).bind fun _ _ =>
              (Source.yields_store_whole channels).bind fun _ _ =>
              (Source.yields_store_whole (one rfl)).bind fun _ _ =>
              (Source.yields_store_whole (one rfl)).bind fun _ _ =>
              Source.yields_store_whole (one rfl)) fun _ _ => .pure trivial
          exact (stored s hs).1
      | _ => cases stores

/-- A run that stores only populated versions keeps everything populated. -/
theorem run_whole {ops : List Operation}
    (hops : ∀ op ∈ ops, op.isCacheWrite = false ∧ op.StoresPopulated) {s : Stack}
    (hs : s.Whole) : (run ops s).Whole := by
  induction ops generalizing s with
  | nil => exact hs
  | cons op ops ih =>
      obtain ⟨hop, hrest⟩ := List.forall_mem_cons.1 hops
      exact ih hrest (perform_whole hop.1 hop.2 hs)

end Operation

namespace Inquiry

/-- Faceted answers stick. Over a run from a fresh stack that stores only populated versions, once a
faceted lookup that was not answered from memory has found something on the tier with a request
cache, every repetition of it, whatever was done in between short of overwriting its memo by hand,
finds the same; no call is made, and nothing is touched but the count of the request cache, since
facetting the answer again leaves it as it is whatever could be found. -/
theorem faceted_answer_sticks {ops : List Operation}
    (hops : ∀ op ∈ ops, op.isCacheWrite = false ∧ op.StoresPopulated) (window : TimeRange)
    (ids : List (EntityId k)) (t : Instant) (f : Faceting) {q' : Inquiry (.entities k)}
    (repeats : (Inquiry.faceted ids t f).Repeats q') :
    let s := Operation.run ops (.fresh window)
    let q := Inquiry.faceted ids t f
    let first := (q.lookup .memoised).perform s
    RequestCache.resultsOf (.entities k) q.request s.requestCache.memos = [] →
    ∀ es, first.1 = .ok es → es ≠ [] →
      (∀ find : Finder, collect (Populate.entity find t k f) es = pure es) ∧
      ∀ more : List Operation, (∀ op ∈ more, ¬op.Overwrites (.entities k) q.request) →
        let later := Operation.run more first.2
        (q'.lookup .memoised).perform later = (.ok es, later.counted true) := by
  intro s q first missed es found held
  have valid : q.Valid := valid_of_answered found
  have whole : s.Whole :=
    Operation.run_whole hops ⟨fun _ _ h => absurd h List.not_mem_nil, .empty⟩
  have learnt : (Memoised.learn (.entities k) q.request (q.lookup .cached)).perform
      (s.counted false) = (.ok es, first.2) :=
    (perform_lookup_of_forgotten valid missed).symm.trans (Prod.ext found rfl)
  obtain ⟨answered, remembers⟩ := answered_of_learnt learnt
  have remembered := remembers held
  -- the answer was found by the version cache, where everything is populated
  have wholly : (s.counted false).Whole := ⟨whole.stored, whole.drawn⟩
  obtain ⟨met, apart⟩ :=
    (Cached.yields_findFaceted_meets k ids t f (s.counted false) wholly).2 es answered
  have fixed : ∀ find : Finder, collect (Populate.entity find t k f) es = pure es :=
    fun find => Populate.collect_eq fun e he => Populate.entity_eq (met e he)
  refine ⟨fixed, ?_⟩
  intro more hmore later
  have kept := Operation.run_remembers hmore first.2 (remembered ▸ held)
  rw [perform_lookup_of_remembered (repeats.valid valid) held, repeats.again_eq]
  · change (collect _ es >>= fun xs => pure (Memoised.dropRepeated [] xs)).perform _ = _
    rw [fixed, pure_bind, Memoised.dropRepeated_eq apart fun _ _ => List.not_mem_nil]
    rfl
  · rw [repeats.request_eq]
    exact kept.resultsOf_eq.trans remembered

/-- The sample station, with its channel group and channel populated, is found again after all
cached versions are forgotten and the repository has failed. -/
theorem faceted_answer_sticks_network :
    let f := ((Faceting.leaf .station true).withFacet Faceting.groupsKey
      (.leaf .channelGroup true)).withFacet Faceting.channelsKey (.leaf .channel true)
    let q : Inquiry (.entities .station) := .faceted [⟨"STA", rfl⟩] .origin f
    let q' : Inquiry (.entities .station) :=
      .faceted [⟨"STA", rfl⟩, ⟨"STA", rfl⟩] .origin f
    let s := Operation.run [.storeNetwork] (.fresh .all)
    let first := (q.lookup .memoised).perform s
    let later := Operation.run [.clearVersions, .fail .lockPoisoned] first.2
    (∀ op ∈ [Operation.storeNetwork], op.isCacheWrite = false ∧ op.StoresPopulated) ∧
      q.Repeats q' ∧
      RequestCache.resultsOf (.entities .station) q.request s.requestCache.memos = [] ∧
      ∃ es, first.1 = .ok es ∧ es ≠ [] ∧
        (q'.lookup .memoised).perform later = (.ok es, later.counted true) := by
  intro f q q' s first later
  have hops : ∀ op ∈ [Operation.storeNetwork], op.isCacheWrite = false ∧ op.StoresPopulated :=
    fun op hop => List.mem_singleton.1 hop ▸ ⟨rfl, trivial⟩
  have repeats : q.Repeats q' := .faceted (fun id => by simp) .origin f
  have hmore : ∀ op ∈ [Operation.clearVersions, .fail .lockPoisoned],
      ¬op.Overwrites (.entities .station) q.request := by
    simp [Operation.Overwrites]
  have missed : RequestCache.resultsOf (.entities .station) q.request s.requestCache.memos = [] :=
    rfl
  have found : first.1.toOption.map (·.length) = some 1 := by decide +kernel
  cases h : first.1 with
  | error => rw [h] at found; cases found
  | ok es =>
      have held : es ≠ [] := by
        rintro rfl
        rw [h] at found
        cases found
      obtain ⟨-, sticks⟩ := faceted_answer_sticks hops .all _ .origin f repeats missed es h held
      exact ⟨hops, repeats, missed, es, rfl, held, sticks _ hmore⟩

end Inquiry

end StationCatalog
