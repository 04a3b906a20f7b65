import StationCatalog.Proofs.LastingProperties
import StationCatalog.Proofs.WarmContents

/-!
The version cache as a replay of fetches. Every call that a lookup makes for the version cache is
answered from the stored versions, and the answer is cached on the spot; so the calls a run has made
since the cache was last emptied tell what was cached, batch by batch, and caching these batches
anew, one after another, comes to the same.
-/

namespace StationCatalog

open Relation (ReflTransGen)
open Lookup

variable {k : Kind} {w : TimeRange}

/-- Entities of one kind that are cached together, and the window at the time. -/
structure Batch where
  window : TimeRange
  kind : Kind
  entities : List (Entity kind)

namespace VersionCache

variable {c c' : VersionCache}

/-- Caches batches one after another. -/
def replay (c : VersionCache) (bs : List Batch) : VersionCache :=
  bs.foldl (fun c b => c.keep b.window b.entities) c

theorem replay_append (c : VersionCache) (bs bs' : List Batch) :
    c.replay (bs ++ bs') = (c.replay bs).replay bs' := List.foldl_append

theorem replay_congr (h : c.entries = c'.entries) (bs : List Batch) :
    (c.replay bs).entries = (c'.replay bs).entries := by
  induction bs generalizing c c' with
  | nil => exact h
  | cons b bs ih => exact ih (keep_congr h b.window b.entities)

end VersionCache

namespace Repository

/-- The stored versions that go by a text, ascending by start. -/
def named (r : Repository) (k : Kind) (text : String) : List (Entity k) :=
  (r.versions k).filter (·.id.text = text)

/-- What the stored versions have for a call. -/
def answers (r : Repository) (c : Call) : List (Entity c.kind) :=
  match c.time with
  | .at t => c.ids.filterMap fun text => (r.named c.kind text).find? (·.holdsAt t)
  | .within start stop =>
    c.ids.flatMap fun text => (r.named c.kind text).filter (·.holdsWithin start stop)

theorem named_text (r : Repository) (id : EntityId k) : r.named k id.text = r.history id := by
  refine List.filter_congr fun e _ => decide_eq_decide.2 ⟨EntityId.ext, ?_⟩
  exact congrArg EntityId.text

theorem answers_at (r : Repository) (ids : List (EntityId k)) (t : Instant) :
    r.answers ⟨k, ids.map (·.text), .at t⟩ = r.versionsAt ids t := by
  simp only [answers, versionsAt, List.filterMap_map, Function.comp_def, named_text]

theorem answers_within (r : Repository) (ids : List (EntityId k)) (start stop : Instant) :
    r.answers ⟨k, ids.map (·.text), .within start stop⟩ = r.versionsWithin ids start stop := by
  simp only [answers, versionsWithin, List.flatMap_map, named_text]

end Repository

namespace Stack

/-- What is fetched for a time is cached, unless it is fetched for an instant out of the window. -/
def keeps (s : Stack) : RequestTime → Bool
  | .at t => s.window.contains t
  | .within .. => true

/-- What is cached on a call for the version cache: its answer, and the responses carried by it. -/
def batches (s : Stack) (c : Call) : List Batch :=
  if s.repository.failure.isNone && s.keeps c.time then
    let found := s.repository.answers c
    [⟨s.window, c.kind, found⟩, ⟨s.window, .response, Entity.carriedResponses found⟩]
  else []

/-- One stack has come to another by calls for the version cache: what has been cached is what these
calls bring. -/
structure Fetches (s s' : Stack) : Prop where
  window : s'.window = s.window
  versions : s'.repository.versions = s.repository.versions
  failure : s'.repository.failure = s.repository.failure
  cached : ∃ calls, s'.repository.calls = s.repository.calls ++ calls ∧
    s'.versionCache.entries = (s.versionCache.replay (calls.flatMap s.batches)).entries

theorem batches_congr {s s' : Stack} (window : s'.window = s.window)
    (versions : s'.repository.versions = s.repository.versions)
    (failure : s'.repository.failure = s.repository.failure) : s'.batches = s.batches := by
  funext c
  have same : s'.repository.answers c = s.repository.answers c := by
    simp only [Repository.answers, Repository.named, versions]
  have times : s'.keeps = s.keeps := by
    funext time
    cases time with
    | «at» t => exact congrArg (·.contains t) window
    | within start stop => rfl
  unfold batches
  rw [same, times, window, failure]

theorem Fetches.batches_eq {s s' : Stack} (h : s.Fetches s') : s'.batches = s.batches :=
  batches_congr h.window h.versions h.failure

/-- Nothing is cached where nothing is called for. -/
theorem Fetches.of_entries {s s' : Stack} (window : s'.window = s.window)
    (repository : s'.repository = s.repository)
    (entries : s'.versionCache.entries = s.versionCache.entries) : s.Fetches s' where
  window := window
  versions := congrArg Repository.versions repository
  failure := congrArg Repository.failure repository
  cached := ⟨[], by rw [repository, List.append_nil], entries⟩

theorem Fetches.refl (s : Stack) : s.Fetches s := .of_entries rfl rfl rfl

theorem Fetches.trans {s₁ s₂ s₃ : Stack} (h : s₁.Fetches s₂) (h' : s₂.Fetches s₃) :
    s₁.Fetches s₃ where
  window := h'.window.trans h.window
  versions := h'.versions.trans h.versions
  failure := h'.failure.trans h.failure
  cached := by
    obtain ⟨calls, hcalls, entries⟩ := h.cached
    obtain ⟨calls', hcalls', entries'⟩ := h'.cached
    refine ⟨calls ++ calls', ?_, ?_⟩
    · rw [hcalls', hcalls, List.append_assoc]
    · rw [entries', h.batches_eq, List.flatMap_append, VersionCache.replay_append]
      exact VersionCache.replay_congr entries _

theorem Fetches.of_steps {s s' : Stack} (h : ReflTransGen Fetches s s') : s.Fetches s' := by
  induction h with
  | refl => exact .refl s
  | tail _ step ih => exact ih.trans step

/-- A call is answered with what is stored, and the answer cached if it is to be. -/
theorem Fetches.of_call {s s' : Stack} {c : Call} (window : s'.window = s.window)
    (repository : s'.repository = { s.repository with calls := s.repository.calls ++ [c] })
    (entries : s'.versionCache.entries = (s.versionCache.replay (s.batches c)).entries) :
    s.Fetches s' where
  window := window
  versions := by rw [repository]
  failure := by rw [repository]
  cached := by
    refine ⟨[c], by rw [repository], ?_⟩
    rw [entries, List.flatMap_singleton]

end Stack

namespace Cached

open Stack

theorem fetches_recallAt (id : EntityId k) (t : Instant) : Traced Fetches w (recallAt k id t) := by
  intro s hs
  rw [perform_recallAt]
  refine ⟨?_, .single (.of_entries ?_ ?_ ?_)⟩ <;> split <;> first | exact hs | rfl

theorem fetches_recallWithin (id : EntityId k) : Traced Fetches w (recallWithin k id) := by
  intro s hs
  rw [perform_recallWithin]
  exact ⟨hs, .refl⟩

/-- A call is noted, and what it brings is cached if there is an answer and it is to be kept. -/
theorem fetches_keep_of_source (ids : List (EntityId k)) (time : RequestTime)
    {x : Lookup (List (Entity k))} {s : Stack}
    (asked : x.perform s =
      (s.repository.failure.elim (.ok (s.repository.answers ⟨k, ids.map (·.text), time⟩))
        fun e => .error (.storage e),
        { s with repository := s.repository.record ids time })) :
    s.Fetches (Lookup.perform (do
      let fetched ← x
      if s.keeps time then keep s.window fetched
      return fetched) s).2 := by
  rw [perform_bind, asked]
  cases failure : s.repository.failure with
  | some e =>
      refine .of_call rfl rfl ?_
      simp only [Stack.batches, failure, Option.isNone_some, Bool.false_and, Bool.false_eq_true,
        if_false]
      rfl
  | none =>
      cases wanted : s.keeps time with
      | false =>
          refine .of_call rfl rfl ?_
          simp only [Stack.batches, wanted, Bool.and_false, Bool.false_eq_true, if_false]
          rfl
      | true =>
          refine .of_call rfl rfl ?_
          simp only [Stack.batches, failure, Option.isNone_none, wanted, Bool.and_self, if_true]
          rfl

theorem fetches_fetchAt (ids : List (EntityId k)) (t : Instant) :
    Traced Fetches w (fetchAt w k ids t) := by
  rintro s rfl
  have called : s.Fetches ((fetchAt s.window k ids t).perform s).2 := by
    refine fetches_keep_of_source ids (.at t) ?_
    rw [Source.perform_findAt, Repository.answers_at]
    cases s.repository.failure <;> rfl
  exact ⟨called.window, .single called⟩

theorem fetches_fetchWithin (ids : List (EntityId k)) (start stop : Instant) :
    Traced Fetches w (fetchWithin w k ids start stop) := by
  rintro s rfl
  have called : s.Fetches ((fetchWithin s.window k ids start stop).perform s).2 := by
    refine fetches_keep_of_source ids (.within start stop) ?_
    rw [Source.perform_findWithin, Repository.answers_within]
    cases s.repository.failure <;> rfl
  exact ⟨called.window, .single called⟩

theorem fetches_pointParts (t : Instant) : PointParts w (Traced Fetches w) t k where
  cached _ id := fetches_recallAt id t
  fetch ids := fetches_fetchAt ids t

theorem fetches_rangeParts : RangeParts w (Traced Fetches w) k where
  cached := fetches_recallWithin
  fetch := fetches_fetchWithin

end Cached

open Stack

theorem Stack.fetches_requests (s : Stack) (c : RequestCache) :
    s.Fetches { s with requestCache := c } := .of_entries rfl rfl rfl

/-- Whatever is asked of a tier with a cache, what it fetches is told by its calls. -/
theorem Inquiry.fetches {slot : Slot} (q : Inquiry slot) (tier : CachingTier) (w : TimeRange) :
    Traced Fetches w (q.lookup tier) :=
  q.traced_of_parts (fun t _ => Cached.fetches_pointParts t) (fun _ => Cached.fetches_rangeParts)
    fetches_requests tier

/-- Just these histories are cached. -/
def Stack.Caches (entries : List (VersionKey × CachedHistory)) (s : Stack) : Prop :=
  s.versionCache.entries = entries

namespace Source

variable {entries : List (VersionKey × CachedHistory)}

theorem caches_store (es : List (Entity k)) :
    Yields (Caches entries) (store k es) fun _ => True := by
  intro s hs
  refine ⟨?_, fun _ _ => trivial⟩
  unfold store requireWorking
  simp only [perform_bind, perform_get]
  cases s.repository.failure <;> exact hs

theorem caches_findAt (ids : List (EntityId k)) (t : Instant) :
    Yields (Caches entries) (findAt k ids t) fun _ => True := by
  intro s hs
  rw [perform_findAt]
  exact ⟨hs, fun _ _ => trivial⟩

theorem caches_findWithin (ids : List (EntityId k)) (start stop : Instant) :
    Yields (Caches entries) (findWithin k ids start stop) fun _ => True := by
  intro s hs
  rw [perform_findWithin]
  exact ⟨hs, fun _ _ => trivial⟩

end Source

namespace Operation

/-- The operation looks something up through the version cache. -/
def isCaching : Operation → Bool
  | findAt (.caching _) .. | findWithin (.caching _) .. | populate (.caching _) ..
  | findFaceted .. | changeTimes .. | warm .. => true
  | _ => false

/-- The operation empties the version cache; filling it does, once its arguments are let through. -/
def empties : Operation → Bool
  | clearVersions => true
  | warm ids start stop => (ids.all fun id => !isBlank id.text) && start < stop
  | _ => false

/-- What the calls of an operation bring to the version cache. -/
def fetches (op : Operation) (s : Stack) : List Batch :=
  let s' := (op.perform s).2
  if op.isCaching then
    (s'.repository.calls.drop s.repository.calls.length).flatMap s'.batches
  else []

/-- What has been cached since the version cache was last emptied, after an operation. -/
def logged (op : Operation) (s : Stack) (log : List Batch) : List Batch :=
  (if op.empties then [] else log) ++ op.fetches s

/-- What has been cached since the version cache was last emptied, after a run of operations. -/
def log : List Operation → Stack → List Batch → List Batch
  | [], _, batches => batches
  | op :: ops, s, batches => log ops (op.perform s).2 (op.logged s batches)

/-- The stack from which an operation fetches. -/
structure FetchesFrom (op : Operation) (s s₀ : Stack) : Prop where
  calls : s₀.repository.calls = s.repository.calls
  entries : s₀.versionCache.entries = if op.empties then [] else s.versionCache.entries
  fetched : s₀.Fetches (op.perform s).2

/-- An operation that does not empty the cache fetches from the stack it is performed on. -/
theorem FetchesFrom.of_traced {op : Operation} {α : Type} {x : Lookup α} {g : α → Answer}
    (lookup : op.lookup = do return g (← x)) (kept : op.empties = false)
    (hx : ∀ w, Traced Fetches w x) (s : Stack) : op.FetchesFrom s s where
  calls := rfl
  entries := by rw [kept, if_neg Bool.false_ne_true]
  fetched := by
    have traced : Traced Fetches s.window op.lookup := by
      rw [lookup]
      exact (hx s.window).bind fun a => .pure (g a)
    exact .of_steps (traced s rfl).2

theorem perform_warm (ids : List (EntityId .stationGroup)) (start stop : Instant) (s : Stack) :
    ((warm ids start stop).perform s).2 = ((Cached.warm ids start stop).perform s).2 := by
  change ((do Cached.warm ids start stop; return Answer.done : Lookup Answer).perform s).2 = _
  rw [perform_bind]
  rcases (Cached.warm ids start stop).perform s with ⟨_ | _, s'⟩ <;> rfl

/-- Filling the cache leaves the stack as it is if its arguments are not let through. -/
theorem perform_warm_of_refused {ids : List (EntityId .stationGroup)} {start stop : Instant}
    (refused : (warm ids start stop).empties = false) (s : Stack) :
    ((Cached.warm ids start stop).perform s).2 = s := by
  unfold Cached.warm
  by_cases named : Named ids
  · have all : (ids.all fun id => !isBlank id.text) = true := by
      refine List.all_eq_true.2 fun id hid => ?_
      rw [named rfl id hid]
      rfl
    rw [empties, all, Bool.true_and, decide_eq_false_iff_not] at refused
    have reversed : stop ≤ start := Int.not_lt.1 refused
    rw [requireIds_of_named named, if_pos reversed]
    rfl
  · obtain ⟨field, -, blank⟩ := requireIds_of_not_named named
    rw [blank]
    rfl

theorem fetchesFrom_warm (ids : List (EntityId .stationGroup)) (start stop : Instant) (s : Stack) :
    ∃ s₀, (warm ids start stop).FetchesFrom s s₀ := by
  cases through : (warm ids start stop).empties with
  | true =>
      have valid := through
      rw [empties, Bool.and_eq_true, List.all_eq_true, decide_eq_true_eq] at valid
      have named : Named ids := fun _ id hid => by
        simpa only [Bool.not_eq_true'] using valid.1 id hid
      have traced : Traced Fetches (.closed start stop) (Cached.cascade ids start stop) :=
        Traced.closed.cascade (fun t _ => Cached.fetches_pointParts t)
          (fun _ => Cached.fetches_rangeParts) ids start stop
      refine ⟨s.emptied (.closed start stop), rfl, ?_, ?_⟩
      · rw [through, if_pos rfl]
        rfl
      · rw [perform_warm, Cached.warm_eq_fill named (Int.not_le.2 valid.2), Cached.perform_fill]
        exact .of_steps (traced _ rfl).2
  | false =>
      refine ⟨s, rfl, ?_, ?_⟩
      · rw [through, if_neg Bool.false_ne_true]
      · rw [perform_warm, perform_warm_of_refused through]
        exact .refl s

/-- What is fetched by an operation is fetched on the spot or once the cache has been emptied. -/
theorem exists_fetchesFrom {op : Operation} (h : op.isCaching = true) (s : Stack) :
    ∃ s₀, op.FetchesFrom s s₀ := by
  cases op with
  | warm ids start stop => exact fetchesFrom_warm ids start stop s
  | findAt tier k ids t =>
      cases tier with
      | source => cases h
      | caching tier =>
          exact ⟨s, .of_traced rfl rfl (Inquiry.plain ids (.at t) |>.fetches tier) s⟩
  | findWithin tier k ids start stop =>
      cases tier with
      | source => cases h
      | caching tier =>
          exact ⟨s, .of_traced rfl rfl (Inquiry.plain ids (.within start stop) |>.fetches tier) s⟩
  | findFaceted tier k ids t f =>
      exact ⟨s, .of_traced rfl rfl (Inquiry.faceted ids t f |>.fetches tier) s⟩
  | changeTimes tier station start stop =>
      exact ⟨s, .of_traced rfl rfl (Inquiry.changeTimes station start stop |>.fetches tier) s⟩
  | populate tier k e f t =>
      cases tier with
      | source => cases h
      | caching tier =>
          refine ⟨s, .of_traced rfl rfl (fun w => Populate.traced_entity ?_ t k f e) s⟩
          exact fun k ids t => (Inquiry.plain ids (.at t)).fetches tier w
  | _ => cases h

/-- An operation that fetches nothing leaves what is cached, or empties the cache. -/
theorem entries_of_not_caching {op : Operation} (fetchless : op.isCaching = false)
    (written : op.isCacheWrite = false) (s : Stack) :
    (op.perform s).2.versionCache.entries =
      if op.empties then [] else s.versionCache.entries := by
  have answered : ∀ {α : Type} {x : Lookup α} {g : α → Answer},
      Yields (Caches s.versionCache.entries) x (fun _ => True) →
      (Lookup.perform (do return g (← x)) s).2.Caches s.versionCache.entries := by
    intro α x g yields
    have both : Yields (Caches s.versionCache.entries) (do return g (← x)) fun _ => True :=
      yields.bind fun _ _ => .pure trivial
    exact (both s rfl).1
  cases op with
  | putVersions => cases written
  | warm | findFaceted | changeTimes => cases fetchless
  | findAt tier k ids t =>
      cases tier with
      | caching => cases fetchless
      | source => exact answered (Source.caches_findAt ids t)
  | findWithin tier k ids start stop =>
      cases tier with
      | caching => cases fetchless
      | source => exact answered (Source.caches_findWithin ids start stop)
  | populate tier k e f t =>
      cases tier with
      | caching => cases fetchless
      | source =>
          refine answered (Populate.yields_entity_any (fun k ids => ?_) k f e)
          exact Source.caches_findAt ids t
  | store k es => exact answered (g := fun _ => .done) (Source.caches_store es)
  | storeNetwork =>
      refine answered (g := fun _ => .done) ?_
      exact (Source.caches_store _).bind fun _ _ => (Source.caches_store _).bind fun _ _ =>
        (Source.caches_store _).bind fun _ _ => (Source.caches_store _).bind fun _ _ =>
        Source.caches_store _
  | _ => rfl

/-- One operation: what is cached afterwards is what the log of its batches comes to. -/
theorem replay_logged {op : Operation} (written : op.isCacheWrite = false) {s : Stack}
    {batches : List Batch}
    (h : s.versionCache.entries = (VersionCache.empty.replay batches).entries) :
    (op.perform s).2.versionCache.entries =
      (VersionCache.empty.replay (op.logged s batches)).entries := by
  have begun : (if op.empties then [] else s.versionCache.entries) =
      (VersionCache.empty.replay (if op.empties then [] else batches)).entries := by
    split
    · rfl
    · exact h
  rw [logged, fetches, VersionCache.replay_append]
  cases caching : op.isCaching with
  | false => exact (entries_of_not_caching caching written s).trans begun
  | true =>
      obtain ⟨s₀, calls, entries, fetched⟩ := exists_fetchesFrom caching s
      obtain ⟨made, added, cached⟩ := fetched.cached
      rw [if_pos rfl, added, calls, List.drop_left, fetched.batches_eq, cached]
      exact VersionCache.replay_congr (entries.trans begun) _

/-- A run: what is cached afterwards is what the log of its batches comes to. -/
theorem replay_log {ops : List Operation} (written : ∀ op ∈ ops, op.isCacheWrite = false)
    {s : Stack} {batches : List Batch}
    (h : s.versionCache.entries = (VersionCache.empty.replay batches).entries) :
    (run ops s).versionCache.entries =
      (VersionCache.empty.replay (log ops s batches)).entries := by
  induction ops generalizing s batches with
  | nil => exact h
  | cons op ops ih =>
      obtain ⟨own, others⟩ := List.forall_mem_cons.1 written
      exact ih others (replay_logged own h)

end Operation

end StationCatalog
