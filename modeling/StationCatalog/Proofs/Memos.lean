import StationCatalog.Proofs.Inquiries

/-!
What becomes of the request cache. A lookup passed on leaves it alone, and an answer is put there
only for a request of which nothing was remembered; so what is remembered of a request stays, until
it is forgotten or replaced by hand.
-/

namespace StationCatalog

open Relation (ReflTransGen)
open Lookup

variable {slot : Slot} {request : Request} {w : TimeRange}

namespace RequestCache

/-- The memos of one request. -/
def memosOf (slot : Slot) (request : Request) (memos : List Memo) : List Memo :=
  memos.filter fun m => m.slot = slot && m.request = request

theorem resultsOf_memosOf (slot : Slot) (request : Request) (memos : List Memo) :
    resultsOf slot request (memosOf slot request memos) = resultsOf slot request memos := by
  induction memos with
  | nil => rfl
  | cons m memos ih =>
      by_cases hslot : m.slot = slot
      · by_cases hrequest : m.request = request
        · subst hslot hrequest
          simp only [memosOf, List.filter_cons, decide_true, Bool.and_self, if_true, resultsOf,
            dif_pos]
        · simp only [memosOf, List.filter_cons, hslot, hrequest, decide_true, decide_false,
            Bool.true_and, Bool.false_eq_true, if_false, resultsOf, dif_pos]
          exact ih
      · simp only [memosOf, List.filter_cons, hslot, decide_false, Bool.false_and,
          Bool.false_eq_true, if_false, resultsOf, dif_neg, not_false_eq_true]
        exact ih

/-- Results put for a request leave the memos of any other as they are. -/
theorem memosOf_put_of_ne (c : RequestCache) {slot' : Slot} {request' : Request}
    (other : ¬(slot' = slot ∧ request' = request)) (results : List slot'.Result) :
    memosOf slot request (c.put slot' request' results).memos = memosOf slot request c.memos := by
  have apart : ∀ m : Memo, (m.slot = slot && m.request = request) = true →
      (!(m.slot = slot' && m.request = request')) = true := by
    intro m own
    simp only [Bool.and_eq_true, decide_eq_true_eq] at own
    simp only [Bool.not_eq_true', Bool.and_eq_false_iff, decide_eq_false_iff_not]
    rw [← Decidable.not_and_iff_not_or_not, own.1, own.2]
    exact fun same => other ⟨same.1.symm, same.2.symm⟩
  unfold put
  split
  · rfl
  · have unlike : ¬(slot' = slot && request' = request) = true := by
      simpa only [Bool.and_eq_true, decide_eq_true_eq] using other
    simp only [memosOf, List.filter_cons, unlike, List.filter_filter]
    refine List.filter_congr fun m _ => ?_
    cases own : (m.slot = slot && m.request = request : Bool) with
    | false => rfl
    | true => rw [apart m own]; rfl

end RequestCache

open RequestCache

namespace Stack

/-- The request cache as it was. -/
def SparesRequests (s s' : Stack) : Prop := s'.requestCache = s.requestCache

/-- The memos of a request as they were. -/
def SparesMemos (slot : Slot) (request : Request) (s s' : Stack) : Prop :=
  memosOf slot request s'.requestCache.memos = memosOf slot request s.requestCache.memos

/-- What is remembered of a request, if anything is, stays. -/
def Remembers (slot : Slot) (request : Request) (s s' : Stack) : Prop :=
  resultsOf slot request s.requestCache.memos ≠ [] → s.SparesMemos slot request s'

/-- The stack once the request cache has been asked, with success or without. -/
def counted (s : Stack) (hit : Bool) : Stack :=
  { s with requestCache := { s.requestCache with tally := s.requestCache.tally.count hit } }

theorem SparesMemos.resultsOf_eq {s s' : Stack} (h : s.SparesMemos slot request s') :
    resultsOf slot request s'.requestCache.memos =
      resultsOf slot request s.requestCache.memos := by
  rw [← resultsOf_memosOf, h, resultsOf_memosOf]

theorem SparesRequests.sparesMemos {s s' : Stack} (h : s.SparesRequests s') :
    s.SparesMemos slot request s' :=
  congrArg (fun c : RequestCache => memosOf slot request c.memos) h

theorem Remembers.trans {s₁ s₂ s₃ : Stack} (h : s₁.Remembers slot request s₂)
    (h' : s₂.Remembers slot request s₃) : s₁.Remembers slot request s₃ := by
  intro some
  have first := h some
  exact (h' (first.resultsOf_eq ▸ some)).trans first

theorem Remembers.of_steps {s s' : Stack} (h : ReflTransGen (Remembers slot request) s s') :
    s.Remembers slot request s' := by
  induction h with
  | refl => exact fun _ => rfl
  | tail _ step ih => exact ih.trans step

theorem SparesRequests.of_steps {s s' : Stack} (h : ReflTransGen SparesRequests s s') :
    s.SparesRequests s' := by
  induction h with
  | refl => rfl
  | tail _ step ih => exact Eq.trans step ih

theorem SparesMemos.of_steps {s s' : Stack} (h : ReflTransGen (SparesMemos slot request) s s') :
    s.SparesMemos slot request s' := by
  induction h with
  | refl => rfl
  | tail _ step ih => exact Eq.trans step ih

theorem sparesRequests_of_effect (k : Kind) (s s' : Stack) (h : Effect k s s') :
    s.SparesRequests s' := by
  cases h <;> rfl

end Stack

open Stack

namespace Memoised

/-- The request cache is asked once; what it does not remember is passed on. -/
theorem perform_consult (slot : Slot) (request : Request)
    (again : List slot.Result → Lookup (List slot.Result)) (ask : Lookup (List slot.Result))
    (s : Stack) :
    (consult slot request again ask).perform s =
      match resultsOf slot request s.requestCache.memos with
      | [] => (learn slot request ask).perform (s.counted false)
      | x :: xs => (again (x :: xs)).perform (s.counted true) := by
  have retrieved : (retrieve slot request).perform s =
      (.ok (if (resultsOf slot request s.requestCache.memos).isEmpty then none
        else some (resultsOf slot request s.requestCache.memos)),
        s.counted !(resultsOf slot request s.requestCache.memos).isEmpty) := rfl
  rw [consult, perform_bind, retrieved]
  cases resultsOf slot request s.requestCache.memos <;> rfl

theorem perform_learn (slot : Slot) (request : Request) (ask : Lookup (List slot.Result))
    (s : Stack) :
    (learn slot request ask).perform s =
      match ask.perform s with
      | (.ok results, s') =>
        (.ok results, { s' with requestCache := s'.requestCache.put slot request results })
      | (.error e, s') => (.error e, s') := by
  rw [learn, perform_bind]
  rcases ask.perform s with ⟨_ | results, s'⟩ <;> rfl

/-- A consultation counts, and then either goes on from what is remembered, or asks a lookup that
leaves the request cache alone and puts the answer in an empty place. -/
theorem traced_consult_of {R : Stack → Stack → Prop} {slot : Slot} {request : Request}
    {again : List slot.Result → Lookup (List slot.Result)} {ask : Lookup (List slot.Result)}
    (counts : ∀ (s : Stack) hit, R s (s.counted hit))
    (spares : ∀ s s' : Stack, s.SparesRequests s' → R s s')
    (puts : ∀ (s : Stack) results, resultsOf slot request s.requestCache.memos = [] →
      R s { s with requestCache := s.requestCache.put slot request results })
    (hagain : ∀ results, Traced R w (again results)) (hask : Traced SparesRequests w ask) :
    Traced R w (consult slot request again ask) := by
  intro s hs
  rw [perform_consult]
  cases found : resultsOf slot request s.requestCache.memos with
  | cons x xs =>
      obtain ⟨window, steps⟩ := hagain (x :: xs) (s.counted true) hs
      exact ⟨window, .head (counts s true) steps⟩
  | nil =>
      obtain ⟨window, steps⟩ := hask (s.counted false) hs
      have spared := SparesRequests.of_steps steps
      dsimp only
      rw [perform_learn]
      rcases asked : ask.perform (s.counted false) with ⟨e | results, s'⟩ <;>
        rw [asked] at window spared
      · exact ⟨window, .head (counts s false) (.single (spares _ _ spared))⟩
      · have empty : resultsOf slot request s'.requestCache.memos = [] := by
          rw [show s'.requestCache = (s.counted false).requestCache from spared]
          exact found
        exact ⟨window, .head (counts s false) (.head (spares _ _ spared)
          (.single (puts s' results empty)))⟩

/-- What is remembered of a request, if anything is, stays whatever is asked. -/
theorem consults_remembering :
    Consults (Traced (Remembers slot request) w) (Traced SparesRequests w) := by
  intro slot' request' again ask hagain hask
  refine traced_consult_of (fun _ _ _ => rfl) (fun _ _ spared _ => spared.sparesMemos) ?_ hagain
    hask
  intro s results empty some
  have other : ¬(slot' = slot ∧ request' = request) := by
    rintro ⟨rfl, rfl⟩
    exact some empty
  exact memosOf_put_of_ne _ other results

end Memoised

theorem Stack.remembers_of_effect (k : Kind) (s s' : Stack) (h : Effect k s s') :
    s.Remembers slot request s' := fun _ => (sparesRequests_of_effect k s s' h).sparesMemos

namespace Lookup

variable {α β : Type}

/-- A lookup after which what was remembered of a request, if anything was, is remembered still. -/
def Remembering (slot : Slot) (request : Request) (x : Lookup α) : Prop :=
  ∀ s : Stack, s.Remembers slot request (x.perform s).2

theorem Remembering.of_traced {x : Lookup α} (h : ∀ w, Traced (Remembers slot request) w x) :
    Remembering slot request x := fun s => .of_steps (h s.window s rfl).2

theorem Remembering.pure (a : α) : Remembering slot request (pure a : Lookup α) := fun _ _ => rfl

theorem Remembering.bind {x : Lookup α} {f : α → Lookup β} (hx : Remembering slot request x)
    (hf : ∀ a, Remembering slot request (f a)) : Remembering slot request (x >>= f) :=
  relates_bind .trans hx hf

end Lookup

namespace Inquiry

variable {slot' : Slot}

/-- The version cache answers without the request cache. -/
theorem spares_cached (q : Inquiry slot') (s : Stack) :
    s.SparesRequests ((q.lookup .cached).perform s).2 :=
  .of_steps (Traced.closed.cachedInquiry
    (fun t k => Cached.traced_pointParts (sparesRequests_of_effect k) t)
    (fun k => Cached.traced_rangeParts (sparesRequests_of_effect k)) q s rfl).2

theorem traced_remembers (q : Inquiry slot') (tier : CachingTier) :
    Traced (Remembers slot request) w (q.lookup tier) := by
  cases tier with
  | cached =>
      exact Traced.closed.cachedInquiry
        (fun t k => Cached.traced_pointParts (remembers_of_effect k) t)
        (fun k => Cached.traced_rangeParts (remembers_of_effect k)) q
  | memoised =>
      exact Traced.closed.memoisedInquiry Traced.closed Memoised.consults_remembering
        (fun t k => Cached.traced_pointParts (sparesRequests_of_effect k) t)
        (fun k => Cached.traced_rangeParts (sparesRequests_of_effect k)) q

end Inquiry

theorem Tier.traced_findAt_remembers (tier : Tier) (k : Kind) (ids : List (EntityId k))
    (t : Instant) : Traced (Remembers slot request) w (tier.findAt k ids t) := by
  cases tier with
  | source => exact Source.traced_findAt (remembers_of_effect k) ids t
  | caching tier => exact (Inquiry.plain ids (.at t)).traced_remembers tier

theorem Source.store_remembering {k : Kind} (es : List (Entity k)) :
    Remembering slot request (store k es) := by
  intro s _
  apply SparesRequests.sparesMemos
  simp only [store, requireWorking, perform_bind, perform_get]
  cases s.repository.failure <;> rfl

theorem Cached.warm_remembering (roots : List (EntityId .stationGroup)) (start stop : Instant) :
    Remembering slot request (warm roots start stop) := by
  have filled : Remembering slot request (do
      restart (.closed start stop); cascade roots start stop) :=
    Remembering.bind (fun _ _ => rfl) fun _ => .of_traced fun _ =>
      traced_cascade Stack.remembers_of_effect roots start stop
  apply (Remembering.of_traced fun _ => Traced.closed.requireIds roots).bind
  intro _
  split
  · exact Remembering.bind (fun _ _ => rfl) fun _ => filled
  · exact filled

namespace Operation

/-- The operation forgets or replaces by hand what is remembered of a request. -/
def Overwrites (slot : Slot) (request : Request) : Operation → Prop
  | clearRequests => True
  | putRequest slot' request' _ => slot' = slot ∧ request' = request
  | _ => False

/-- An operation leaves what is remembered of a request, unless it overwrites that by hand. -/
theorem remembering {op : Operation} (h : ¬op.Overwrites slot request) :
    Remembering slot request op.lookup := by
  have answered : ∀ {α : Type} {x : Lookup α}, Remembering slot request x → ∀ g : α → Answer,
      Remembering slot request (do return g (← x)) :=
    fun hx g => hx.bind fun a => .pure (g a)
  have asked : ∀ {slot' : Slot} (q : Inquiry slot') (tier : CachingTier),
      Remembering slot request (q.lookup tier) :=
    fun q tier => .of_traced fun _ => q.traced_remembers tier
  cases op with
  | clearRequests => exact absurd trivial h
  | putRequest slot' request' results =>
      refine answered (x := modify _) (fun s _ => ?_) fun _ => .done
      exact memosOf_put_of_ne _ h results
  | store k es => exact answered (Source.store_remembering es) fun _ => .done
  | storeNetwork =>
      refine Remembering.bind ?_ fun _ => .pure _
      exact (Source.store_remembering _).bind fun _ => (Source.store_remembering _).bind
        fun _ => (Source.store_remembering _).bind fun _ => (Source.store_remembering _).bind
        fun _ => Source.store_remembering _
  | findAt tier k ids t =>
      exact answered (.of_traced fun _ => tier.traced_findAt_remembers k ids t) _
  | findWithin tier k ids start stop =>
      cases tier with
      | source =>
          exact answered (.of_traced fun _ =>
            Source.traced_findWithin (remembers_of_effect k) ids start stop) _
      | caching tier => exact answered (asked (.plain ids (.within start stop)) tier) _
  | findFaceted tier k ids t f => exact answered (asked (.faceted ids t f) tier) _
  | populate tier k e f t =>
      exact answered (.of_traced fun _ =>
        Populate.traced_entity tier.traced_findAt_remembers t k f e) _
  | changeTimes tier station start stop =>
      exact answered (asked (.changeTimes station start stop) tier) _
  | warm ids start stop => exact answered (Cached.warm_remembering ids start stop) fun _ => .done
  | fail | recover | clearCalls | setWindow | putVersions | readVersion | clearVersions
  | retrieveRequest | calls | callsFor | versionCount | window | windowContains | versionMap
  | hasVersionKey | versionBoundaries | versionStatus | requestStatus => exact fun _ _ => rfl

/-- So do runs. -/
theorem run_remembers {ops : List Operation} (hops : ∀ op ∈ ops, ¬op.Overwrites slot request)
    (s : Stack) : s.Remembers slot request (run ops s) := by
  induction ops generalizing s with
  | nil => exact fun _ => rfl
  | cons op ops ih =>
      obtain ⟨hop, hrest⟩ := List.forall_mem_cons.1 hops
      exact (remembering hop s).trans (ih hrest (op.perform s).2)

end Operation

namespace Inquiry

variable {q q' : Inquiry slot} {s s' : Stack} {results : List slot.Result}

theorem again_of_unfaceted (unfaceted : q.request.faceting = none) : q.again = pure := by
  cases q with
  | plain | changeTimes => rfl
  | faceted => cases unfaceted

/-- Only valid inquiries are answered. -/
theorem valid_of_answered (found : ((q.lookup .memoised).perform s).1 = .ok results) : q.Valid := by
  by_contra invalid
  obtain ⟨e, refused⟩ := perform_lookup_of_not_valid invalid
  rw [refused] at found
  cases found

/-- What is not remembered is passed on. -/
theorem perform_lookup_of_forgotten (valid : q.Valid)
    (forgotten : resultsOf slot q.request s.requestCache.memos = []) :
    (q.lookup .memoised).perform s =
      (Memoised.learn slot q.request (q.lookup .cached)).perform (s.counted false) := by
  rw [lookup_memoised valid, Memoised.perform_consult, forgotten]

theorem perform_lookup_of_remembered (valid : q.Valid) (some : results ≠ [])
    (remembered : resultsOf slot q.request s.requestCache.memos = results) :
    (q.lookup .memoised).perform s = (q.again results).perform (s.counted true) := by
  obtain ⟨x, xs, rfl⟩ := List.exists_cons_of_ne_nil some
  rw [lookup_memoised valid, Memoised.perform_consult, remembered]

/-- What is learnt is the answer of the lookup that was asked, and it is remembered. -/
theorem answered_of_learnt (found :
      (Memoised.learn slot q.request (q.lookup .cached)).perform s = (.ok results, s')) :
    ((q.lookup .cached).perform s).1 = .ok results ∧
      (results ≠ [] → resultsOf slot q.request s'.requestCache.memos = results) := by
  rw [Memoised.perform_learn] at found
  rcases asked : (q.lookup .cached).perform s with ⟨e | answer, s₁⟩ <;> rw [asked] at found
  · cases found
  · cases found
    exact ⟨rfl, resultsOf_put _ _ _⟩

theorem remembered_of_answered (unfaceted : q.request.faceting = none) (some : results ≠ [])
    (found : (q.lookup .memoised).perform s = (.ok results, s')) :
    resultsOf slot q.request s'.requestCache.memos = results := by
  have valid : q.Valid := valid_of_answered (congrArg Prod.fst found)
  cases remembered : resultsOf slot q.request s.requestCache.memos with
  | nil =>
      rw [perform_lookup_of_forgotten valid remembered] at found
      exact (answered_of_learnt found).2 some
  | cons x xs =>
      rw [perform_lookup_of_remembered valid (List.cons_ne_nil x xs) remembered,
        again_of_unfaceted unfaceted] at found
      cases found
      exact remembered

/-- A lookup that finds nothing, or fails, leaves nothing behind in the request cache. -/
theorem memos_of_unanswered (unfaceted : q.request.faceting = none)
    (nothing : ∀ xs, ((q.lookup .memoised).perform s).1 = .ok xs → xs = []) :
    ((q.lookup .memoised).perform s).2.requestCache.memos = s.requestCache.memos ∧
      (q.Valid → resultsOf slot q.request s.requestCache.memos = []) := by
  by_cases valid : q.Valid
  · cases remembered : resultsOf slot q.request s.requestCache.memos with
    | cons x xs =>
        rw [perform_lookup_of_remembered valid (List.cons_ne_nil x xs) remembered,
          again_of_unfaceted unfaceted] at nothing
        exact absurd (nothing _ rfl) (List.cons_ne_nil x xs)
    | nil =>
        refine ⟨?_, fun _ => rfl⟩
        have spared := q.spares_cached (s.counted false)
        rw [perform_lookup_of_forgotten valid remembered, Memoised.perform_learn] at nothing ⊢
        rcases asked : (q.lookup .cached).perform (s.counted false) with ⟨e | answer, s₁⟩ <;>
          rw [asked] at spared nothing
        all_goals
          have same : s₁.requestCache.memos = (s.counted false).requestCache.memos :=
            congrArg RequestCache.memos spared
        · exact same
        · obtain rfl := nothing answer rfl
          exact same
  · obtain ⟨e, refused⟩ := perform_lookup_of_not_valid valid
    rw [refused]
    exact ⟨rfl, fun h => absurd h valid⟩

/-- Memoised answers stick. Once a lookup that is not faceted has found something on the tier with a
request cache, every repetition of it, whatever was done in between short of overwriting its memo by
hand, finds the same; no call is made, and nothing is touched but the count of the request cache.
One that finds nothing or fails leaves no memo, and is passed on again, if it ever was. -/
theorem answer_sticks (unfaceted : q.request.faceting = none) (repeats : q.Repeats q')
    (s : Stack) :
    let first := (q.lookup .memoised).perform s
    (∀ results, first.1 = .ok results → results ≠ [] → ∀ ops : List Operation,
      (∀ op ∈ ops, ¬op.Overwrites slot q.request) →
        let later := Operation.run ops first.2
        (q'.lookup .memoised).perform later = (.ok results, later.counted true)) ∧
    (first.1 = .ok [] ∨ (∃ e, first.1 = .error e) →
      first.2.requestCache.memos = s.requestCache.memos ∧
      (q.Valid → resultsOf slot q.request first.2.requestCache.memos = [] ∧
        ∀ later : Stack, resultsOf slot q.request later.requestCache.memos = [] →
          (q'.lookup .memoised).perform later =
            (Memoised.learn slot q.request (q'.lookup .cached)).perform (later.counted false)) ∧
      (¬q.Valid →
        ∃ e, ∀ later, (q'.lookup .memoised).perform later = (.error (.validation e), later))) := by
  intro first
  constructor
  · intro results found some ops hops later
    have remembered := remembered_of_answered unfaceted some
      (show (q.lookup .memoised).perform s = (.ok results, first.2) from Prod.ext found rfl)
    have kept := Operation.run_remembers hops first.2 (remembered ▸ some)
    have valid := repeats.valid (valid_of_answered found)
    rw [perform_lookup_of_remembered valid some, repeats.again_eq, again_of_unfaceted unfaceted]
    · rfl
    · rw [repeats.request_eq]
      exact kept.resultsOf_eq.trans remembered
  · intro unanswered
    have nothing : ∀ xs, first.1 = .ok xs → xs = [] := by
      intro xs found
      rcases unanswered with empty | ⟨e, failed⟩
      · rw [empty] at found
        cases found
        rfl
      · rw [failed] at found
        cases found
    obtain ⟨same, forgotten⟩ := memos_of_unanswered unfaceted nothing
    refine ⟨same, fun valid => ⟨?_, fun later none => ?_⟩, fun invalid => ?_⟩
    · rw [same]
      exact forgotten valid
    · rw [← repeats.request_eq] at none ⊢
      exact perform_lookup_of_forgotten (repeats.valid valid) none
    · have refusable : ¬q'.Valid := fun valid => invalid (repeats.symm.valid valid)
      obtain ⟨e, refused⟩ := perform_lookup_of_not_valid refusable
      exact ⟨e, refused .memoised⟩

/-- The sample channel, asked for twice over, is found again after all cached versions are forgotten
and the repository has failed. -/
theorem answer_sticks_network :
    let q : Inquiry (.entities .channel) := .plain [⟨"STA.BHZ", rfl⟩] (.at .origin)
    let q' : Inquiry (.entities .channel) :=
      .plain [⟨"STA.BHZ", rfl⟩, ⟨"STA.BHZ", rfl⟩] (.at .origin)
    let first := (q.lookup .memoised).perform (.over Sample.network.repository .all)
    let later := Operation.run [.clearVersions, .fail .lockPoisoned] first.2
    q.request.faceting = none ∧ q.Repeats q' ∧ ∃ results, first.1 = .ok results ∧ results ≠ [] ∧
      (q'.lookup .memoised).perform later = (.ok results, later.counted true) := by
  intro q q' first later
  have unfaceted : q.request.faceting = none := rfl
  have repeats : q.Repeats q' := .plain (fun id => by simp) (.at .origin)
  have hops : ∀ op ∈ [Operation.clearVersions, .fail .lockPoisoned],
      ¬op.Overwrites (.entities .channel) q.request := by
    simp [Operation.Overwrites]
  obtain ⟨sticks, -⟩ := answer_sticks unfaceted repeats (.over Sample.network.repository .all)
  have found : first.1.toOption.map (·.length) = some 1 := by decide +kernel
  cases h : first.1 with
  | error => rw [h] at found; cases found
  | ok results =>
      have some : results ≠ [] := by
        rintro rfl
        rw [h] at found
        cases found
      exact ⟨unfaceted, repeats, results, rfl, some, sticks results h some _ hops⟩

end Inquiry

end StationCatalog
