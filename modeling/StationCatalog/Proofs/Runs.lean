import StationCatalog.Operation
import StationCatalog.Proofs.DrawnCache
import StationCatalog.Proofs.TracedLookups

/-!
Runs of operations. An operation that neither stores nor writes to the version cache by hand goes by
the steps of lookups, so what these steps keep is kept by runs: the stored versions, and a cache
drawn from a source of all of them.
-/

namespace StationCatalog

open Relation (ReflTransGen)
open Lookup

/-- One change to a stack that leaves the stored versions as they are. -/
inductive Stack.Step : Stack → Stack → Prop
  | effect {k : Kind} {s s' : Stack} (h : Effect k s s') : Step s s'
  | requests (s : Stack) (c : RequestCache) : Step s { s with requestCache := c }
  | move (s : Stack) (w : TimeRange) : Step s { s with window := w }
  | forget (s : Stack) : Step s { s with versionCache := s.versionCache.clear }
  | count (s : Stack) (t : Tally) :
    Step s { s with versionCache := { s.versionCache with tally := t } }
  | calls (s : Stack) (cs : List Call) :
    Step s { s with repository := { s.repository with calls := cs } }
  | failure (s : Stack) (e : Option StorageError) :
    Step s { s with repository := { s.repository with failure := e } }

/-- The source has every populated version that is stored or that a stored channel carries. -/
structure Repository.Within (S : Versions) (r : Repository) : Prop where
  stored : ∀ k, ∀ e ∈ r.versions k, e.isPopulated = true → S k e
  carried : ∀ c ∈ r.versions .channel, ∀ e ∈ c.response?, e.isPopulated = true → S .response e

namespace Operation

/-- The operation stores entities. -/
def isStore : Operation → Bool
  | store .. | storeNetwork => true
  | _ => false

/-- The operation writes to the version cache what it is given. -/
def isCacheWrite : Operation → Bool
  | putVersions .. => true
  | _ => false

/-- The operation writes to the request cache what it is given. -/
def isMemoWrite : Operation → Bool
  | putRequest .. => true
  | _ => false

end Operation

variable {S : Versions} {k : Kind}

theorem Repository.Within.carriedResponses {r : Repository} (h : r.Within S)
    {es : List (Entity k)} (hes : ∀ e ∈ es, e ∈ r.versions k) :
    ∀ e ∈ Entity.carriedResponses es, e.isPopulated = true → S .response e := by
  intro e he
  cases k with
  | channel =>
      obtain ⟨c, hc, hce⟩ := List.mem_filterMap.1 he
      exact h.carried c (hes c hc) e hce
  | stationGroup | station | channelGroup | response => exact absurd he List.not_mem_nil

theorem Stack.Effect.drawn {s s' : Stack} (h : Effect k s s') (hS : s.repository.Within S)
    (hd : s.versionCache.DrawnFrom S) : s'.versionCache.DrawnFrom S := by
  cases h with
  | call ids time => exact hd
  | read id t => exact ⟨hd.keys, hd.histories⟩
  | keep es stored working =>
      have own : (s.versionCache.keep s.window es).DrawnFrom S :=
        hd.keep s.window fun e he => hS.stored k e (stored e he)
      exact own.keep s.window (hS.carriedResponses stored)

namespace Stack.Step

theorem versions_eq {s s' : Stack} (h : Step s s') :
    s'.repository.versions = s.repository.versions := by
  cases h with
  | effect h => exact h.versions_eq
  | requests | move | forget | count | calls | failure => rfl

theorem drawn {s s' : Stack} (h : Step s s') (hS : s.repository.Within S)
    (hd : s.versionCache.DrawnFrom S) : s'.versionCache.DrawnFrom S := by
  cases h with
  | effect h => exact h.drawn hS hd
  | requests | move | calls | failure => exact hd
  | count => exact ⟨hd.keys, hd.histories⟩
  | forget => exact .cleared s.versionCache

end Stack.Step

/-- What steps keep together: the stored versions, and a cache drawn from them. -/
theorem Stack.drawn_of_steps {s s' : Stack} (h : ReflTransGen Step s s')
    (hS : s.repository.Within S) (hd : s.versionCache.DrawnFrom S) :
    s'.repository.versions = s.repository.versions ∧ s'.versionCache.DrawnFrom S := by
  induction h with
  | refl => exact ⟨rfl, hd⟩
  | tail _ step ih =>
      obtain ⟨same, drawn⟩ := ih
      refine ⟨step.versions_eq.trans same, step.drawn ?_ drawn⟩
      exact ⟨same ▸ hS.stored, same ▸ hS.carried⟩

namespace Lookup

variable {α β : Type}

/-- Whatever the stack, a lookup leaves one that is reached by steps. -/
def Reaches (x : Lookup α) : Prop := ∀ s, ReflTransGen Stack.Step s (x.perform s).2

theorem Reaches.of_traced {x : Lookup α} (h : ∀ w, Traced Stack.Step w x) : Reaches x :=
  fun s => (h s.window s rfl).2

theorem Reaches.pure (a : α) : Reaches (pure a : Lookup α) := fun _ => .refl

theorem Reaches.throw (e : CatalogError) : Reaches (throw e : Lookup α) := fun _ => .refl

theorem Reaches.modify {f : Stack → Stack} (h : ∀ s, ReflTransGen Stack.Step s (f s)) :
    Reaches (modify f) := h

theorem Reaches.bind {x : Lookup α} {f : α → Lookup β} (hx : Reaches x)
    (hf : ∀ a, Reaches (f a)) : Reaches (x >>= f) :=
  relates_bind .trans hx hf

end Lookup

section

variable {w : TimeRange}

theorem effect_step (k : Kind) (s s' : Stack) (h : Stack.Effect k s s') : Stack.Step s s' :=
  .effect h

theorem Tier.traced_findAt (tier : Tier) (k : Kind) (ids : List (EntityId k)) (t : Instant) :
    Traced Stack.Step w (tier.findAt k ids t) := by
  match tier with
  | .source => exact Source.traced_findAt (effect_step k) ids t
  | .caching .cached => exact Cached.traced_findAt effect_step k ids t
  | .caching .memoised => exact Memoised.traced_findAt effect_step .requests k ids t

theorem Tier.traced_findWithin (tier : Tier) (k : Kind) (ids : List (EntityId k))
    (start stop : Instant) : Traced Stack.Step w (tier.findWithin k ids start stop) := by
  match tier with
  | .source => exact Source.traced_findWithin (effect_step k) ids start stop
  | .caching .cached => exact Cached.traced_findWithin effect_step k ids start stop
  | .caching .memoised => exact Memoised.traced_findWithin effect_step .requests k ids start stop

theorem CachingTier.traced_findFaceted (tier : CachingTier) (k : Kind) (ids : List (EntityId k))
    (t : Instant) (f : Faceting) : Traced Stack.Step w (tier.findFaceted k ids t f) := by
  cases tier with
  | cached => exact Cached.traced_findFaceted effect_step k ids t f
  | memoised => exact Memoised.traced_findFaceted effect_step .requests k ids t f

theorem CachingTier.traced_findChangeTimes (tier : CachingTier) (station : EntityId .station)
    (start stop : Instant) : Traced Stack.Step w (tier.findChangeTimes station start stop) := by
  cases tier with
  | cached => exact Cached.traced_findChangeTimes effect_step station start stop
  | memoised => exact Memoised.traced_findChangeTimes effect_step .requests station start stop

end

/-- Filling the cache anew moves the window once, and goes on by lookups. -/
theorem Cached.reaches_warm (ids : List (EntityId .stationGroup)) (start stop : Instant) :
    Reaches (warm ids start stop) := by
  have restarted : Reaches (restart (.closed start stop)) := by
    refine .modify ?_
    intro s
    have forgotten : Stack.Step s { s with versionCache := s.versionCache.clear } := .forget s
    exact (ReflTransGen.single forgotten).tail (.move _ _)
  have filled : Reaches (do restart (.closed start stop); cascade ids start stop) :=
    restarted.bind fun _ => .of_traced fun _ => traced_cascade effect_step ids start stop
  apply (Reaches.of_traced fun _ => Traced.closed.requireIds ids).bind
  intro _
  split
  · exact (Reaches.throw _).bind fun _ => filled
  · exact filled

namespace Operation

/-- An operation that neither stores nor writes to the cache by hand goes by steps. -/
theorem reaches {op : Operation} (hs : op.isStore = false) (hw : op.isCacheWrite = false) :
    Reaches op.lookup := by
  have done : ∀ {f : Stack → Stack}, (∀ s, Stack.Step s (f s)) → ∀ a : Answer,
      Reaches (do modify f; return a) :=
    fun step a => (Reaches.modify fun s => .single (step s)).bind fun _ => .pure a
  have answered : ∀ {α : Type} {x : Lookup α}, (∀ w, Traced Stack.Step w x) → ∀ g : α → Answer,
      Reaches (do return g (← x)) :=
    fun traced g => (Reaches.of_traced traced).bind fun a => .pure (g a)
  cases op with
  | store | storeNetwork => cases hs
  | putVersions => cases hw
  | findAt tier k ids t => exact answered (fun _ => tier.traced_findAt k ids t) _
  | findWithin tier k ids start stop =>
      exact answered (fun _ => tier.traced_findWithin k ids start stop) _
  | findFaceted tier k ids t f => exact answered (fun _ => tier.traced_findFaceted k ids t f) _
  | populate tier k e f t =>
      exact answered (fun _ => Populate.traced_entity tier.traced_findAt t k f e) _
  | changeTimes tier station start stop =>
      exact answered (fun _ => tier.traced_findChangeTimes station start stop) _
  | warm ids start stop => exact (Cached.reaches_warm ids start stop).bind fun _ => .pure _
  | fail e => exact done (fun s => .failure s (some e)) _
  | recover => exact done (fun s => .failure s none) _
  | clearCalls => exact done (fun s => .calls s []) _
  | setWindow range => exact done (fun s => .move s range) _
  | readVersion k key t => exact fun s => .single (.count s _)
  | clearVersions => exact done .forget _
  | putRequest slot request results => exact done (fun s => .requests s _) _
  | retrieveRequest slot request =>
      exact answered (fun _ => Memoised.traced_retrieve .requests slot request) _
  | clearRequests => exact done (fun s => .requests s _) _
  | calls | callsFor | versionCount | window | windowContains | versionMap | hasVersionKey
  | versionBoundaries | versionStatus | requestStatus => exact fun _ => .refl

/-- A run without stores keeps the stored versions, and a cache drawn from a source of them. -/
theorem run_drawn {ops : List Operation}
    (hops : ∀ op ∈ ops, op.isStore = false ∧ op.isCacheWrite = false) {s : Stack}
    (hS : s.repository.Within S) (hd : s.versionCache.DrawnFrom S) :
    (run ops s).repository.versions = s.repository.versions ∧
      (run ops s).versionCache.DrawnFrom S := by
  induction ops generalizing s with
  | nil => exact ⟨rfl, hd⟩
  | cons op ops ih =>
      obtain ⟨hop, hrest⟩ := List.forall_mem_cons.1 hops
      obtain ⟨same, drawn⟩ := Stack.drawn_of_steps (reaches hop.1 hop.2 s) hS hd
      obtain ⟨versions, cache⟩ := ih hrest ⟨same ▸ hS.stored, same ▸ hS.carried⟩ drawn
      exact ⟨versions.trans same, cache⟩

end Operation

end StationCatalog
