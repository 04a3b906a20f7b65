import StationCatalog.Tier.Memoised

/-!
Lookups that are composed of others. A property of lookups that returning, refusing an argument,
reading the window and going on with another lookup all keep is a property of every lookup of the
caching tiers, as soon as it is one of the few lookups that ask the caches or the repository.
-/

namespace StationCatalog

namespace Lookup

theorem ite_bind {α β : Type} (c : Prop) [Decidable c] (x y : Lookup α)
    (f : α → Lookup β) : (if c then x else y) >>= f = if c then x >>= f else y >>= f := by
  split <;> rfl

theorem throw_bind {α β : Type} (e : CatalogError) (f : α → Lookup β) :
    (throw e : Lookup α) >>= f = throw e := rfl

/-- Composing lookups from the window `w` keeps the property. -/
structure Closed (w : TimeRange) (M : {α : Type} → Lookup α → Prop) : Prop where
  pure {α : Type} (a : α) : M (Pure.pure a)
  refuse {α : Type} (e : ValidationError) : M (throw (.validation e) : Lookup α)
  bind {α β : Type} {x : Lookup α} {f : α → Lookup β} (hx : M x) (hf : ∀ a, M (f a)) : M (x >>= f)
  window {α : Type} {f : Stack → Lookup α} (reads : ∀ s s', s.window = s'.window → f s = f s')
    (hf : ∀ s, s.window = w → M (f s)) : M (get >>= f)

namespace Closed

variable {α β : Type} {k : Kind} {w : TimeRange} {M : {α : Type} → Lookup α → Prop}
  (closed : Closed w M)

include closed

theorem map {x : Lookup α} (hx : M x) (g : α → β) : M (g <$> x) := by
  rw [← bind_pure_comp]
  exact closed.bind hx fun a => closed.pure (g a)

theorem gather {f : α → Lookup (List β)} (hf : ∀ a, M (f a)) (as : List α) : M (gather f as) := by
  induction as with
  | nil => exact closed.pure []
  | cons a as ih => exact closed.bind (hf a) fun _ => closed.bind ih fun _ => closed.pure _

theorem collect {f : α → Lookup (Option β)} (hf : ∀ a, M (f a)) (as : List α) :
    M (collect f as) := closed.gather (fun a => closed.map (hf a) _) as

theorem requireNames (field : String) (names : List String) : M (requireNames field names) := by
  unfold Lookup.requireNames
  split
  · exact closed.refuse _
  · exact closed.pure ()

theorem requireIds (ids : List (EntityId k)) : M (requireIds ids) := by
  unfold Lookup.requireIds
  split
  · exact closed.requireNames _ _
  · exact closed.pure ()

theorem requireOrder (start stop : Instant) : M (requireOrder start stop) := by
  unfold Lookup.requireOrder
  split
  · exact closed.refuse _
  · exact closed.pure ()

end Closed

end Lookup

open Lookup

variable {k : Kind} {w : TimeRange} {M : {α : Type} → Lookup α → Prop} {t : Instant}

namespace Cached

/-- In the window, what the cache answers of the wanted entities. -/
def recallWanted (resolve : Entity k → Lookup (Option (Entity k))) (window : TimeRange)
    (wanted : List (EntityId k)) (t : Instant) : Lookup (List (Entity k)) :=
  if window.contains t then collect (answerAt resolve t) wanted else pure []

/-- The wanted entities that are not among those answered. -/
def unanswered (wanted : List (EntityId k)) (answered : List (Entity k)) : List (EntityId k) :=
  wanted.filter fun id => !answered.any (·.id = id)

theorem mem_unanswered {wanted : List (EntityId k)} {answered : List (Entity k)}
    {id : EntityId k} :
    id ∈ unanswered wanted answered ↔ id ∈ wanted ∧ ∀ e ∈ answered, e.id ≠ id := by
  simp only [unanswered, List.mem_filter, Bool.not_eq_true', List.any_eq_false, decide_eq_true_eq,
    ne_eq]

/-- What one call finds of the missing entities; there is no call when none is missing. -/
def fetchMissing (resolve : Entity k → Lookup (Option (Entity k))) (window : TimeRange)
    (missing : List (EntityId k)) (t : Instant) : Lookup (List (Entity k)) :=
  if missing.isEmpty then pure [] else fetchAt window k missing t >>= collect resolve

theorem pointLookup_eq (resolve : Entity k → Lookup (Option (Entity k))) (ids : List (EntityId k))
    (t : Instant) :
    pointLookup resolve ids t = (do
      requireIds ids
      let s ← get
      let wanted := EntityId.distinct ids
      let answered ← recallWanted resolve s.window wanted t
      let fetched ← fetchMissing resolve s.window (unanswered wanted answered) t
      return Entity.distinctVersions (answered ++ fetched)) := by
  simp only [pointLookup, recallWanted, fetchMissing, ite_bind]
  rfl

/-- How the children of an entity are resolved as of an instant. -/
def resolveAt (t : Instant) : (k : Kind) → Entity k → Lookup (Option (Entity k))
  | .stationGroup => resolveStationGroup t
  | .station => resolveStation t
  | .channelGroup => resolveGroup t
  | .channel => resolveChannel t
  | .response => fun e => return some e

theorem findAt_eq_pointLookup (ids : List (EntityId k)) (t : Instant) :
    findAt k ids t = pointLookup (resolveAt t k) ids t := by
  cases k <;> rfl

/-- What filling the cache looks up, once the cache has been emptied. -/
def cascade (roots : List (EntityId .stationGroup)) (start stop : Instant) : Lookup Unit := do
  let stationGroups ← findWithin .stationGroup roots start stop
  let stations ← findWithin .station (stationGroups.flatMap fun g => g.stations.map (·.id))
    start stop
  let groups ← findWithin .channelGroup (stations.flatMap fun s => s.groups.map (·.id)) start stop
  let channels ← findWithin .channel (groups.flatMap fun g => g.channels.map (·.id)) start stop
  let _ ← findWithin .response (channels.filterMap fun c => c.response?.map (·.id)) start stop

/-- From the window `w`, how a lookup at `t` asks the cache and the repository for entities of a
kind; the cache is asked in the window alone. -/
structure PointParts (w : TimeRange) (M : {α : Type} → Lookup α → Prop) (t : Instant) (k : Kind) :
    Prop where
  cached (inside : w.contains t = true) (id : EntityId k) : M (recallAt k id t)
  fetch (ids : List (EntityId k)) : M (fetchAt w k ids t)

/-- From the window `w`, how a lookup over a time range asks the cache and the repository for
entities of a kind. -/
structure RangeParts (w : TimeRange) (M : {α : Type} → Lookup α → Prop) (k : Kind) : Prop where
  cached (id : EntityId k) : M (recallWithin k id)
  fetch (ids : List (EntityId k)) (start stop : Instant) : M (fetchWithin w k ids start stop)

end Cached

namespace Lookup.Closed

open Cached

variable (closed : Closed w M)

include closed

section

variable (parts : PointParts w M t k) {resolve : Entity k → Lookup (Option (Entity k))}
  (hresolve : ∀ e, M (resolve e))

include parts hresolve

theorem answerAt (inside : w.contains t = true) (id : EntityId k) : M (answerAt resolve t id) := by
  apply closed.bind (parts.cached inside id)
  intro found
  cases found with
  | none => exact closed.pure none
  | some e => exact hresolve e

theorem recallWanted (wanted : List (EntityId k)) : M (recallWanted resolve w wanted t) := by
  unfold Cached.recallWanted
  split
  next inside => exact closed.collect (closed.answerAt parts hresolve inside) wanted
  next => exact closed.pure []

theorem fetchMissing (missing : List (EntityId k)) : M (fetchMissing resolve w missing t) := by
  unfold Cached.fetchMissing
  split
  · exact closed.pure []
  · exact closed.bind (parts.fetch missing) (closed.collect hresolve)

/-- A point lookup is composed of what its own kind asks, and of how children are resolved. -/
theorem pointLookup (ids : List (EntityId k)) : M (pointLookup resolve ids t) := by
  rw [pointLookup_eq]
  refine closed.bind (closed.requireIds ids) fun _ => closed.window ?_ ?_
  · intro s s' same
    rw [same]
  · intro s hs
    rw [hs]
    exact closed.bind (closed.recallWanted parts hresolve _) fun _ =>
      closed.bind (closed.fetchMissing parts hresolve _) fun _ => closed.pure _

end

/-- Resolving the children of an entity is composed of lookups of the kinds below its own. -/
theorem resolveAt (below : ∀ j, k.rank < j.rank → ∀ ids, M (findAt j ids t)) (e : Entity k) :
    M (resolveAt t k e) := by
  cases k with
  | response => exact closed.pure (some e)
  | channel =>
      change M (resolveChannel t e)
      unfold resolveChannel
      split
      · exact closed.pure _
      · refine closed.bind (below .response (by decide) _) fun found => ?_
        split
        · exact closed.pure _
        · exact closed.pure _
  | channelGroup =>
      change M (resolveGroup t e)
      unfold resolveGroup
      split
      · refine closed.bind (below .channel (by decide) _) fun channels => ?_
        split
        · exact closed.pure none
        · exact closed.pure _
      · exact closed.pure _
  | station =>
      change M (resolveStation t e)
      unfold resolveStation
      split
      · refine closed.bind (below .channel (by decide) _) fun channels =>
          closed.bind (below .channelGroup (by decide) _) fun groups => ?_
        dsimp only
        split
        · exact closed.pure none
        · exact closed.pure _
      · exact closed.pure _
  | stationGroup =>
      change M (resolveStationGroup t e)
      unfold resolveStationGroup
      split
      · refine closed.bind (below .station (by decide) _) fun stations => ?_
        split
        · exact closed.pure none
        · exact closed.pure _
      · exact closed.pure _

/-- A lookup at an instant is composed of what its own kind and the kinds below it ask. -/
theorem findAt_of_rank (parts : ∀ j, k.rank ≤ j.rank → PointParts w M t j)
    (ids : List (EntityId k)) : M (findAt k ids t) := by
  induction k using Kind.upward with
  | h k below =>
      rw [findAt_eq_pointLookup]
      refine closed.pointLookup (parts k (Nat.le_refl _)) (closed.resolveAt ?_) ids
      exact fun j hj => below j hj fun i hi => parts i (Nat.le_trans (Nat.le_of_lt hj) hi)

theorem findAt (parts : ∀ k, PointParts w M t k) (k : Kind) (ids : List (EntityId k)) :
    M (Cached.findAt k ids t) := closed.findAt_of_rank (fun j _ => parts j) ids

theorem fetchGap (parts : RangeParts w M k) (id : EntityId k) (gap : TimeRange) :
    M (fetchGap w k id gap) := by
  unfold Cached.fetchGap
  split
  · exact parts.fetch [id] _ _
  · exact closed.pure []

section

variable (parts : RangeParts w M k) {resolve : Entity k → Lookup (Option (Entity k))}
  (hresolve : ∀ e, M (resolve e)) (start stop : Instant)

include parts hresolve

theorem versionsWithin (id : EntityId k) : M (versionsWithin resolve w start stop id) :=
  closed.bind (parts.cached id) fun _ =>
    closed.bind (closed.collect (fun e : TimeRange × Entity k => hresolve e.2) _) fun _ =>
    closed.bind (closed.gather (closed.fetchGap parts id) _) fun _ => closed.pure _

theorem rangeLookup (ids : List (EntityId k)) : M (rangeLookup resolve ids start stop) := by
  refine closed.bind (closed.requireIds ids) fun _ =>
    closed.bind (closed.requireOrder start stop) fun _ => closed.window ?_ ?_
  · intro s s' same
    rw [same]
  · intro s hs
    rw [hs]
    exact closed.bind (closed.gather (closed.versionsWithin parts hresolve start stop) _)
      fun _ => closed.pure _

end

section

variable (points : ∀ t k, PointParts w M t k) (ranges : ∀ k, RangeParts w M k)

include points

theorem resolveCachedStation (e : Entity .station) : M (resolveCachedStation e) := by
  unfold Cached.resolveCachedStation
  split
  · refine closed.bind (closed.findAt (points _) .channelGroup _) fun found => ?_
    dsimp only
    split
    · exact closed.pure none
    · exact closed.pure _
  · exact closed.pure _

include ranges

theorem findWithin (k : Kind) (ids : List (EntityId k)) (start stop : Instant) :
    M (Cached.findWithin k ids start stop) := by
  cases k with
  | station =>
      exact closed.rangeLookup (ranges _) (closed.resolveCachedStation points) start stop ids
  | stationGroup | channelGroup | channel | response =>
      exact closed.rangeLookup (ranges _) (fun e => closed.pure (some e)) start stop ids

theorem findChangeTimes (station : EntityId .station) (start stop : Instant) :
    M (Cached.findChangeTimes station start stop) :=
  closed.bind (closed.requireNames _ _) fun _ =>
    closed.bind (closed.requireOrder start stop) fun _ =>
    closed.bind (closed.findWithin points ranges .station _ start stop) fun _ =>
    closed.bind (closed.findWithin points ranges .channelGroup _ start stop) fun _ =>
    closed.bind (closed.findWithin points ranges .channel _ start stop) fun _ =>
    closed.bind (closed.findWithin points ranges .response _ start stop) fun _ => closed.pure _

/-- What filling the cache looks up is composed of lookups over the range, one for each kind. -/
theorem cascade (roots : List (EntityId .stationGroup)) (start stop : Instant) :
    M (Cached.cascade roots start stop) := by
  have found := fun k ids => closed.findWithin points ranges k ids start stop
  exact closed.bind (found _ _) fun _ => closed.bind (found _ _) fun _ => closed.bind (found _ _)
    fun _ => closed.bind (found _ _) fun _ => closed.bind (found _ _) fun _ => closed.pure ()

end

section

open Populate

variable {find : Finder}

theorem facet (hfind : ∀ k ids, M (find k ids t))
    {children : Faceting → Entity k → Lookup (Option (Entity k))}
    (hchildren : ∀ f e, M (children f e)) (f : Faceting) (e : Entity k) :
    M (facet find t children f e) := by
  have hpresent : M (present find t e) := by
    unfold present
    split
    · exact closed.pure _
    · exact closed.bind (hfind k _) fun _ => closed.pure _
  by_cases hkind : f.kind = k
  · simp only [Populate.facet, ne_eq, hkind, not_true_eq_false, if_false]
    split
    · exact closed.pure _
    · refine closed.bind hpresent fun found => ?_
      cases found with
      | none => exact closed.pure none
      | some x =>
          dsimp only
          split
          · exact hchildren f x
          · exact closed.pure _
  · simp only [Populate.facet, ne_eq, hkind, not_false_eq_true, if_true, throw_bind]
    exact closed.refuse _

theorem facetAll {one : Faceting → Entity k → Lookup (Option (Entity k))}
    (hone : ∀ f e, M (one f e)) (f : Option Faceting) (es : List (Entity k)) :
    M (facetAll one f es) := by
  cases f with
  | none => exact closed.pure es
  | some f => exact closed.collect (hone f) es

variable (hfind : ∀ k ids, M (find k ids t))

include hfind

theorem populateResponse (f : Faceting) (e : Entity .response) : M (response find t f e) :=
  closed.facet hfind (fun _ e => closed.pure (some e)) f e

theorem populateChannel (f : Faceting) (e : Entity .channel) : M (channel find t f e) := by
  refine closed.facet hfind ?_ f e
  intro f e
  split
  · exact closed.bind (closed.populateResponse hfind _ _) fun _ => closed.pure _
  · exact closed.pure _

theorem populateGroup (f : Faceting) (e : Entity .channelGroup) :
    M (channelGroup find t f e) := by
  refine closed.facet hfind ?_ f e
  intro f e
  apply closed.bind (closed.facetAll (closed.populateChannel hfind) _ _)
  intro channels
  split
  · exact closed.pure none
  · exact closed.pure _

theorem populateStation (f : Faceting) (e : Entity .station) : M (station find t f e) := by
  refine closed.facet hfind ?_ f e
  intro f e
  refine closed.bind (closed.facetAll (closed.populateGroup hfind) _ _) fun groups =>
    closed.bind (closed.facetAll (closed.populateChannel hfind) _ _) ?_
  intro channels
  dsimp only
  split
  · exact closed.pure none
  · exact closed.pure _

theorem populateStationGroup (f : Faceting) (e : Entity .stationGroup) :
    M (stationGroup find t f e) := by
  refine closed.facet hfind ?_ f e
  intro f e
  apply closed.bind (closed.facetAll (closed.populateStation hfind) _ _)
  intro stations
  split
  · exact closed.pure none
  · exact closed.pure _

/-- Populating an entity is composed of the lookups it makes. -/
theorem entity (k : Kind) (f : Faceting) (e : Entity k) : M (entity find t k f e) := by
  cases k with
  | stationGroup => exact closed.populateStationGroup hfind f e
  | station => exact closed.populateStation hfind f e
  | channelGroup => exact closed.populateGroup hfind f e
  | channel => exact closed.populateChannel hfind f e
  | response => exact closed.populateResponse hfind f e

end

theorem findFaceted (parts : ∀ k, PointParts w M t k) (k : Kind) (ids : List (EntityId k))
    (f : Faceting) : M (Cached.findFaceted k ids t f) := by
  refine closed.bind (closed.findAt parts k ids) fun found => ?_
  exact closed.bind (closed.collect (closed.entity (closed.findAt parts) k f) found)
    fun _ => closed.pure _

end Lookup.Closed

namespace Memoised

/-- Answers a request from what is remembered of it, or else passes it on. -/
def consult (slot : Slot) (request : Request)
    (again : List slot.Result → Lookup (List slot.Result)) (ask : Lookup (List slot.Result)) :
    Lookup (List slot.Result) := do
  match ← retrieve slot request with
  | some results => again results
  | none => learn slot request ask

theorem findFaceted_eq_consult (ids : List (EntityId k)) (t : Instant) (f : Faceting) :
    findFaceted k ids t f = (do
      requireIds ids
      consult (.entities k) (.ofIds ids (.at t) (some f))
        (fun results => return dropRepeated [] (← collect (Populate.entity findAt t k f) results))
        (Cached.findFaceted k ids t f)) := by
  unfold findFaceted consult
  refine congrArg (requireIds ids >>= ·) ?_
  funext _
  refine congrArg (retrieve (.entities k) (.ofIds ids (.at t) (some f)) >>= ·) ?_
  funext found
  cases found with
  | none => rfl
  | some results => rfl

/-- A lookup with a property of its own may be passed on by the request cache. -/
def Consults (M N : {α : Type} → Lookup α → Prop) : Prop :=
  ∀ (slot : Slot) (request : Request) {again : List slot.Result → Lookup (List slot.Result)}
    {ask : Lookup (List slot.Result)}, (∀ results, M (again results)) → N ask →
    M (consult slot request again ask)

end Memoised

namespace Lookup.Closed

open Memoised

variable {N : {α : Type} → Lookup α → Prop} (closed : Closed w M) (asks : Closed w N)
  (consults : Consults M N)

include closed asks consults

theorem memoisedFindAt (parts : ∀ k, Cached.PointParts w N t k) (k : Kind)
    (ids : List (EntityId k)) : M (Memoised.findAt k ids t) :=
  closed.bind (closed.requireIds ids) fun _ =>
    consults _ _ (fun results => closed.pure results) (asks.findAt parts k ids)

theorem memoisedFindFaceted (parts : ∀ k, Cached.PointParts w N t k) (k : Kind)
    (ids : List (EntityId k)) (f : Faceting) : M (Memoised.findFaceted k ids t f) := by
  rw [findFaceted_eq_consult]
  refine closed.bind (closed.requireIds ids) fun _ =>
    consults _ _ (fun results => ?_) (asks.findFaceted parts k ids f)
  have found := closed.memoisedFindAt asks consults parts
  exact closed.bind (closed.collect (closed.entity found k f) results) fun _ => closed.pure _

variable (points : ∀ t k, Cached.PointParts w N t k) (ranges : ∀ k, Cached.RangeParts w N k)

include points ranges

theorem memoisedFindWithin (k : Kind) (ids : List (EntityId k)) (start stop : Instant) :
    M (Memoised.findWithin k ids start stop) :=
  closed.bind (closed.requireIds ids) fun _ =>
    closed.bind (closed.requireOrder start stop) fun _ =>
    consults _ _ (fun results => closed.pure results)
      (asks.findWithin points ranges k ids start stop)

theorem memoisedFindChangeTimes (station : EntityId .station) (start stop : Instant) :
    M (Memoised.findChangeTimes station start stop) :=
  closed.bind (closed.requireNames _ _) fun _ =>
    closed.bind (closed.requireOrder start stop) fun _ =>
    consults _ _ (fun results => closed.pure results)
      (asks.findChangeTimes points ranges station start stop)

end Lookup.Closed

end StationCatalog
