import StationCatalog.Proofs.ComposedLookups
import StationCatalog.Proofs.Effects

/-!
Every lookup of the caching tiers is traced by what lookups do to a stack, however its nested
lookups unfold and wherever one of them fails.
-/

namespace StationCatalog

open Lookup

variable {k : Kind} {R : Stack → Stack → Prop} {w : TimeRange}

theorem Lookup.Traced.closed : Closed w (Traced R w) where
  pure := .pure
  refuse _ := .throw _
  bind := .bind
  window _ hf := .get_bind hf

namespace Cached

theorem traced_pointParts (hR : ∀ s s', Stack.Effect k s s' → R s s') (t : Instant) :
    PointParts w (Traced R w) t k where
  cached _ id := traced_recallAt hR id t
  fetch ids := traced_fetchAt hR ids t

theorem traced_rangeParts (hR : ∀ s s', Stack.Effect k s s' → R s s') :
    RangeParts w (Traced R w) k where
  cached id := by
    refine .get_bind ?_
    intro s _
    split
    · exact .pure _
    · exact .pure []
  fetch := traced_fetchWithin hR

theorem traced_answerAt (hR : ∀ s s', Stack.Effect k s s' → R s s')
    {resolve : Entity k → Lookup (Option (Entity k))} (hresolve : ∀ e, Traced R w (resolve e))
    (t : Instant) (id : EntityId k) : Traced R w (answerAt resolve t id) := by
  apply (traced_recallAt hR id t).bind
  intro found
  cases found with
  | none => exact .pure none
  | some e => exact hresolve e

section

variable (hR : ∀ s s', Stack.Effect k s s' → R s s')
  {resolve : Entity k → Lookup (Option (Entity k))} (hresolve : ∀ e, Traced R w (resolve e))

include hR

theorem traced_fetchGap (id : EntityId k) (gap : TimeRange) : Traced R w (fetchGap w k id gap) :=
  Traced.closed.fetchGap (traced_rangeParts hR) id gap

include hresolve

theorem traced_fetchMissing (missing : List (EntityId k)) (t : Instant) :
    Traced R w (fetchMissing resolve w missing t) :=
  Traced.closed.fetchMissing (traced_pointParts hR t) hresolve missing

theorem traced_versionsWithin (start stop : Instant) (id : EntityId k) :
    Traced R w (versionsWithin resolve w start stop id) :=
  Traced.closed.versionsWithin (traced_rangeParts hR) hresolve start stop id

theorem traced_rangeLookup (ids : List (EntityId k)) (start stop : Instant) :
    Traced R w (rangeLookup resolve ids start stop) :=
  Traced.closed.rangeLookup (traced_rangeParts hR) hresolve start stop ids

end

/-- Resolving the children of an entity does what lookups of the kinds below its own do. -/
theorem traced_resolveAt_of_rank (hR : ∀ j, k.rank < j.rank → ∀ s s', Stack.Effect j s s' → R s s')
    (t : Instant) (e : Entity k) : Traced R w (resolveAt t k e) := by
  refine Traced.closed.resolveAt (fun j hj ids => ?_) e
  refine Traced.closed.findAt_of_rank (fun i hi => ?_) ids
  exact traced_pointParts (hR i (Nat.lt_of_lt_of_le hj hi)) t

section

variable (hR : ∀ k s s', Stack.Effect k s s' → R s s')

include hR

theorem traced_findAt (k : Kind) (ids : List (EntityId k)) (t : Instant) :
    Traced R w (findAt k ids t) :=
  Traced.closed.findAt (fun k => traced_pointParts (hR k) t) k ids

theorem traced_resolveAt (t : Instant) (k : Kind) (e : Entity k) :
    Traced R w (resolveAt t k e) :=
  traced_resolveAt_of_rank (fun j _ => hR j) t e

theorem traced_resolveCachedStation (e : Entity .station) :
    Traced R w (resolveCachedStation e) :=
  Traced.closed.resolveCachedStation (fun t k => traced_pointParts (hR k) t) e

theorem traced_findWithin (k : Kind) (ids : List (EntityId k)) (start stop : Instant) :
    Traced R w (findWithin k ids start stop) :=
  Traced.closed.findWithin (fun t k => traced_pointParts (hR k) t)
    (fun k => traced_rangeParts (hR k)) k ids start stop

theorem traced_findChangeTimes (station : EntityId .station) (start stop : Instant) :
    Traced R w (findChangeTimes station start stop) :=
  Traced.closed.findChangeTimes (fun t k => traced_pointParts (hR k) t)
    (fun k => traced_rangeParts (hR k)) station start stop

theorem traced_cascade (roots : List (EntityId .stationGroup)) (start stop : Instant) :
    Traced R w (cascade roots start stop) :=
  Traced.closed.cascade (fun t k => traced_pointParts (hR k) t)
    (fun k => traced_rangeParts (hR k)) roots start stop

theorem traced_findFaceted (k : Kind) (ids : List (EntityId k)) (t : Instant) (f : Faceting) :
    Traced R w (findFaceted k ids t f) :=
  Traced.closed.findFaceted (fun k => traced_pointParts (hR k) t) k ids f

end

end Cached

/-- Populating an entity does to a stack what the lookups it makes do. -/
theorem Populate.traced_entity {find : Finder} (hfind : ∀ k ids t, Traced R w (find k ids t))
    (t : Instant) (k : Kind) (f : Faceting) (e : Entity k) : Traced R w (entity find t k f e) :=
  Traced.closed.entity (fun k ids => hfind k ids t) k f e

namespace Memoised

variable (hR : ∀ k s s', Stack.Effect k s s' → R s s')
  (hC : ∀ (s : Stack) (c : RequestCache), R s { s with requestCache := c })

section

include hC

theorem traced_retrieve (slot : Slot) (request : Request) : Traced R w (retrieve slot request) :=
  fun s hs => ⟨hs, .single (hC s _)⟩

theorem traced_consult : Consults (Traced R w) (Traced R w) := by
  intro slot request again ask hagain hask
  apply (traced_retrieve hC slot request).bind
  intro found
  cases found with
  | none =>
      refine hask.bind fun results => Traced.bind ?_ fun _ => .pure results
      exact fun s hs => ⟨hs, .single (hC s _)⟩
  | some results => exact hagain results

end

include hR hC

theorem traced_findAt (k : Kind) (ids : List (EntityId k)) (t : Instant) :
    Traced R w (findAt k ids t) :=
  Traced.closed.memoisedFindAt Traced.closed (traced_consult hC)
    (fun k => Cached.traced_pointParts (hR k) t) k ids

theorem traced_findWithin (k : Kind) (ids : List (EntityId k)) (start stop : Instant) :
    Traced R w (findWithin k ids start stop) :=
  Traced.closed.memoisedFindWithin Traced.closed (traced_consult hC)
    (fun t k => Cached.traced_pointParts (hR k) t) (fun k => Cached.traced_rangeParts (hR k))
    k ids start stop

theorem traced_findFaceted (k : Kind) (ids : List (EntityId k)) (t : Instant) (f : Faceting) :
    Traced R w (findFaceted k ids t f) :=
  Traced.closed.memoisedFindFaceted Traced.closed (traced_consult hC)
    (fun k => Cached.traced_pointParts (hR k) t) k ids f

theorem traced_findChangeTimes (station : EntityId .station) (start stop : Instant) :
    Traced R w (findChangeTimes station start stop) :=
  Traced.closed.memoisedFindChangeTimes Traced.closed (traced_consult hC)
    (fun t k => Cached.traced_pointParts (hR k) t) (fun k => Cached.traced_rangeParts (hR k))
    station start stop

end Memoised

end StationCatalog
