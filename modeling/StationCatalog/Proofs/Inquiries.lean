import StationCatalog.Proofs.ArgumentChecks
import StationCatalog.Proofs.Ascending
import StationCatalog.Proofs.ComposedLookups

/-!
Inquiries: everything a tier with a cache can be asked, in one type. On the tier with a request
cache each comes down to the same steps: its arguments are checked, and what is remembered of its
request is consulted before it is passed on.
-/

namespace StationCatalog

open Lookup

/-- What a tier with a cache is asked, by what it answers with. -/
inductive Inquiry : Slot → Type
  | plain {k : Kind} (ids : List (EntityId k)) (time : RequestTime) : Inquiry (.entities k)
  | faceted {k : Kind} (ids : List (EntityId k)) (t : Instant) (f : Faceting) :
    Inquiry (.entities k)
  | changeTimes (station : EntityId .station) (start stop : Instant) : Inquiry .changeTimes

namespace Inquiry

variable {slot : Slot}

/-- The request that an inquiry is remembered by. -/
def request : {slot : Slot} → Inquiry slot → Request
  | _, plain ids time => .ofIds ids time none
  | _, faceted ids t f => .ofIds ids (.at t) (some f)
  | .changeTimes, changeTimes station start stop => .ofIds [station] (.within start stop) none

/-- How a tier answers an inquiry. -/
def lookup (tier : CachingTier) : {slot : Slot} → Inquiry slot → Lookup (List slot.Result)
  | .entities k, plain ids time => tier.find k ids time
  | .entities k, faceted ids t f => tier.findFaceted k ids t f
  | .changeTimes, changeTimes station start stop => tier.findChangeTimes station start stop

/-- Neither the names nor the time of an inquiry are to be refused. -/
def Valid : {slot : Slot} → Inquiry slot → Prop
  | _, plain ids time => ValidArguments ids time
  | _, faceted ids t _ => ValidArguments ids (.at t)
  | .changeTimes, changeTimes station start stop => ValidArguments [station] (.within start stop)

/-- What comes of remembered results: faceted ones are faceted again. -/
def again : {slot : Slot} → Inquiry slot → List slot.Result → Lookup (List slot.Result)
  | _, plain .. => pure
  | .entities k, faceted _ t f => fun results =>
    return Memoised.dropRepeated [] (← collect (Populate.entity Memoised.findAt t k f) results)
  | .changeTimes, changeTimes .. => pure

/-- Two inquiries after the same entities at the same time, under the same faceting if any; the
order and the repetition of identifiers may differ. -/
inductive Repeats : {slot : Slot} → Inquiry slot → Inquiry slot → Prop
  | plain {k : Kind} {ids ids' : List (EntityId k)} (same : ∀ id, id ∈ ids ↔ id ∈ ids')
    (time : RequestTime) : Repeats (.plain ids time) (.plain ids' time)
  | faceted {k : Kind} {ids ids' : List (EntityId k)} (same : ∀ id, id ∈ ids ↔ id ∈ ids')
    (t : Instant) (f : Faceting) : Repeats (.faceted ids t f) (.faceted ids' t f)
  | changeTimes (station : EntityId .station) (start stop : Instant) :
    Repeats (.changeTimes station start stop) (.changeTimes station start stop)

end Inquiry

theorem EntityId.distinct_congr {k : Kind} {ids ids' : List (EntityId k)}
    (same : ∀ id, id ∈ ids ↔ id ∈ ids') : distinct ids = distinct ids' := by
  refine Sorted.eq_of_mem_iff (pairwise_distinct ids) (pairwise_distinct ids') fun id => ?_
  rw [mem_distinct, mem_distinct, same]

theorem ValidArguments.congr {k : Kind} {ids ids' : List (EntityId k)} {time : RequestTime}
    (same : ∀ id, id ∈ ids ↔ id ∈ ids') (h : ValidArguments ids time) :
    ValidArguments ids' time :=
  ⟨fun some id hid => h.named some id ((same id).2 hid), h.ordered⟩

namespace Lookup

/-- What a lookup of change times does first. -/
def requireStation (station : EntityId .station) (start stop : Instant) : Lookup Unit := do
  requireNames "station.name" [station.text]
  requireOrder start stop

variable {station : EntityId .station} {start stop : Instant}

theorem requireStation_of_valid (h : ValidArguments [station] (.within start stop)) :
    requireStation station start stop = pure () := by
  have named : ([station.text].any isBlank) = false := by
    rw [List.any_cons, h.named rfl station List.mem_cons_self]
    rfl
  have inOrder : ¬stop < start := Int.not_lt.2 h.ordered
  rw [requireStation, requireNames, named, requireOrder, if_neg inOrder]
  rfl

theorem requireStation_of_not_valid (h : ¬ValidArguments [station] (.within start stop)) :
    ∃ e, requireStation station start stop = throw (.validation e) := by
  cases blank : isBlank station.text with
  | true =>
      refine ⟨.requiredFieldMissing "station.name", ?_⟩
      rw [requireStation, requireNames, List.any_cons, blank]
      rfl
  | false =>
      have reversed : stop < start := by
        refine Int.not_le.1 fun ordered => h ⟨fun _ id hid => ?_, ordered⟩
        rw [List.mem_singleton.1 hid, blank]
      refine ⟨.invalidTimeRange start stop, ?_⟩
      rw [requireStation, requireNames, List.any_cons, blank, requireOrder, if_pos reversed]
      rfl

end Lookup

namespace Inquiry

variable {slot : Slot} {q q' : Inquiry slot}

theorem Repeats.symm (h : q.Repeats q') : q'.Repeats q := by
  cases h with
  | plain same time => exact .plain (fun id => (same id).symm) time
  | faceted same t f => exact .faceted (fun id => (same id).symm) t f
  | changeTimes station start stop => exact .changeTimes station start stop

theorem Repeats.request_eq (h : q.Repeats q') : q'.request = q.request := by
  cases h with
  | plain same time | faceted same t f =>
      simp only [request, Request.ofIds, EntityId.distinct_congr same]
  | changeTimes => rfl

theorem Repeats.valid (h : q.Repeats q') (valid : q.Valid) : q'.Valid := by
  cases h with
  | plain same time | faceted same t f => exact ValidArguments.congr same valid
  | changeTimes => exact valid

theorem Repeats.again_eq (h : q.Repeats q') : q'.again = q.again := by
  cases h <;> rfl

/-- What an inquiry does first. -/
def check : {slot : Slot} → Inquiry slot → Lookup Unit
  | _, plain ids time => requireValid ids time
  | _, faceted ids t _ => requireValid ids (.at t)
  | _, changeTimes station start stop => requireStation station start stop

theorem check_of_valid (valid : q.Valid) : q.check = pure () := by
  cases q with
  | plain | faceted => exact requireValid_of_valid valid
  | changeTimes => exact requireStation_of_valid valid

theorem check_of_not_valid (invalid : ¬q.Valid) : ∃ e, q.check = throw (.validation e) := by
  cases q with
  | plain | faceted => exact requireValid_of_not_valid invalid
  | changeTimes => exact requireStation_of_not_valid invalid

/-- Every inquiry checks its arguments before it goes on. -/
theorem exists_lookup_eq (q : Inquiry slot) (tier : CachingTier) :
    ∃ x, q.lookup tier = q.check >>= fun _ => x := by
  cases q with
  | plain ids time => exact tier.exists_find_eq _ ids time
  | faceted ids t f =>
      cases tier with
      | memoised => exact ⟨_, Memoised.findFaceted_eq_consult ids t f⟩
      | cached =>
          obtain ⟨x, same⟩ := CachingTier.cached.exists_find_eq _ ids (.at t)
          change ∃ y, (CachingTier.cached.find _ ids (.at t) >>= fun found => _) = _
          rw [same, bind_assoc]
          exact ⟨_, rfl⟩
  | changeTimes station start stop =>
      simp only [check, requireStation, bind_assoc]
      cases tier <;> exact ⟨_, rfl⟩

/-- Invalid inquiries are refused at once. -/
theorem perform_lookup_of_not_valid (invalid : ¬q.Valid) :
    ∃ e, ∀ (tier : CachingTier) s, (q.lookup tier).perform s = (.error (.validation e), s) := by
  obtain ⟨e, refused⟩ := check_of_not_valid invalid
  refine ⟨e, fun tier s => ?_⟩
  obtain ⟨x, same⟩ := q.exists_lookup_eq tier
  rw [same, refused]
  rfl

/-- On the tier with a request cache, valid inquiries consult what is remembered. -/
theorem lookup_memoised (valid : q.Valid) :
    q.lookup .memoised = Memoised.consult slot q.request q.again (q.lookup .cached) := by
  have checked : q.lookup .memoised = q.check >>= fun _ =>
      Memoised.consult slot q.request q.again (q.lookup .cached) := by
    cases q with
    | plain ids time =>
        rw [check, requireValid_of_valid valid, pure_bind]
        exact CachingTier.find_memoised_of_valid valid
    | faceted ids t f => exact Memoised.findFaceted_eq_consult ids t f
    | changeTimes station start stop =>
        rw [check, requireStation, bind_assoc]
        rfl
  rw [checked, check_of_valid valid, pure_bind]

end Inquiry

namespace Lookup.Closed

variable {slot : Slot} {w : TimeRange} {M N : {α : Type} → Lookup α → Prop} (closed : Closed w M)

include closed

/-- What composing lookups keeps is a property of every inquiry to the version cache. -/
theorem cachedInquiry (points : ∀ t k, Cached.PointParts w M t k)
    (ranges : ∀ k, Cached.RangeParts w M k) (q : Inquiry slot) : M (q.lookup .cached) := by
  cases q with
  | plain ids time =>
      cases time with
      | «at» t => exact closed.findAt (points t) _ ids
      | within start stop => exact closed.findWithin points ranges _ ids start stop
  | faceted ids t f => exact closed.findFaceted (points t) _ ids f
  | changeTimes station start stop => exact closed.findChangeTimes points ranges station start stop

/-- Likewise of every inquiry to the request cache, given what happens as one is passed on. -/
theorem memoisedInquiry (asks : Closed w N) (consults : Memoised.Consults M N)
    (points : ∀ t k, Cached.PointParts w N t k) (ranges : ∀ k, Cached.RangeParts w N k)
    (q : Inquiry slot) : M (q.lookup .memoised) := by
  cases q with
  | plain ids time =>
      cases time with
      | «at» t => exact closed.memoisedFindAt asks consults (points t) _ ids
      | within start stop =>
          exact closed.memoisedFindWithin asks consults points ranges _ ids start stop
  | faceted ids t f => exact closed.memoisedFindFaceted asks consults (points t) _ ids f
  | changeTimes station start stop =>
      exact closed.memoisedFindChangeTimes asks consults points ranges station start stop

end Lookup.Closed

end StationCatalog
