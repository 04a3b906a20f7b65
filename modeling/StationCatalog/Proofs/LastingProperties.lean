import StationCatalog.Proofs.FacetRelations
import StationCatalog.Proofs.Inquiries
import StationCatalog.Proofs.Runs

/-!
Properties of stacks that last. Where a property rests on the cached versions and the remembered
results alone, and every inquiry keeps it, it lasts over whole runs: only what is written by hand or
forgotten has to be looked at.
-/

namespace StationCatalog

open Lookup

variable {P : Stack → Prop}

/-- The operation forgets the cached versions. -/
def Operation.isForgetting : Operation → Bool
  | warm .. | clearVersions => true
  | _ => false

/-- What each step keeps, a traced lookup keeps. -/
theorem Lookup.Yields.of_traced {α : Type} {x : Lookup α}
    (hx : ∀ w, Traced (fun s s' => P s → P s') w x) : Yields P x fun _ => True := by
  intro s hs
  refine ⟨?_, fun _ _ => trivial⟩
  have steps := (hx s.window s rfl).2
  generalize (x.perform s).2 = s' at steps
  induction steps with
  | refl => exact hs
  | tail _ step ih => exact step ih

/-- An inquiry is traced by what its parts do to a stack and by changes of the request cache. -/
theorem Inquiry.traced_of_parts {R : Stack → Stack → Prop} {w : TimeRange} {slot : Slot}
    (points : ∀ t k, Cached.PointParts w (Traced R w) t k)
    (ranges : ∀ k, Cached.RangeParts w (Traced R w) k)
    (hC : ∀ (s : Stack) (c : RequestCache), R s { s with requestCache := c }) (q : Inquiry slot)
    (tier : CachingTier) : Traced R w (q.lookup tier) := by
  cases tier with
  | cached => exact Traced.closed.cachedInquiry points ranges q
  | memoised =>
      exact Traced.closed.memoisedInquiry Traced.closed (Memoised.traced_consult hC) points ranges q

/-- Every inquiry is traced by what lookups do to a stack and by changes of the request cache. -/
theorem Inquiry.traced {R : Stack → Stack → Prop} {w : TimeRange} {slot : Slot}
    (hR : ∀ k s s', Stack.Effect k s s' → R s s')
    (hC : ∀ (s : Stack) (c : RequestCache), R s { s with requestCache := c }) (q : Inquiry slot)
    (tier : CachingTier) : Traced R w (q.lookup tier) :=
  q.traced_of_parts (fun t k => Cached.traced_pointParts (hR k) t)
    (fun k => Cached.traced_rangeParts (hR k)) hC tier

namespace Stack

/-- A property that rests on the cached versions and the remembered results alone, that stays when
results are forgotten, and that every inquiry keeps. -/
structure Lasting (P : Stack → Prop) : Prop where
  rests {s s' : Stack} (hs : P s) (entries : s'.versionCache.entries = s.versionCache.entries)
    (memos : s'.requestCache.memos = s.requestCache.memos) : P s'
  unlearns {s : Stack} (hs : P s) : P { s with requestCache := s.requestCache.clear }
  asked (tier : CachingTier) {slot : Slot} (q : Inquiry slot) :
    Yields P (q.lookup tier) fun _ => True

namespace Lasting

variable {k : Kind} (lasting : Lasting P)

include lasting

theorem findAt (tier : Tier) (k : Kind) (ids : List (EntityId k)) (t : Instant) :
    Yields P (tier.findAt k ids t) fun _ => True := by
  cases tier with
  | caching tier => exact lasting.asked tier (.plain ids (.at t))
  | source =>
      intro s hs
      change P ((Source.findAt k ids t).perform s).2 ∧ _
      rw [Source.perform_findAt]
      exact ⟨lasting.rests hs rfl rfl, fun _ _ => trivial⟩

theorem findWithin (tier : Tier) (ids : List (EntityId k)) (start stop : Instant) :
    Yields P (tier.findWithin k ids start stop) fun _ => True := by
  cases tier with
  | caching tier => exact lasting.asked tier (.plain ids (.within start stop))
  | source =>
      intro s hs
      change P ((Source.findWithin k ids start stop).perform s).2 ∧ _
      rw [Source.perform_findWithin]
      exact ⟨lasting.rests hs rfl rfl, fun _ _ => trivial⟩

theorem store (es : List (Entity k)) : Yields P (Source.store k es) fun _ => True := by
  intro s hs
  refine ⟨?_, fun _ _ => trivial⟩
  unfold Source.store Source.requireWorking
  simp only [perform_bind, perform_get]
  cases s.repository.failure with
  | some e => exact hs
  | none => exact lasting.rests hs rfl rfl

theorem warm (forgets : ∀ s, P s → P { s with versionCache := s.versionCache.clear })
    (ids : List (EntityId .stationGroup)) (start stop : Instant) :
    Yields P (Cached.warm ids start stop) fun _ => True := by
  have restarted : Yields P (Cached.restart (.closed start stop)) fun _ => True := fun s hs =>
    ⟨lasting.rests (forgets s hs) rfl rfl, fun _ _ => trivial⟩
  have found := fun (k : Kind) (ids : List (EntityId k)) =>
    lasting.findWithin (.caching .cached) ids start stop
  apply (Yields.requireIds ids).bind
  intro _ _
  split
  · exact Yields.bind (Q := fun _ => False) (.throw _) fun _ never => never.elim
  · exact restarted.bind fun _ _ => (found .stationGroup _).bind fun _ _ =>
      (found .station _).bind fun _ _ => (found .channelGroup _).bind fun _ _ =>
      (found .channel _).bind fun _ _ => (found .response _).bind fun _ _ => .pure trivial

/-- An operation keeps a lasting property, if what it writes by hand or forgets leaves it. -/
theorem operation {op : Operation} (written : op.isCacheWrite = false)
    (put : op.isMemoWrite = true → ∀ s c, P s → P { s with requestCache := c })
    (forgets : op.isForgetting = true →
      ∀ s, P s → P { s with versionCache := s.versionCache.clear }) :
    Yields P op.lookup fun _ => True := by
  have answered : ∀ {α : Type} {x : Lookup α}, Yields P x (fun _ => True) → ∀ g : α → Answer,
      Yields P (do return g (← x)) fun _ => True :=
    fun yields g => yields.bind fun _ _ => .pure trivial
  cases op with
  | putVersions => cases written
  | putRequest slot request results =>
      exact fun s hs => ⟨put rfl s (s.requestCache.put slot request results) hs, fun _ _ => trivial⟩
  | clearVersions => exact fun s hs => ⟨forgets rfl s hs, fun _ _ => trivial⟩
  | warm ids start stop => exact answered (lasting.warm (forgets rfl) ids start stop) fun _ => .done
  | store k es => exact answered (lasting.store es) fun _ => .done
  | storeNetwork =>
      refine Yields.bind (Q := fun _ => True) ?_ fun _ _ => .pure trivial
      exact (lasting.store _).bind fun _ _ => (lasting.store _).bind fun _ _ =>
        (lasting.store _).bind fun _ _ => (lasting.store _).bind fun _ _ => lasting.store _
  | findAt tier k ids t => exact answered (lasting.findAt tier k ids t) _
  | findWithin tier k ids start stop => exact answered (lasting.findWithin tier ids start stop) _
  | findFaceted tier k ids t f => exact answered (lasting.asked tier (.faceted ids t f)) _
  | changeTimes tier station start stop =>
      exact answered (lasting.asked tier (.changeTimes station start stop)) _
  | populate tier k e f t =>
      have found := fun k ids => lasting.findAt tier k ids t
      exact answered (Populate.yields_entity_any found k f e) _
  | clearRequests => exact fun s hs => ⟨lasting.unlearns hs, fun _ _ => trivial⟩
  | fail | recover | clearCalls | setWindow | readVersion | retrieveRequest =>
      exact fun s hs => ⟨lasting.rests hs rfl rfl, fun _ _ => trivial⟩
  | calls | callsFor | versionCount | window | windowContains | versionMap | hasVersionKey
  | versionBoundaries | versionStatus | requestStatus =>
      exact fun s hs => ⟨hs, fun _ _ => trivial⟩

/-- So do runs. -/
theorem run {ops : List Operation} (written : ∀ op ∈ ops, op.isCacheWrite = false)
    (put : ∀ op ∈ ops, op.isMemoWrite = true → ∀ s c, P s → P { s with requestCache := c })
    (forgets : ∀ op ∈ ops, op.isForgetting = true →
      ∀ s, P s → P { s with versionCache := s.versionCache.clear }) {s : Stack} (hs : P s) :
    P (Operation.run ops s) := by
  induction ops generalizing s with
  | nil => exact hs
  | cons op ops ih =>
      obtain ⟨written, writtens⟩ := List.forall_mem_cons.1 written
      obtain ⟨put, puts⟩ := List.forall_mem_cons.1 put
      obtain ⟨forgets, forgetting⟩ := List.forall_mem_cons.1 forgets
      exact ih writtens puts forgetting (lasting.operation written put forgets s hs).1

end Lasting

end Stack

end StationCatalog
