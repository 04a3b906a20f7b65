import StationCatalog.Proofs.Ends
import StationCatalog.Proofs.TracedLookups

/-!
Lookups that call the repository. Calls are noted and never taken back, so a lookup that makes one
at any depth leaves more calls than there were. A lookup at an instant makes one as soon as one of
its identifiers is not answered from the cache.
-/

namespace StationCatalog

open Lookup

variable {k : Kind}

/-- A stack with this window whose repository has received more than `n` calls. -/
def Stack.Called (w : TimeRange) (n : Nat) (s : Stack) : Prop :=
  s.window = w ∧ n < s.repository.calls.length

/-- Steps that keep the window and take no call back. -/
def Stack.Goes (s s' : Stack) : Prop :=
  s'.window = s.window ∧ s.repository.calls <+: s'.repository.calls

theorem Stack.goes_of_effect (k : Kind) (s s' : Stack) (h : Effect k s s') : s.Goes s' := by
  refine ⟨h.window_eq, ?_⟩
  cases h with
  | call ids time => exact List.prefix_append _ _
  | read id t => exact List.prefix_refl _
  | keep es stored working => exact List.prefix_refl _

theorem Stack.Called.goes {w : TimeRange} {n : Nat} {s s' : Stack} (h : s.Goes s')
    (hs : s.Called w n) : s'.Called w n :=
  ⟨h.1.trans hs.1, Nat.lt_of_lt_of_le hs.2 h.2.length_le⟩

/-- Calls have been made for entities of kinds below `k` alone. -/
def Stack.AsksBelow (k : Kind) (s s' : Stack) : Prop :=
  ∃ calls, s'.repository.calls = s.repository.calls ++ calls ∧
    ∀ call ∈ calls, k.rank < call.kind.rank

theorem Stack.AsksBelow.of_calls_eq {s s' : Stack} (h : s'.repository.calls = s.repository.calls) :
    s.AsksBelow k s' := by
  refine ⟨[], ?_, fun _ hcall => absurd hcall List.not_mem_nil⟩
  rw [h, List.append_nil]

theorem Stack.AsksBelow.trans {s₁ s₂ s₃ : Stack} (h : s₁.AsksBelow k s₂) (h' : s₂.AsksBelow k s₃) :
    s₁.AsksBelow k s₃ := by
  obtain ⟨first, added, below⟩ := h
  obtain ⟨second, added', below'⟩ := h'
  refine ⟨first ++ second, ?_, List.forall_mem_append.2 ⟨below, below'⟩⟩
  rw [added', added, List.append_assoc]

theorem Stack.AsksBelow.of_steps {s s' : Stack} (h : Relation.ReflTransGen (AsksBelow k) s s') :
    s.AsksBelow k s' := by
  induction h with
  | refl => exact .of_calls_eq rfl
  | tail _ step ih => exact ih.trans step

theorem Stack.asksBelow_of_effect {j : Kind} (h : k.rank < j.rank) (s s' : Stack)
    (step : Effect j s s') : s.AsksBelow k s' := by
  cases step with
  | call ids time => exact ⟨_, rfl, fun call hcall => List.mem_singleton.1 hcall ▸ h⟩
  | read | keep => exact .of_calls_eq rfl

namespace Cached

/-- Resolving the children of an entity takes calls for kinds below its own alone. -/
theorem traced_resolveAt_below {w : TimeRange} (t : Instant) (e : Entity k) :
    Traced (Stack.AsksBelow k) w (resolveAt t k e) :=
  traced_resolveAt_of_rank (fun _ => Stack.asksBelow_of_effect) t e

variable {w : TimeRange} {n : Nat} {P : Stack → Prop} {t : Instant}
  {resolve : Entity k → Lookup (Option (Entity k))}

/-- Once a call is made, no lookup takes it back. -/
theorem ends_called {α : Type} {x : Lookup α} (hx : Traced Stack.Goes w x) :
    Ends (Stack.Called w n) x (fun _ => Stack.Called w n) fun _ => True :=
  .of_traced hx (fun _ hs => hs.1) fun _ _ step hs => hs.goes step

theorem ends_fetchAt_called (hP : ∀ s, P s → s.window = w ∧ n ≤ s.repository.calls.length)
    (ids : List (EntityId k)) (t : Instant) :
    Ends P (fetchAt w k ids t) (fun _ => Stack.Called w n) fun _ => True := by
  have asked : Ends P (Source.findAt k ids t) (fun _ => Stack.Called w n) fun _ => True := by
    intro s hs
    obtain ⟨window, calls⟩ := hP s hs
    rw [Source.perform_findAt]
    refine ⟨fun _ _ => ⟨window, ?_⟩, fun _ _ => trivial⟩
    rw [Repository.record, List.length_append]
    exact Nat.lt_succ_of_le calls
  apply asked.bind
  intro fetched
  split
  · have kept : Ends (Stack.Called w n) (keep w fetched) (fun _ => Stack.Called w n)
        fun _ => True := fun _ hs => ⟨fun _ _ => hs, fun _ _ => trivial⟩
    exact kept.bind fun _ => .pure fun _ hs => hs
  · exact .pure fun _ hs => hs

/-- What comes of asking the cache for an entity, from what comes of resolving what it holds. -/
theorem ends_answerAt {id : EntityId k} {Q : Option (Entity k) → Stack → Prop}
    {E : CatalogError → Prop}
    (read : ∀ s, P s → P { s with versionCache := (s.versionCache.read k (.ofId id) t).2 })
    (hit : ∀ s e, P s → s.versionCache.find? k (.ofId id) t = some e → Ends P (resolve e) Q E)
    (miss : ∀ s, P s → Q none s) : Ends P (answerAt resolve t id) Q E := by
  refine (Ends.of_leads (finds_recallAt read)).bind fun o => ?_
  cases o with
  | none => exact .pure fun s hs => miss s hs.2
  | some e =>
      rintro s ⟨⟨s₁, hs₁, found⟩, hs⟩
      exact hit s₁ e hs₁ found s hs

/-- A wanted entity that the cache does not answer makes a lookup at an instant call. -/
theorem ends_pointLookup_called (hP : ∀ s, P s → s.window = w ∧ n ≤ s.repository.calls.length)
    (hresolve : ∀ e, Traced Stack.Goes w (resolve e)) {A : EntityId k → Prop}
    {ids : List (EntityId k)}
    (each : ∀ id ∈ ids, w.contains t = true → Ends P (answerAt resolve t id)
      (fun o s => s.Called w n ∨ P s ∧ ∀ e ∈ o, A e.id) fun _ => True)
    (other : ∃ id ∈ ids, ¬A id) :
    Ends P (pointLookup resolve ids t) (fun _ => Stack.Called w n) fun _ => True := by
  rw [pointLookup_eq]
  refine (Ends.requireIds fun _ => trivial).bind fun _ => .given fun _ => .get_bind ?_
  intro s hs
  rw [(hP s hs).1]
  have own := Stack.goes_of_effect k
  have recalled : Ends P (recallWanted resolve w (EntityId.distinct ids) t)
      (fun answered s => s.Called w n ∨ P s ∧ ∀ e ∈ answered, A e.id) fun _ => True := by
    unfold recallWanted
    split
    next inside =>
      refine .collect (fun id hid => each id (EntityId.mem_distinct.1 hid) inside) ?_
      exact fun id _ => ends_called (traced_answerAt own hresolve t id)
    next => exact .pure fun _ hs => .inr ⟨hs, fun _ h => absurd h List.not_mem_nil⟩
  have unanswered_ne : ∀ answered : List (Entity k), (∀ e ∈ answered, A e.id) →
      (unanswered (EntityId.distinct ids) answered).isEmpty = false := by
    intro answered hanswered
    obtain ⟨id, hid, hnot⟩ := other
    have missing : id ∈ unanswered (EntityId.distinct ids) answered :=
      mem_unanswered.2 ⟨EntityId.mem_distinct.2 hid, fun e he same => hnot (same ▸ hanswered e he)⟩
    exact List.isEmpty_eq_false_iff.2 (List.ne_nil_of_mem missing)
  refine recalled.bind fun answered =>
    .or ?_ (.given fun hanswered => ?_)
  · exact (ends_called (traced_fetchMissing own hresolve _ t)).bind fun _ => .pure fun _ hs => hs
  · have fetched : Ends P
        (fetchMissing resolve w (unanswered (EntityId.distinct ids) answered) t)
        (fun _ => Stack.Called w n) fun _ => True := by
      rw [fetchMissing, unanswered_ne answered hanswered]
      exact (ends_fetchAt_called hP _ t).bind fun fetched =>
        ends_called (Traced.closed.collect hresolve fetched)
    exact fetched.bind fun _ => .pure fun _ hs => hs

/-- What an entity is resolved to is that entity, populated if it was. -/
theorem ends_resolveAt_same (t : Instant) (k : Kind) (e : Entity k) :
    Ends P (resolveAt t k e)
      (fun o _ => ∀ x ∈ o, x.id = e.id ∧ x.isPopulated = e.isPopulated) fun _ => True := by
  have dropped : ∀ P : Stack → Prop, Ends P (return none : Lookup (Option (Entity k)))
      (fun o _ => ∀ x ∈ o, x.id = e.id ∧ x.isPopulated = e.isPopulated) fun _ => True :=
    fun _ => .pure fun _ _ _ h => absurd h (Option.not_mem_none _)
  have found : ∀ (P : Stack → Prop) (x : Entity k), x.id = e.id → x.isPopulated = e.isPopulated →
      Ends P (return some x)
        (fun o _ => ∀ x ∈ o, x.id = e.id ∧ x.isPopulated = e.isPopulated) fun _ => True := by
    intro P x same populated
    refine .pure ?_
    rintro _ _ _ ⟨⟩
    exact ⟨same, populated⟩
  cases k with
  | response => exact found P e rfl rfl
  | channel =>
      change Ends P (resolveChannel t e) _ _
      unfold resolveChannel
      split
      · exact found P e rfl rfl
      · refine (Ends.any _).bind fun answers => ?_
        split
        · exact found _ _ (Entity.id_withResponse e _) (Entity.isPopulated_withResponse e _)
        · exact found _ e rfl rfl
  | channelGroup =>
      change Ends P (resolveGroup t e) _ _
      unfold resolveGroup
      split
      · refine (Ends.any _).bind fun channels => ?_
        split
        · exact dropped _
        · exact found _ _ (Entity.id_withChannels e _) (Entity.isPopulated_withChannels e _)
      · exact found P e rfl rfl
  | station =>
      change Ends P (resolveStation t e) _ _
      unfold resolveStation
      split
      · refine (Ends.any _).bind fun channels => (Ends.any _).bind fun groups => ?_
        dsimp only
        split
        · exact dropped _
        · exact found _ _ (Entity.id_withChildren e _ _) (Entity.isPopulated_withChildren e _ _)
      · exact found P e rfl rfl
  | stationGroup =>
      change Ends P (resolveStationGroup t e) _ _
      unfold resolveStationGroup
      split
      · refine (Ends.any _).bind fun stations => ?_
        split
        · exact dropped _
        · exact found _ _ (Entity.id_withStations e _) (Entity.isPopulated_withStations e _)
      · exact found P e rfl rfl

theorem ends_resolveAt_id (t : Instant) (k : Kind) (e : Entity k) :
    Ends P (resolveAt t k e) (fun o _ => ∀ x ∈ o, x.id = e.id) fun _ => True :=
  (ends_resolveAt_same t k e).mono fun _ _ h x hx => (h x hx).1

/-- A lookup of nothing finds nothing, and leaves the stack as it is. -/
theorem perform_findAt_nil (k : Kind) (t : Instant) (s : Stack) :
    (findAt k [] t).perform s = (.ok [], s) := by
  have named : Named ([] : List (EntityId k)) := fun _ _ h => absurd h List.not_mem_nil
  rw [findAt_eq_pointLookup, pointLookup_eq, requireIds_of_named named]
  simp only [recallWanted]
  rw [pure_bind, perform_bind, perform_get]
  dsimp only
  split <;> rfl

end Cached

end StationCatalog
