import StationCatalog.Proofs.RangeLookups
import StationCatalog.Proofs.SoundCache

/-!
The calls of a range lookup. The wanted entities come one after another, and what is fetched for one
leaves what is cached of those still to come, so each of them is asked for over the gaps it had when
the lookup began.
-/

namespace StationCatalog

open Lookup

variable {k : Kind}

namespace Stack

/-- The calls for what is not cached of an entity from `start` to `stop`: one for each gap, latest
first, from the first end of the gap to the last. -/
def GapCalls (s : Stack) (start stop : Instant) (id : EntityId k) (calls : List Call) : Prop :=
  ∃ gaps : List TimeRange,
    (∀ g, g ∈ gaps ↔ (TimeRange.closed start stop).IsGap (s.cachedRanges id) g) ∧
    gaps.Pairwise (fun later earlier => earlier.upper < later.lower) ∧
    List.Forall₂ (fun g call => ∃ first last, g.lower.endpoint? = some first ∧
      g.upper.endpoint? = some last ∧ call = ⟨k, [id.text], .within first last⟩) gaps calls

/-- A working stack that has received these calls, and has of the entities that are left what was
cached of them. -/
structure Asked (cached : EntityId k → List TimeRange) (calls : List Call)
    (left : List (EntityId k)) (s : Stack) : Prop where
  working : s.repository.failure = none
  calls : s.repository.calls = calls
  left : ∀ id ∈ left, s.cachedRanges id = cached id

end Stack

namespace Cached

/-- The call for a gap, if the gap has ends. -/
def gapCall? (id : EntityId k) (gap : TimeRange) : Option Call := do
  let first ← gap.lower.endpoint?
  let last ← gap.upper.endpoint?
  return ⟨k, [id.text], .within first last⟩

section

variable {w : TimeRange} {cached : EntityId k → List TimeRange} {calls : List Call}
  {left : List (EntityId k)} {id : EntityId k} {start stop : Instant}

theorem leads_fetchWithin (other : id ∉ left) :
    Leads (Stack.Asked cached calls left) (fetchWithin w k [id] start stop) (fun _ => True)
      (Stack.Asked cached (calls ++ [⟨k, [id.text], .within start stop⟩]) left) := by
  intro s hs
  have others : ∀ j ∈ left, ((fetchWithin w k [id] start stop).perform s).2.cachedRanges j =
      cached j := by
    intro j hj
    have apart : id ≠ j := by
      rintro rfl
      exact other hj
    rw [← hs.left j hj]
    exact congrArg (List.map Prod.fst) (yields_fetchWithin_of_ne apart w start stop s rfl).1
  refine ⟨s.repository.versionsWithin [id] start stop, ?_, trivial, ?_, ?_, others⟩
  all_goals
    simp only [fetchWithin, perform_bind, Source.perform_findWithin, hs.working, perform_keep,
      perform_pure]
  · exact hs.working
  · exact congrArg (· ++ _) hs.calls

theorem leads_fetchGap (other : id ∉ left) (gap : TimeRange) :
    Leads (Stack.Asked cached calls left) (fetchGap w k id gap) (fun _ => True)
      (Stack.Asked cached (calls ++ (gapCall? id gap).toList) left) := by
  unfold fetchGap
  split
  next first last hfirst hlast =>
    rw [gapCall?, hfirst, hlast]
    exact leads_fetchWithin other
  next none =>
    have uncalled : gapCall? id gap = Option.none := by
      cases hfirst : gap.lower.endpoint? with
      | none => rw [gapCall?, hfirst]; rfl
      | some first =>
          cases hlast : gap.upper.endpoint? with
          | none => rw [gapCall?, hfirst, hlast]; rfl
          | some last => exact absurd hlast (none first last hfirst)
    rw [uncalled, Option.toList_none, List.append_nil]
    exact .pure trivial

theorem leads_fetchGaps (other : id ∉ left) (gs : List TimeRange) :
    Leads (Stack.Asked cached calls left) (gather (fetchGap w k id) gs) (fun _ => True)
      (Stack.Asked cached (calls ++ gs.filterMap (gapCall? id)) left) := by
  induction gs generalizing calls with
  | nil =>
      rw [List.filterMap_nil, List.append_nil]
      exact .pure trivial
  | cons g gs ih =>
      have split : calls ++ (g :: gs).filterMap (gapCall? id) =
          calls ++ (gapCall? id g).toList ++ gs.filterMap (gapCall? id) := by
        rw [List.append_assoc]
        cases h : gapCall? id g <;> simp only [List.filterMap_cons, h] <;> rfl
      rw [split]
      exact (leads_fetchGap other g).bind fun _ _ => ih.bind fun _ _ => .pure trivial

/-- One entity is asked for over the gaps that the range has in what is cached of it. -/
theorem leads_versionsWithin (other : id ∉ left) :
    Leads (Stack.Asked cached calls (id :: left))
      (versionsWithin (fun e => return some e) w start stop id) (fun _ => True)
      (Stack.Asked cached
        (calls ++ (gaps (.closed start stop) (cached id)).filterMap (gapCall? id)) left) := by
  have recalled : Leads (Stack.Asked cached calls (id :: left)) (recallWithin k id)
      (fun versions => versions.map (·.1) = cached id) (Stack.Asked cached calls left) := by
    intro s hs
    rw [perform_recallWithin]
    exact ⟨_, rfl, hs.left id List.mem_cons_self, hs.working, hs.calls,
      fun j hj => hs.left j (List.mem_cons_of_mem id hj)⟩
  apply recalled.bind
  intro versions hversions
  rw [hversions]
  have resolved : Finds (Stack.Asked cached calls left)
      (collect (fun e => return some e.2) (versions.filter (·.1.overlaps (.closed start stop))))
      (Outcomes (fun _ _ => True) (versions.filter (·.1.overlaps (.closed start stop)))) :=
    .collect fun _ _ => .pure trivial
  exact resolved.bind fun _ _ => (leads_fetchGaps other _).bind fun _ _ => .pure trivial

/-- Each entity in turn is asked for over its gaps. -/
theorem leads_versionsWithin_all (distinct : left.Nodup) :
    Leads (Stack.Asked cached calls left)
      (gather (versionsWithin (fun e => return some e) w start stop) left) (fun _ => True)
      (Stack.Asked cached (calls ++ left.flatMap fun id =>
        (gaps (.closed start stop) (cached id)).filterMap (gapCall? id)) []) := by
  induction left generalizing calls with
  | nil =>
      rw [List.flatMap_nil, List.append_nil]
      exact .pure trivial
  | cons id left ih =>
      obtain ⟨other, hrest⟩ := List.nodup_cons.1 distinct
      rw [List.flatMap_cons, ← List.append_assoc]
      exact (leads_versionsWithin other).bind fun _ _ => (ih hrest).bind fun _ _ => .pure trivial

theorem leads_findWithin (hk : k ≠ .station) {ids : List (EntityId k)} (named : Named ids)
    (ordered : start ≤ stop) :
    Leads (Stack.Asked cached calls (EntityId.distinct ids)) (findWithin k ids start stop)
      (fun _ => True)
      (Stack.Asked cached (calls ++ (EntityId.distinct ids).flatMap fun id =>
        (gaps (.closed start stop) (cached id)).filterMap (gapCall? id)) []) := by
  rw [findWithin_eq_rangeLookup hk]
  refine (Leads.requireIds named).bind fun _ _ => (Leads.requireOrder ordered).bind fun _ _ =>
    .get_bind ?_
  intro s _
  have distinct := Sorted.nodup_of_pairwise (EntityId.pairwise_distinct ids)
  exact (leads_versionsWithin_all distinct).bind fun _ _ => .pure trivial

end

/-- The calls for the gaps of a range are all made. -/
theorem gapCalls_gaps (s : Stack) {start stop : Instant} (ordered : start ≤ stop)
    (id : EntityId k) :
    s.GapCalls start stop id
      ((gaps (.closed start stop) (s.cachedRanges id)).filterMap (gapCall? id)) := by
  refine ⟨gaps (.closed start stop) (s.cachedRanges id), fun _ => mem_gaps_iff, pairwise_gaps, ?_⟩
  have ends : ∀ g ∈ gaps (.closed start stop) (s.cachedRanges id), ∃ first last,
      g.lower.endpoint? = some first ∧ g.upper.endpoint? = some last := by
    intro g hg
    obtain ⟨first, last, hfirst, hlast, -⟩ :=
      TimeRange.exists_endpoints ordered (encloses_of_mem_gaps hg)
    exact ⟨first, last, hfirst, hlast⟩
  generalize gaps (.closed start stop) (s.cachedRanges id) = gs at ends
  induction gs with
  | nil => exact .nil
  | cons g gs ih =>
      obtain ⟨⟨first, last, hfirst, hlast⟩, hrest⟩ := List.forall_mem_cons.1 ends
      have call : gapCall? id g = some ⟨k, [id.text], .within first last⟩ := by
        rw [gapCall?, hfirst, hlast]
        rfl
      rw [List.filterMap_cons_some call]
      exact .cons ⟨first, last, hfirst, hlast, rfl⟩ (ih hrest)

end Cached

/-- A range lookup asks the repository for nothing but what is not cached: in any state that a run
reaches, a lookup of any kind but stations makes, for each wanted entity in order, one call of its
own for each gap in what was cached of the entity before. An entity that is cached over the whole
range is not asked for; unless the cache was written by hand, it is enough that every instant of the
range is cached. -/
theorem Operation.findWithin_calls {r : Repository} {w : TimeRange} {ops : List Operation}
    (working : (run ops (.over r w)).repository.failure = none) {k : Kind} (hk : k ≠ .station)
    {ids : List (EntityId k)} (named : Named ids) {start stop : Instant} (ordered : start ≤ stop) :
    let s := run ops (.over r w)
    let result := (Cached.findWithin k ids start stop).perform s
    (∃ es, result.1 = .ok es) ∧
    ∃ (wanted : List (EntityId k)) (calls : EntityId k → List Call),
      wanted.Pairwise (EntityId.compare · · = .lt) ∧ (∀ id, id ∈ wanted ↔ id ∈ ids) ∧
      result.2.repository.calls = s.repository.calls ++ wanted.flatMap calls ∧
      ∀ id ∈ wanted, s.GapCalls start stop id (calls id) ∧
        ((TimeRange.closed start stop).CoveredBy (s.cachedRanges id) → calls id = []) ∧
        ((∀ op ∈ ops, op.isCacheWrite = false) →
          (∀ t, start ≤ t → t ≤ stop → ∃ cached ∈ s.cachedRanges id, cached.contains t = true) →
          calls id = []) := by
  intro s result
  have begun : s.Asked s.cachedRanges s.repository.calls (EntityId.distinct ids) :=
    ⟨working, rfl, fun _ _ => rfl⟩
  obtain ⟨es, found, -, asked⟩ := Cached.leads_findWithin hk named ordered s begun
  refine ⟨⟨es, found⟩, EntityId.distinct ids, _, EntityId.pairwise_distinct ids,
    fun _ => EntityId.mem_distinct, asked.calls, ?_⟩
  intro id _
  have uncalled : (TimeRange.closed start stop).CoveredBy (s.cachedRanges id) →
      (Cached.gaps (.closed start stop) (s.cachedRanges id)).filterMap (Cached.gapCall? id) =
        [] := by
    intro covered
    rw [Cached.gaps_eq_nil covered, List.filterMap_nil]
  refine ⟨Cached.gapCalls_gaps s ordered id, uncalled, ?_⟩
  intro hops instants
  have drawn : s.versionCache.DrawnFrom fun _ _ => True := run_drawn_any hops .empty
  have closedOpen := Stack.cachedRanges_isClosedOpen drawn id
  exact uncalled (TimeRange.coveredBy_of_contains closedOpen instants)

/-- The earlier version of the channel is cached up to its change, where a gap is left. -/
theorem Operation.findWithin_calls_network :
    let ops := [.findAt (.caching .cached) .channel [⟨"STA.BHZ", rfl⟩] .origin]
    let s := run ops (.over Sample.network.repository .all)
    let ids : List (EntityId .channel) := [⟨"STA.BHZ", rfl⟩]
    let result := (Cached.findWithin .channel ids .origin Sample.change).perform s
    s.repository.failure = none ∧ Named ids ∧ Instant.origin ≤ Sample.change ∧
      (∃ es, result.1 = .ok es) ∧ ∃ (wanted : List (EntityId .channel)) (calls : _ → List Call),
        (∀ id, id ∈ wanted ↔ id ∈ ids) ∧
        result.2.repository.calls = s.repository.calls ++ wanted.flatMap calls ∧
        ∀ id ∈ wanted, s.GapCalls .origin Sample.change id (calls id) := by
  intro ops s ids result
  have working : s.repository.failure = none := rfl
  have named : Named ids := fun _ => by decide
  have ordered : Instant.origin ≤ Sample.change := by decide
  obtain ⟨found, wanted, calls, -, same, made, each⟩ :=
    findWithin_calls working (by decide) named ordered
  exact ⟨working, named, ordered, found, wanted, calls, same, made, fun id hid => (each id hid).1⟩

end StationCatalog
