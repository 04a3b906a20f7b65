import Mathlib.Algebra.BigOperators.Group.Finset.Piecewise
import Mathlib.Data.List.Induction
import StationCatalog.Proofs.Ascending
import StationCatalog.Proofs.Runs

/-!
What is stored. Of each entity the repository has one version a start, the one stored last with it,
whatever else was stored, in whichever order and in how many calls. A table of histories, into which
a version is filed by taking out what begins when it does, appending it and sorting anew, comes to
the same.
-/

namespace StationCatalog

open Relation (ReflTransGen)
open Lookup

variable {k : Kind}

/-- Histories under identifiers; those of other identifiers are empty. -/
structure VersionTable (k : Kind) where
  ids : Finset (EntityId k)
  history : EntityId k → List (Entity k)

namespace VersionTable

def empty : VersionTable k := ⟨∅, fun _ => []⟩

/-- Files a version in a history, in the place of one that begins when it does. -/
def file (e : Entity k) (history : List (Entity k)) : List (Entity k) :=
  (history.filter (·.start? ≠ e.start?) ++ [e]).mergeSort fun a b =>
    (compare a.start? b.start?).isLE

def storeVersion (x : VersionTable k) (e : Entity k) : VersionTable k :=
  if e.start?.isSome then
    ⟨insert e.id x.ids, Function.update x.history e.id (file e (x.history e.id))⟩
  else x

def store (x : VersionTable k) (es : List (Entity k)) : VersionTable k := es.foldl storeVersion x

def versionCount (x : VersionTable k) : Nat := ∑ id ∈ x.ids, (x.history id).length

end VersionTable

/-- Filed versions begin one after the other if those of the history begin at different times. -/
theorem VersionTable.pairwise_file {history : List (Entity k)}
    (apart : history.Pairwise fun a b => a.start? ≠ b.start?) (e : Entity k) :
    (file e history).Pairwise fun a b => compare a.start? b.start? = .lt := by
  have distinct : (file e history).Pairwise fun a b => a.start? ≠ b.start? := by
    refine ((List.mergeSort_perm _ _).pairwise_iff fun other => other.symm).2 ?_
    refine List.pairwise_append.2 ⟨apart.filter _, List.pairwise_singleton _ e, ?_⟩
    intro a ha b hb
    rw [List.mem_singleton.1 hb]
    exact of_decide_eq_true (List.mem_filter.1 ha).2
  have ordered : (file e history).Pairwise fun a b => (compare a.start? b.start?).isLE = true := by
    refine List.pairwise_mergeSort (fun a b c => Std.TransCmp.isLE_trans) (fun a b => ?_) _
    cases le : (compare a.start? b.start?).isLE with
    | true => rfl
    | false => exact Ordering.isLE_of_eq_lt (Std.OrientedCmp.lt_of_not_isLE (by simp [le]))
  refine (ordered.and distinct).imp fun {a b} both => ?_
  rcases Ordering.isLE_iff_eq_lt_or_eq_eq.1 both.1 with lt | eq
  · exact lt
  · exact absurd (Std.LawfulEqCmp.eq_of_compare eq) both.2

namespace Repository

/-! ### Histories and the list of all versions -/

theorem pairwise_storeVersion {vs : List (Entity k)}
    (h : vs.Pairwise (Entity.compareVersions · · = .lt)) (e : Entity k) :
    (storeVersion vs e).Pairwise (Entity.compareVersions · · = .lt) := by
  unfold storeVersion
  split
  · exact Sorted.pairwise_insert e h
  · exact h

/-- The versions of one entity, in ascending order of versions, are ascending by start. -/
theorem pairwise_history_iff {vs : List (Entity k)} {id : EntityId k} (own : ∀ e ∈ vs, e.id = id) :
    vs.Pairwise (Entity.compareVersions · · = .lt) ↔
      vs.Pairwise fun a b => compare a.start? b.start? = .lt := by
  refine List.Pairwise.iff_of_mem fun {a b} ha hb => ?_
  have same : a.id.compare b.id = .eq := by
    rw [own a ha, own b hb]
    exact Std.ReflCmp.compare_self
  rw [Entity.compareVersions, same, Ordering.eq_then]

/-- Filing a version in the history of its entity puts it where it belongs among all versions. -/
theorem file_filter {vs : List (Entity k)} (h : vs.Pairwise (Entity.compareVersions · · = .lt))
    (e : Entity k) :
    VersionTable.file e (vs.filter (·.id = e.id)) =
      (Sorted.insert Entity.compareVersions e vs).filter (·.id = e.id) := by
  have same : ∀ x, x.id = e.id → (e.compareVersions x ≠ .eq ↔ x.start? ≠ e.start?) := by
    intro x own
    rw [not_iff_not, Entity.compareVersions_eq_iff, Entity.version, Entity.version, own,
      Prod.mk_right_inj]
    exact eq_comm
  have members : ∀ x, x ∈ VersionTable.file e (vs.filter (·.id = e.id)) ↔
      x ∈ (Sorted.insert Entity.compareVersions e vs).filter (·.id = e.id) := by
    intro x
    simp only [VersionTable.file, List.mem_mergeSort, List.mem_append, List.mem_singleton,
      List.mem_filter, decide_eq_true_eq, Sorted.mem_insert_iff_of_pairwise h]
    constructor
    · rintro (⟨⟨hx, own⟩, other⟩ | rfl)
      · exact ⟨.inr ⟨hx, (same x own).2 other⟩, own⟩
      · exact ⟨.inl rfl, rfl⟩
    · rintro ⟨rfl | ⟨hx, other⟩, own⟩
      · exact .inr rfl
      · exact .inl ⟨⟨hx, own⟩, (same x own).1 other⟩
  have own : ∀ {xs : List (Entity k)}, ∀ x ∈ xs.filter (·.id = e.id), x.id = e.id :=
    fun x hx => of_decide_eq_true (List.mem_filter.1 hx).2
  have apart : (vs.filter (·.id = e.id)).Pairwise fun a b => a.start? ≠ b.start? := by
    refine ((pairwise_history_iff own).1 (h.filter _)).imp fun {a b} lt same => ?_
    have self : compare b.start? b.start? = .eq := Std.ReflCmp.compare_self
    rw [same, self] at lt
    cases lt
  refine Sorted.eq_of_mem_iff ?_ ((Sorted.pairwise_insert e h).filter _) members
  refine (pairwise_history_iff fun x hx => own x ((members x).1 hx)).2 ?_
  exact VersionTable.pairwise_file apart e

/-- Storing a version of one entity leaves the histories of the others. -/
theorem filter_insert_of_ne {vs : List (Entity k)}
    (h : vs.Pairwise (Entity.compareVersions · · = .lt)) {e : Entity k} {id : EntityId k}
    (other : id ≠ e.id) :
    (Sorted.insert Entity.compareVersions e vs).filter (·.id = id) = vs.filter (·.id = id) := by
  refine Sorted.eq_of_mem_iff ((Sorted.pairwise_insert e h).filter _) (h.filter _) fun x => ?_
  simp only [List.mem_filter, decide_eq_true_eq, Sorted.mem_insert_iff_of_pairwise h]
  constructor
  · rintro ⟨rfl | ⟨hx, -⟩, rfl⟩
    · exact absurd rfl other
    · exact ⟨hx, rfl⟩
  · rintro ⟨hx, rfl⟩
    refine ⟨.inr ⟨hx, fun same => ?_⟩, rfl⟩
    exact other (congrArg Prod.fst (Entity.compareVersions_eq_iff.1 same)).symm

end Repository

namespace VersionTable

/-- The histories of the table are those of a list of versions. -/
structure Files (x : VersionTable k) (vs : List (Entity k)) : Prop where
  history : ∀ id, x.history id = vs.filter (·.id = id)
  ids : ∀ v ∈ vs, v.id ∈ x.ids

theorem Files.storeVersion {x : VersionTable k} {vs : List (Entity k)} (h : x.Files vs)
    (sorted : vs.Pairwise (Entity.compareVersions · · = .lt)) (e : Entity k) :
    (x.storeVersion e).Files (Repository.storeVersion vs e) := by
  unfold VersionTable.storeVersion Repository.storeVersion
  split
  · constructor
    · intro id
      by_cases own : id = e.id
      · subst own
        simp only [Function.update_self, h.history, Repository.file_filter sorted]
      · simp only [Function.update_of_ne own, h.history, Repository.filter_insert_of_ne sorted own]
    · intro v hv
      rcases Sorted.mem_of_mem_insert hv with rfl | hv
      · exact Finset.mem_insert_self ..
      · exact Finset.mem_insert_of_mem (h.ids v hv)
  · exact h

theorem Files.store {x : VersionTable k} {vs : List (Entity k)} (h : x.Files vs)
    (sorted : vs.Pairwise (Entity.compareVersions · · = .lt)) (es : List (Entity k)) :
    (x.store es).Files (es.foldl Repository.storeVersion vs) := by
  induction es generalizing x vs with
  | nil => exact h
  | cons e es ih =>
      exact ih (h.storeVersion sorted e) (Repository.pairwise_storeVersion sorted e)

theorem sum_length_filter {ids : Finset (EntityId k)} {vs : List (Entity k)}
    (h : ∀ v ∈ vs, v.id ∈ ids) : ∑ id ∈ ids, (vs.filter (·.id = id)).length = vs.length := by
  induction vs with
  | nil => exact Finset.sum_const_zero
  | cons v vs ih =>
      obtain ⟨hv, hvs⟩ := List.forall_mem_cons.1 h
      have first : ∀ id, ((v :: vs).filter (·.id = id)).length =
          (if v.id = id then 1 else 0) + (vs.filter (·.id = id)).length := by
        intro id
        by_cases own : v.id = id
        · simp [own, Nat.add_comm]
        · simp [own]
      simp only [first, Finset.sum_add_distrib, Finset.sum_ite_eq, hv, if_true, ih hvs,
        List.length_cons, Nat.add_comm]

theorem Files.versionCount_eq {x : VersionTable k} {vs : List (Entity k)} (h : x.Files vs) :
    x.versionCount = vs.length := by
  simp only [versionCount, h.history, sum_length_filter h.ids]

end VersionTable

/-! ### The version stored last -/

/-- What was stored last for an identifier and a start. -/
def lastStored (es : List (Entity k)) (id : EntityId k) (t : Instant) : Option (Entity k) :=
  (es.filter (·.version = (id, some t))).getLast?

theorem of_lastStored_eq_some {es : List (Entity k)} {id : EntityId k} {t : Instant} {e : Entity k}
    (h : lastStored es id t = some e) : e.id = id ∧ e.start? = some t := by
  have same : e.version = (id, some t) :=
    of_decide_eq_true (List.mem_filter.1 (List.mem_of_getLast? h)).2
  exact Prod.ext_iff.1 same

namespace Repository

/-- Versions stored one after another are all of them in order, of equal ones the last. -/
theorem foldl_storeVersion (es : List (Entity k)) :
    es.foldl storeVersion [] = Entity.distinctVersions (es.reverse.filter (·.start?.isSome)) := by
  induction es using List.reverseRecOn with
  | nil => rfl
  | append_singleton es e ih =>
      rw [List.foldl_concat, ih, List.reverse_concat, List.filter_cons, storeVersion]
      split <;> rfl

theorem pairwise_foldl_storeVersion (es : List (Entity k)) :
    (es.foldl storeVersion []).Pairwise (Entity.compareVersions · · = .lt) := by
  rw [foldl_storeVersion]
  exact Entity.pairwise_distinctVersions _

/-- What is there is what was stored last for its identifier and start. -/
theorem mem_foldl_storeVersion {es : List (Entity k)} {e : Entity k} :
    e ∈ es.foldl storeVersion [] ↔ ∃ t, lastStored es e.id t = some e := by
  have alike : ∀ {t}, e.start? = some t →
      (fun a : Entity k => decide (a.version = e.version) && a.start?.isSome) =
        fun a => decide (a.version = (e.id, some t)) := by
    intro t started
    funext a
    rw [Bool.eq_iff_iff, Bool.and_eq_true, decide_eq_true_eq, decide_eq_true_eq, ← started]
    refine and_iff_left_of_imp fun same => ?_
    rw [show a.start? = e.start? from congrArg Prod.snd same, started, Option.isSome_some]
  rw [foldl_storeVersion, Entity.mem_distinctVersions_iff, ← List.head?_filter, List.filter_filter,
    List.filter_reverse, List.head?_reverse]
  constructor
  · intro last
    obtain ⟨-, kept⟩ := List.mem_filter.1 (List.mem_of_getLast? last)
    obtain ⟨t, started⟩ := Option.isSome_iff_exists.1 (Bool.and_eq_true_iff.1 kept).2
    exact ⟨t, by rwa [lastStored, ← alike started]⟩
  · rintro ⟨t, last⟩
    rwa [alike (of_lastStored_eq_some last).2]

theorem length_foldl_storeVersion (es : List (Entity k)) :
    (es.foldl storeVersion []).length =
      ((es.filter (·.start?.isSome)).map (·.version)).toFinset.card := by
  have distinct : ((es.foldl storeVersion []).map (·.version)).Nodup := by
    refine List.pairwise_map.2 ((pairwise_foldl_storeVersion es).imp fun lt same => ?_)
    rw [Entity.compareVersions_eq_iff.2 same] at lt
    cases lt
  rw [← List.length_map (·.version), ← List.toFinset_card_of_nodup distinct]
  refine congrArg Finset.card (Finset.ext fun v => ?_)
  simp only [List.mem_toFinset, List.mem_map, foldl_storeVersion, List.filter_reverse]
  constructor
  · rintro ⟨e, he, rfl⟩
    exact ⟨e, List.mem_reverse.1 (Sorted.mem_of_mem_ofList he), rfl⟩
  · rintro ⟨e, he, rfl⟩
    exact Entity.exists_mem_distinctVersions (List.mem_reverse.2 he)

section

variable {r : Repository} {es : List (Entity k)}
  (versions : r.versions k = es.foldl storeVersion [])

include versions

theorem mem_history_iff {id : EntityId k} {e : Entity k} :
    e ∈ r.history id ↔ ∃ t, lastStored es id t = some e := by
  rw [history, List.mem_filter, decide_eq_true_eq, versions, mem_foldl_storeVersion]
  constructor
  · rintro ⟨last, rfl⟩
    exact last
  · rintro ⟨t, last⟩
    obtain ⟨rfl, -⟩ := of_lastStored_eq_some last
    exact ⟨⟨t, last⟩, rfl⟩

theorem pairwise_history (id : EntityId k) : (r.history id).Pairwise fun a b =>
    ∃ s t, a.start? = some s ∧ b.start? = some t ∧ s < t := by
  have ascending : (r.versions k).Pairwise (Entity.compareVersions · · = .lt) :=
    versions ▸ pairwise_foldl_storeVersion es
  have own : ∀ e ∈ r.history id, e.id = id :=
    fun e he => of_decide_eq_true (List.mem_filter.1 he).2
  refine ((pairwise_history_iff own).1 (ascending.filter _)).imp_of_mem fun {a b} ha hb lt => ?_
  obtain ⟨s, last⟩ := (mem_history_iff versions).1 ha
  obtain ⟨t, last'⟩ := (mem_history_iff versions).1 hb
  have hs := (of_lastStored_eq_some last).2
  have ht := (of_lastStored_eq_some last').2
  rw [hs, ht] at lt
  exact ⟨s, t, hs, ht, Int.compare_eq_lt.1 lt⟩

end

end Repository

/-! ### Runs -/

theorem Repository.failure_store (r : Repository) (es : List (Entity k)) :
    (r.store es).failure = r.failure := rfl

namespace Source

variable {s : Stack} {es : List (Entity k)}

theorem perform_store_of_working (working : s.repository.failure = none) :
    (store k es).perform s = (.ok (), { s with repository := s.repository.store es }) := by
  simp only [store, requireWorking, perform_bind, perform_get, working, perform_pure,
    perform_modify]

theorem perform_store_of_failing {e : StorageError} (failing : s.repository.failure = some e) :
    (store k es).perform s = (.error (.storage e), s) := by
  simp only [store, requireWorking, perform_bind, perform_get, failing, perform_throw]

end Source

/-- The versions of one kind in a network, in the order they are stored. -/
def Sample.Network.entities (n : Network) : (k : Kind) → List (Entity k)
  | .stationGroup => [n.stationGroup]
  | .station => [n.station]
  | .channelGroup => [n.channelGroup]
  | .channel => n.channels
  | .response => [n.response]

theorem Sample.Network.versions_store (n : Network) {s : Stack}
    (working : s.repository.failure = none) (k : Kind) :
    (n.store.perform s).2.repository.versions k =
      (n.entities k).foldl Repository.storeVersion (s.repository.versions k) := by
  simp only [store, perform_bind, Source.perform_store_of_working, Repository.failure_store,
    working]
  cases k <;> simp [Repository.versions_store, Repository.versions_store_of_ne, entities]

/-- A store adds to the versions of each kind what it is given of the kind. -/
theorem Repository.versions_store_any (r : Repository) {j : Kind} (es : List (Entity j))
    (k : Kind) : (r.store es).versions k =
      (es.filterMap fun e => Entity.ofAny? k ⟨j, e⟩).foldl storeVersion (r.versions k) := by
  by_cases same : j = k
  · subst same
    simp only [versions_store, Entity.ofAny?_mk, List.filterMap_some]
  · have none : ∀ e : Entity j, Entity.ofAny? k ⟨j, e⟩ = none := fun _ => dif_neg same
    simp only [versions_store_of_ne r es same, none, List.filterMap_none, List.foldl_nil]

theorem Stack.versions_of_steps {s s' : Stack} (h : ReflTransGen Step s s') :
    s'.repository.versions = s.repository.versions := by
  induction h with
  | refl => rfl
  | tail _ step ih => exact step.versions_eq.trans ih

namespace Operation

/-- What an operation gives the repository to store, of one kind. -/
def offers (k : Kind) : Operation → List (Entity k)
  | store j es => es.filterMap fun e => Entity.ofAny? k ⟨j, e⟩
  | storeNetwork => Sample.network.entities k
  | _ => []

/-- What the repository takes of it, which is nothing while it is failing. -/
def stores (k : Kind) (op : Operation) (s : Stack) : List (Entity k) :=
  if s.repository.failure.isSome then [] else op.offers k

/-- What a run stores of one kind, in order. -/
def stored (k : Kind) : List Operation → Stack → List (Entity k)
  | [], _ => []
  | op :: ops, s => op.stores k s ++ stored k ops (op.perform s).2

theorem offers_of_not_isStore {op : Operation} (h : op.isStore = false) (k : Kind) :
    op.offers k = [] := by
  cases op with
  | store | storeNetwork => cases h
  | _ => rfl

/-- An operation adds to the versions of each kind what it stores of the kind. -/
theorem versions_perform (op : Operation) (s : Stack) (k : Kind) :
    (op.perform s).2.repository.versions k =
      (op.stores k s).foldl Repository.storeVersion (s.repository.versions k) := by
  have alone : ∀ (x : Lookup Unit) (a : Answer),
      ((do x; return a : Lookup Answer).perform s).2 = (x.perform s).2 := by
    intro x a
    rw [perform_bind]
    rcases x.perform s with ⟨_ | _, _⟩ <;> rfl
  cases stores : op.isStore with
  | false =>
      have same : (op.perform s).2.repository.versions = s.repository.versions := by
        cases writes : op.isCacheWrite with
        | false => exact Stack.versions_of_steps (reaches stores writes s)
        | true =>
            cases op with
            | putVersions => rfl
            | _ => cases writes
      rw [Operation.stores, offers_of_not_isStore stores, ite_self, List.foldl_nil, same]
  | true =>
      cases op with
      | store j es =>
          have left : ((store j es).perform s).2 = ((Source.store j es).perform s).2 := alone _ _
          rw [left, Operation.stores]
          cases failure : s.repository.failure with
          | some e => rw [Source.perform_store_of_failing failure]; rfl
          | none =>
              rw [Source.perform_store_of_working failure]
              exact s.repository.versions_store_any es k
      | storeNetwork =>
          have left : (storeNetwork.perform s).2 = (Sample.network.store.perform s).2 := alone _ _
          rw [left, Operation.stores]
          cases failure : s.repository.failure with
          | some e =>
              rw [Sample.Network.store, perform_bind, Source.perform_store_of_failing failure]
              rfl
          | none => exact Sample.network.versions_store failure k
      | _ => cases stores

theorem versions_run (ops : List Operation) (s : Stack) (k : Kind) :
    (run ops s).repository.versions k =
      (stored k ops s).foldl Repository.storeVersion (s.repository.versions k) := by
  induction ops generalizing s with
  | nil => rfl
  | cons op ops ih =>
      rw [stored, List.foldl_append, ← versions_perform]
      exact ih (op.perform s).2

/-- Whatever a run does, the repository has of each entity the versions stored last for their
starts, one a start and ascending; it counts each version that was stored once; a table into which
versions are filed has the same; and while it fails, it refuses what it is given and stays as it
is. -/
theorem run_keeps_last_stored (ops : List Operation) (window : TimeRange) (k : Kind) :
    let r := (run ops (.fresh window)).repository
    let es := stored k ops (.fresh window)
    let table := VersionTable.empty.store es
    (∀ id : EntityId k, (r.history id).Pairwise fun a b =>
      ∃ s t, a.start? = some s ∧ b.start? = some t ∧ s < t) ∧
    (∀ (id : EntityId k) (e : Entity k), e ∈ r.history id ↔ ∃ t, lastStored es id t = some e) ∧
    r.versionCount k = ((es.filter (·.start?.isSome)).map (·.version)).toFinset.card ∧
    (∀ id, table.history id = r.history id) ∧ table.versionCount = r.versionCount k ∧
    ∀ (s : Stack) (xs : List (Entity k)),
      (s.repository.failure = none → ((Source.store k xs).perform s).1 = .ok ()) ∧
      ∀ failure, s.repository.failure = some failure →
        (Source.store k xs).perform s = (.error (.storage failure), s) := by
  intro r es table
  have versions : r.versions k = es.foldl Repository.storeVersion [] := versions_run ops _ k
  have files : table.Files (r.versions k) := by
    have none : (VersionTable.empty (k := k)).Files [] :=
      ⟨fun _ => rfl, fun _ h => absurd h List.not_mem_nil⟩
    exact versions ▸ none.store .nil es
  refine ⟨Repository.pairwise_history versions, fun _ _ => Repository.mem_history_iff versions, ?_,
    files.history, files.versionCount_eq, fun s xs => ⟨fun working => ?_, fun _ failing => ?_⟩⟩
  · rw [Repository.versionCount, versions, Repository.length_foldl_storeVersion]
  · rw [Source.perform_store_of_working working]
  · exact Source.perform_store_of_failing failing

/-- A version stored again replaces the one that began when it does; a reference is not stored. -/
example : (run [.store .response [Sample.response (.ofUuid (.ofNat 1)) ⟨.origin, none⟩],
      .store .response [.reference (.ofUuid (.ofNat 2)),
        Sample.response (.ofUuid (.ofNat 1)) ⟨.origin, some Sample.change⟩]]
      (.fresh .all)).repository.versions .response =
    [Sample.response (.ofUuid (.ofNat 1)) ⟨.origin, some Sample.change⟩] := rfl

end Operation

end StationCatalog
