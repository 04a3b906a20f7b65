import StationCatalog.Proofs.Finds

/-!
The lookup at an instant of one kind, given what resolving an entity finds. Whichever identifiers
the cache answers, and whichever of those drop out when they are resolved, the answer is read off
the identifiers alone.
-/

namespace StationCatalog

open Lookup

variable {k : Kind}

namespace Cached

/-- What comes of asking the cache for an entity: the expected answer, or, where there is none, an
identifier that `left` says is left to a fetch. -/
def Recalled (view : Entity k → Entity k) (expected : EntityId k → Option (Entity k))
    (left : EntityId k → Prop) (id : EntityId k) : Option (Entity k) → Prop
  | some e => e.id = id ∧ expected id = some (view e)
  | none => left id

/-- What comes of fetching an entity: the expected answer, or nothing when none is expected. -/
def Fetched (view : Entity k → Entity k) (expected : EntityId k → Option (Entity k))
    (id : EntityId k) (o : Option (Entity k)) : Prop :=
  (∀ e ∈ o, e.id = id) ∧ o.map view = expected id

section

variable {r : Repository} {w : TimeRange} {P P' : Stack → Prop} {t : Instant}
  {resolve : Entity k → Lookup (Option (Entity k))}

theorem finds_recallWanted {Q : EntityId k → Option (Entity k) → Prop} {wanted : List (EntityId k)}
    (read : ∀ (id : EntityId k) s, P s →
      P { s with versionCache := (s.versionCache.read k (.ofId id) t).2 })
    (hit : ∀ id ∈ wanted, w.contains t = true → ∀ s e, P s →
      s.versionCache.find? k (.ofId id) t = some e → Finds P (resolve e) (Q id))
    (miss : ∀ id ∈ wanted, w.contains t = true → ∀ s, P s →
      s.versionCache.find? k (.ofId id) t = none → Q id none)
    (outside : ∀ id ∈ wanted, w.contains t = false → Q id none) :
    Finds P (recallWanted resolve w wanted t) (Outcomes Q wanted) := by
  unfold recallWanted
  split
  next inside =>
    apply Leads.collect
    intro id hid
    apply (finds_recallAt (read id)).bind
    rintro found ⟨s, hs, h⟩
    cases found with
    | none => exact .pure (miss id hid inside s hs h)
    | some e => exact hit id hid inside s e hs h
  next inside =>
    rw [Bool.not_eq_true] at inside
    refine .pure ⟨fun _ h => absurd h List.not_mem_nil, ?_⟩
    intro id hid
    exact ⟨none, outside id hid inside, fun _ h => absurd h (Option.not_mem_none _)⟩

theorem finds_fetchMissing (hP : Stack.Served r w k P) {Q : EntityId k → Option (Entity k) → Prop}
    {missing : List (EntityId k)}
    (found : ∀ v ∈ r.versions k, v.id ∈ missing → v.holdsAt t = true → Finds P (resolve v) (Q v.id))
    (absent : ∀ id ∈ missing, r.versionAt? id t = none → Q id none) :
    Finds P (fetchMissing resolve w missing t) (Outcomes Q missing) := by
  unfold fetchMissing
  split
  next h =>
    rw [List.isEmpty_iff.1 h]
    exact .pure ⟨fun _ h => absurd h List.not_mem_nil, fun _ h => absurd h List.not_mem_nil⟩
  next =>
    apply (finds_fetchAt hP missing t).bind
    rintro _ rfl
    have each : ∀ v ∈ missing.filterMap (r.versionAt? · t), v.id ∈ missing ∧
        Finds P (resolve v) (Q v.id) := by
      intro v hv
      obtain ⟨id, hid, h⟩ := List.mem_filterMap.1 hv
      obtain ⟨stored, rfl, holds⟩ := Repository.versionAt?_some h
      exact ⟨hid, found v stored hid holds⟩
    apply (Leads.collect fun v hv => (each v hv).2).mono
    intro es outcomes
    constructor
    · intro e he
      obtain ⟨v, hv, hQ⟩ := outcomes.sound e he
      exact ⟨v.id, (each v hv).1, hQ⟩
    · intro id hid
      cases h : r.versionAt? id t with
      | none => exact ⟨none, absent id hid h, fun _ h => absurd h (Option.not_mem_none _)⟩
      | some v =>
          obtain ⟨-, rfl, -⟩ := Repository.versionAt?_some h
          exact outcomes.complete v (List.mem_filterMap.2 ⟨v.id, hid, h⟩)

theorem mem_distinctVersions_filterMap {expected : EntityId k → Option (Entity k)}
    (own : ∀ id x, expected id = some x → x.id = id) {ids : List (EntityId k)} {x : Entity k} :
    x ∈ Entity.distinctVersions ((EntityId.distinct ids).filterMap expected) ↔
      ∃ id ∈ ids, expected id = some x := by
  constructor
  · intro hx
    obtain ⟨id, hid, h⟩ := List.mem_filterMap.1 (Sorted.mem_of_mem_ofList hx)
    exact ⟨id, EntityId.mem_distinct.1 hid, h⟩
  · rintro ⟨id, hid, h⟩
    have among : x ∈ (EntityId.distinct ids).filterMap expected :=
      List.mem_filterMap.2 ⟨id, EntityId.mem_distinct.2 hid, h⟩
    obtain ⟨y, hy, hversion⟩ := Entity.exists_mem_distinctVersions among
    obtain ⟨j, -, hj⟩ := List.mem_filterMap.1 (Sorted.mem_of_mem_ofList hy)
    have same : j = id := by
      rw [← own j y hj, ← own id x h]
      exact congrArg Prod.fst hversion
    rw [same, h] at hj
    rw [Option.some.inj hj]
    exact hy

section

variable {view : Entity k → Entity k} {expected : EntityId k → Option (Entity k)}
  {left : EntityId k → Prop} {ids : List (EntityId k)} {answered fetched : List (Entity k)}
  (recalled : Outcomes (Recalled view expected left) (EntityId.distinct ids) answered)
  (rest : Outcomes (Fetched view expected) (unanswered (EntityId.distinct ids) answered) fetched)

include recalled rest

/-- Whatever is answered or fetched is what is expected of a wanted identifier. -/
theorem sound_of_outcomes {e : Entity k} (he : e ∈ answered ++ fetched) :
    e.id ∈ ids ∧ expected e.id = some (view e) := by
  rcases List.mem_append.1 he with he | he
  · obtain ⟨id, hid, rfl, h⟩ := recalled.sound e he
    exact ⟨EntityId.mem_distinct.1 hid, h⟩
  · obtain ⟨id, hid, hsame, h⟩ := rest.sound e he
    obtain rfl := hsame e rfl
    exact ⟨EntityId.mem_distinct.1 (mem_unanswered.1 hid).1, h.symm⟩

/-- Whatever is expected of a wanted identifier is answered or else fetched. -/
theorem complete_of_outcomes {id : EntityId k} (hid : id ∈ ids) {x : Entity k}
    (hx : expected id = some x) : ∃ e ∈ answered ++ fetched, e.id = id ∧ view e = x := by
  by_cases asked : ∃ e ∈ answered, e.id = id
  · obtain ⟨e, he, rfl⟩ := asked
    have among := List.mem_append_left fetched he
    obtain ⟨-, h⟩ := sound_of_outcomes recalled rest among
    exact ⟨e, among, rfl, Option.some.inj (h.symm.trans hx)⟩
  · have missing : id ∈ unanswered (EntityId.distinct ids) answered :=
      mem_unanswered.2 ⟨EntityId.mem_distinct.2 hid, fun e he same => asked ⟨e, he, same⟩⟩
    obtain ⟨o, ⟨hsame, ho⟩, hmem⟩ := rest.complete id missing
    rw [hx, Option.map_eq_some_iff] at ho
    obtain ⟨e, rfl, he⟩ := ho
    exact ⟨e, List.mem_append_right answered (hmem e rfl), hsame e rfl, he⟩

/-- Answers from the cache and from a fetch of the rest make up what is expected, each identifier
being answered by one or the other. -/
theorem map_view_of_outcomes (hview : ∀ e, (view e).version = e.version) :
    (Entity.distinctVersions (answered ++ fetched)).map view =
      Entity.distinctVersions ((EntityId.distinct ids).filterMap expected) := by
  have id_of_expected : ∀ id ∈ ids, ∀ x, expected id = some x → x.id = id := by
    intro id hid x hx
    obtain ⟨e, -, rfl, rfl⟩ := complete_of_outcomes recalled rest hid hx
    exact congrArg Prod.fst (hview e)
  apply Entity.map_distinctVersions_eq hview
  · intro x
    rw [List.mem_map, List.mem_filterMap]
    constructor
    · rintro ⟨e, he, rfl⟩
      obtain ⟨hid, h⟩ := sound_of_outcomes recalled rest he
      exact ⟨e.id, EntityId.mem_distinct.2 hid, h⟩
    · rintro ⟨id, hid, hx⟩
      obtain ⟨e, he, -, h⟩ := complete_of_outcomes recalled rest (EntityId.mem_distinct.1 hid) hx
      exact ⟨e, he, h⟩
  · intro a ha b hb h
    obtain ⟨i, hi, ha⟩ := List.mem_filterMap.1 ha
    obtain ⟨j, hj, hb⟩ := List.mem_filterMap.1 hb
    have hai := id_of_expected i (EntityId.mem_distinct.1 hi) a ha
    have hbj := id_of_expected j (EntityId.mem_distinct.1 hj) b hb
    have hids : a.id = b.id := congrArg Prod.fst h
    rw [← hai, hids, hbj, hb] at ha
    exact (Option.some.inj ha).symm

end

/-- A point lookup finds what is expected of its identifiers, seen through a view. -/
theorem leads_pointLookup {view : Entity k → Entity k}
    (hview : ∀ e, (view e).version = e.version) {expected : EntityId k → Option (Entity k)}
    {left : EntityId k → Prop} {ids : List (EntityId k)}
    (named : Named ids) (hP' : Stack.Served r w k P')
    (weaken : ∀ s, P s → P' s)
    (read : ∀ (id : EntityId k) s, P s →
      P { s with versionCache := (s.versionCache.read k (.ofId id) t).2 })
    (hit : ∀ id ∈ ids, w.contains t = true → ∀ s e, P s →
      s.versionCache.find? k (.ofId id) t = some e →
        Finds P (resolve e) (Recalled view expected left id))
    (miss : ∀ id ∈ ids, w.contains t = true → ∀ s, P s →
      s.versionCache.find? k (.ofId id) t = none → left id)
    (outside : ∀ id ∈ ids, w.contains t = false → left id)
    (found : ∀ v ∈ r.versions k, v.id ∈ ids → left v.id → v.holdsAt t = true →
      Finds P' (resolve v) (Fetched view expected v.id))
    (absent : ∀ id ∈ ids, r.versionAt? id t = none → expected id = none) :
    Leads P (pointLookup resolve ids t)
      (fun es => es.map view =
        Entity.distinctVersions ((EntityId.distinct ids).filterMap expected)) P' := by
  rw [pointLookup_eq]
  refine (Leads.requireIds named).bind fun _ _ => .get_bind ?_
  intro s hs
  rw [(hP'.serving s (weaken s hs)).window]
  have wanted : ∀ {id}, id ∈ EntityId.distinct ids → id ∈ ids := EntityId.mem_distinct.1
  have recalled : Finds P (recallWanted resolve w (EntityId.distinct ids) t)
      (Outcomes (Recalled view expected left) (EntityId.distinct ids)) :=
    finds_recallWanted read (fun id hid => hit id (wanted hid))
      (fun id hid => miss id (wanted hid)) (fun id hid => outside id (wanted hid))
  apply recalled.bind
  intro answered hanswered
  have missing : ∀ id ∈ unanswered (EntityId.distinct ids) answered, id ∈ ids ∧ left id := by
    intro id hid
    obtain ⟨hid, others⟩ := mem_unanswered.1 hid
    obtain ⟨o, ho, hmem⟩ := hanswered.complete id hid
    cases o with
    | none => exact ⟨wanted hid, ho⟩
    | some e => exact absurd ho.1 (others e (hmem e rfl))
  have fetching : Finds P'
      (fetchMissing resolve w (unanswered (EntityId.distinct ids) answered) t)
      (Outcomes (Fetched view expected) (unanswered (EntityId.distinct ids) answered)) := by
    apply finds_fetchMissing hP'
    · intro v hv hid holds
      exact found v hv (missing _ hid).1 (missing _ hid).2 holds
    · intro id hid h
      exact ⟨fun _ h => absurd h (Option.not_mem_none _), (absent id (missing id hid).1 h).symm⟩
  exact (fetching.weaken weaken).bind fun fetched hfetched =>
    .pure (map_view_of_outcomes hanswered hfetched hview)

/-- A point lookup succeeds when resolving what it comes across does. -/
theorem finds_pointLookup_of (hP : Stack.Served r w k P) {ids : List (EntityId k)}
    (named : Named ids)
    (cached : ∀ id ∈ ids, ∀ s e, P s → s.versionCache.find? k (.ofId id) t = some e →
      Finds P (resolve e) fun _ => True)
    (stored : ∀ v ∈ r.versions k, v.id ∈ ids → v.holdsAt t = true →
      Finds P (resolve v) fun _ => True) :
    Finds P (pointLookup resolve ids t) fun _ => True := by
  rw [pointLookup_eq]
  refine (Leads.requireIds named).bind fun _ _ => .get_bind ?_
  intro s hs
  rw [(hP.serving s hs).window]
  have wanted : ∀ {id}, id ∈ EntityId.distinct ids → id ∈ ids := EntityId.mem_distinct.1
  have recalled : Finds P (recallWanted resolve w (EntityId.distinct ids) t)
      (Outcomes (fun _ _ => True) (EntityId.distinct ids)) :=
    finds_recallWanted (fun id s hs => hP.effect s _ hs (.read s id t))
      (fun id hid _ => cached id (wanted hid)) (fun _ _ _ _ _ _ => trivial) (fun _ _ _ => trivial)
  apply recalled.bind
  intro answered _
  have fetched : Finds P (fetchMissing resolve w (unanswered (EntityId.distinct ids) answered) t)
      (Outcomes (fun _ _ => True) (unanswered (EntityId.distinct ids) answered)) :=
    finds_fetchMissing hP
      (fun v hv hid => stored v hv (wanted (mem_unanswered.1 hid).1)) fun _ _ _ => trivial
  exact fetched.bind fun _ _ => .pure trivial

theorem finds_pointLookup_any (hP : Stack.Served r w k P) {ids : List (EntityId k)}
    (named : Named ids) (any : ∀ e, Finds P (resolve e) fun _ => True) :
    Finds P (pointLookup resolve ids t) fun _ => True :=
  finds_pointLookup_of hP named (fun _ _ _ e _ _ => any e) fun v _ _ _ => any v

/-- The answers for entities at an instant: the stored version of each, as it is resolved. -/
def answersAt (r : Repository) (resolved : Entity k → Option (Entity k)) (ids : List (EntityId k))
    (t : Instant) : List (Entity k) :=
  Entity.distinctVersions ((EntityId.distinct ids).filterMap fun id =>
    (r.versionAt? id t).bind resolved)

/-- When resolving finds the same of a version and of its cached form, a point lookup finds the same
whatever is cached. -/
theorem finds_pointLookup (hr : r.Consistent) (hP : Stack.Grounded r w k P)
    {view : Entity k → Entity k}
    (hview : ∀ e, (view e).version = e.version) {resolved : Entity k → Option (Entity k)}
    (keeps : ∀ v x, resolved v = some x → x.id = v.id) {ids : List (EntityId k)}
    (named : Named ids)
    (full : ∀ v ∈ r.versions k, Finds P (resolve v) fun o => o.map view = resolved v)
    (bare : ∀ v ∈ r.versions k, Finds P (resolve v.demote) fun o => o.map view = resolved v) :
    Finds P (pointLookup resolve ids t) fun es => es.map view = answersAt r resolved ids t := by
  have expected : ∀ v ∈ r.versions k, v.holdsAt t = true →
      (r.versionAt? v.id t).bind resolved = resolved v := by
    intro v hv holds
    rw [hr.versionAt?_eq hv holds, Option.bind_some]
  have same : ∀ {v e : Entity k}, resolved v = some (view e) → e.id = v.id := by
    intro v e h
    rw [← keeps v _ h]
    exact (congrArg Prod.fst (hview e)).symm
  refine leads_pointLookup hview named hP.toServed (fun _ hs => hs)
    (fun id s hs => hP.effect s _ hs (.read s id t)) ?_ (fun _ _ _ _ _ _ => trivial)
    (fun _ _ _ => trivial) ?_ ?_
  · intro id _ _ s e hs h
    obtain ⟨v, hv, rfl, holds, rfl⟩ := hP.find? hs h
    apply (bare v hv).mono
    intro o ho
    cases o with
    | none => trivial
    | some x => exact ⟨same ho.symm, (expected v hv holds).trans ho.symm⟩
  · intro v hv _ _ holds
    apply (full v hv).mono
    intro o ho
    refine ⟨?_, ho.trans (expected v hv holds).symm⟩
    rintro x rfl
    exact same ho.symm
  · intro id _ h
    rw [h, Option.bind_none]

theorem finds_pointLookup_eq (hr : r.Consistent) (hP : Stack.Grounded r w k P)
    {resolved : Entity k → Option (Entity k)} (keeps : ∀ v x, resolved v = some x → x.id = v.id)
    {ids : List (EntityId k)} (named : Named ids)
    (full : ∀ v ∈ r.versions k, Finds P (resolve v) fun o => o = resolved v)
    (bare : ∀ v ∈ r.versions k, Finds P (resolve v.demote) fun o => o = resolved v) :
    Finds P (pointLookup resolve ids t) fun es => es = answersAt r resolved ids t := by
  have unseen : ∀ {e v : Entity k}, Finds P (resolve e) (fun o => o = resolved v) →
      Finds P (resolve e) fun o => o.map (fun x => x) = resolved v := by
    intro e v h
    apply h.mono
    rintro o rfl
    exact Option.map_id_apply
  have seen := finds_pointLookup (t := t) hr hP (fun _ => rfl) keeps named
    (fun v hv => unseen (full v hv)) (fun v hv => unseen (bare v hv))
  apply seen.mono
  intro es h
  rw [← h, List.map_id']

end

end Cached

end StationCatalog
