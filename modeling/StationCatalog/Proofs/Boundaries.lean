import StationCatalog.Proofs.Fragments
import StationCatalog.Proofs.ReplayedCache

/-!
Boundaries of cached versions. The boundaries of a key are where what is left of its versions begins
once the later versions of the same batch have been written over them: at the start of a version
that no later one is over, and at the stop of a later one where an earlier one goes on. They are the
starts of the versions, no more and no less, where the versions of a batch do not overlap.
-/

namespace StationCatalog

open TimeRange

variable {k : Kind} {t : Instant}

theorem Cut.endpoint?_eq_some_iff {c : Cut} :
    c.endpoint? = some t ↔ c = .below t ∨ c = .above t := by
  cases c <;> simp only [endpoint?, Option.some.injEq, below.injEq, above.injEq, reduceCtorEq,
    or_false, false_or]

namespace Sorted

variable {α : Type} {cmp : α → α → Ordering}

theorem mem_foldl_insert [Std.LawfulEqCmp cmp] {x : α} {bs as : List α} :
    x ∈ bs.foldl (fun as b => insert cmp b as) as ↔ x ∈ bs ∨ x ∈ as := by
  induction bs generalizing as with
  | nil => exact (or_iff_right List.not_mem_nil).symm
  | cons b bs ih =>
      have inserted : x ∈ insert cmp b as ↔ x = b ∨ x ∈ as :=
        mem_insert_iff fun _ _ same => (Std.LawfulEqCmp.eq_of_compare same).symm
      rw [List.foldl_cons, ih, inserted, List.mem_cons, or_assoc, or_left_comm]

theorem pairwise_foldl_insert [Std.TransCmp cmp] (bs : List α) {as : List α}
    (h : as.Pairwise (cmp · · = .lt)) :
    (bs.foldl (fun as b => insert cmp b as) as).Pairwise (cmp · · = .lt) := by
  induction bs generalizing as with
  | nil => exact h
  | cons b bs ih => exact ih (pairwise_insert b h)

end Sorted

namespace RangeSet

variable {r p : TimeRange} {later : List TimeRange}

/-- What remains begins where the range itself begins, or where one of the others ends. -/
theorem lower_of_mem_remains (h : p ∈ (remains r later).ranges) :
    p.lower = r.lower ∨ ∃ s ∈ later, p.lower = s.upper := by
  induction later using List.reverseRecOn generalizing p with
  | nil =>
      cases hr : r.isEmpty with
      | true =>
          rw [remains, List.foldl_nil, ranges_of_empty hr] at h
          cases h
      | false =>
          rw [remains, List.foldl_nil, ranges_of hr, List.mem_singleton] at h
          exact .inl (congrArg TimeRange.lower h)
  | append_singleton later s ih =>
      have before : ∀ q ∈ (remains r later).ranges,
          q.lower = r.lower ∨ ∃ u ∈ later ++ [s], q.lower = u.upper := by
        intro q hq
        refine (ih hq).imp_right ?_
        rintro ⟨u, hu, same⟩
        exact ⟨u, List.mem_append_left [s] hu, same⟩
      rw [remains_concat] at h
      cases hs : s.isEmpty with
      | true =>
          rw [remove, hs, if_pos rfl] at h
          exact before p h
      | false =>
          obtain ⟨-, q, hq, piece⟩ := (mem_remove hs).1 h
          rcases mem_minus.1 piece with ⟨-, rfl⟩ | ⟨-, ⟨-, rfl⟩ | ⟨-, rfl⟩⟩
          · exact before p hq
          · rw [lower_between]
            exact before q hq
          · rw [lower_between]
            exact .inr ⟨s, List.mem_append_right later (List.mem_singleton_self s), rfl⟩

/-- Something of a range that remains begins just below an instant if the range contains the instant
and none of the others does, and either the range itself begins there or one of the others ends
there. -/
theorem exists_lower_iff (nonempty : ∀ s ∈ later, s.isEmpty = false) :
    (∃ p ∈ (remains r later).ranges, p.lower = .below t) ↔
      r.contains t = true ∧ (∀ s ∈ later, s.contains t = false) ∧
        (r.lower = .below t ∨ ∃ s ∈ later, s.upper = .below t) := by
  obtain ⟨wellFormed, covers⟩ := foldl_remove (.of r) later
  simp only [exists_covers_of] at covers
  simp only [← Bool.not_eq_true, contains_iff_covers]
  constructor
  · rintro ⟨p, hp, lower⟩
    have first : p.Covers (.below t) := lower ▸ covers_lower.2 (wellFormed.nonempty p hp)
    obtain ⟨inside, uncovered⟩ := (covers (.below t)).1 ⟨p, hp, first⟩
    refine ⟨inside, uncovered, ?_⟩
    rcases lower_of_mem_remains hp with own | ⟨s, hs, same⟩
    · exact .inl (own.symm.trans lower)
    · exact .inr ⟨s, hs, same.symm.trans lower⟩
  · rintro ⟨inside, uncovered, begins⟩
    obtain ⟨p, hp, reached⟩ := (covers (.below t)).2 ⟨inside, uncovered⟩
    refine ⟨p, hp, Cut.position_inj (Int.le_antisymm reached.1 ?_)⟩
    rcases begins with own | ⟨s, hs, same⟩
    · have := (mem_remains_iff.1 hp).within.1
      rwa [own] at this
    · have apart := (mem_remains_iff.1 hp).uncovered s hs
      rw [← Bool.not_eq_true, overlaps_iff] at apart
      have shape := isEmpty_eq_false_iff.1 (nonempty s hs)
      have whole := isEmpty_eq_false_iff.1 (wellFormed.nonempty p hp)
      rw [same] at apart shape
      simp only [Covers, Cut.le_def, Cut.lt_def] at *
      omega

end RangeSet

namespace Validity

/-- Of validities written one after another, something begins at an instant that is of the one that
contains the instant last: it starts there, or one that is written over it stops there. -/
def Begins (vs : List Validity) (t : Instant) : Prop :=
  ∃ v later, v :: later <:+ vs ∧ v.range.contains t = true ∧
    (∀ u ∈ later, u.range.contains t = false) ∧ (v.start = t ∨ ∃ u ∈ later, u.stop = some t)

theorem upper_range_eq_below_iff {v : Validity} (nonempty : v.range.isEmpty = false) :
    v.range.upper = .below t ↔ v.stop = some t := by
  have position : v.range.upper = .below t ↔ v.range.upper.position = (Cut.below t).position :=
    ⟨congrArg Cut.position, Cut.position_inj⟩
  rw [position, Cut.position_below]
  obtain ⟨start, stop⟩ := v
  rw [isEmpty_eq_false_iff, lower_range, Cut.lt_def] at nonempty
  cases stop with
  | none =>
      have first := Cut.above_lt_aboveAll start
      have last := Cut.above_lt_aboveAll t
      simp only [range, effective, atLeast, position_upper_between, Cut.lt_def, Cut.position_below,
        Cut.position_above, reduceCtorEq, iff_false] at *
      omega
  | some stop =>
      simp only [range, effective, closedOpen, position_upper_between, Cut.position_below,
        Option.some.injEq, Instant.ext_iff] at *
      omega

/-- What remains of a validity under later ones begins where it starts, or where one of them
stops. -/
theorem exists_endpoint_iff {v : Validity} {later : List Validity}
    (nonempty : ∀ u ∈ later, u.range.isEmpty = false) :
    (∃ p ∈ (RangeSet.remains v.range (later.map range)).ranges, p.lower.endpoint? = some t) ↔
      v.range.contains t = true ∧ (∀ u ∈ later, u.range.contains t = false) ∧
        (v.start = t ∨ ∃ u ∈ later, u.stop = some t) := by
  have below : ∀ p ∈ (RangeSet.remains v.range (later.map range)).ranges,
      (p.lower.endpoint? = some t ↔ p.lower = .below t) := by
    intro p hp
    rw [Cut.endpoint?_eq_some_iff]
    refine or_iff_left ?_
    rcases RangeSet.lower_of_mem_remains hp with same | ⟨s, hs, same⟩
    · exact same ▸ v.isClosedOpen_range.lower t
    · obtain ⟨u, -, rfl⟩ := List.mem_map.1 hs
      exact same ▸ u.isClosedOpen_range.upper t
  have stops : (∃ s ∈ later.map range, s.upper = .below t) ↔ ∃ u ∈ later, u.stop = some t := by
    simp only [List.mem_map, exists_exists_and_eq_and]
    exact exists_congr fun u => and_congr_right fun hu => upper_range_eq_below_iff (nonempty u hu)
  calc (∃ p ∈ (RangeSet.remains v.range (later.map range)).ranges, p.lower.endpoint? = some t)
      ↔ ∃ p ∈ (RangeSet.remains v.range (later.map range)).ranges, p.lower = .below t :=
        exists_congr fun p => and_congr_right (below p)
    _ ↔ _ := RangeSet.exists_lower_iff (List.forall_mem_map.2 nonempty)
    _ ↔ _ := by
        rw [List.forall_mem_map, stops, lower_range, Cut.below.injEq]

end Validity

namespace RangeMap

variable {α : Type}

/-- Writes over empty ranges make no difference. -/
theorem putEntries_filter (m : RangeMap α) (es : List (TimeRange × α)) :
    m.putEntries (es.filter (!·.1.isEmpty)) = m.putEntries es := by
  induction es generalizing m with
  | nil => rfl
  | cons e es ih =>
      rw [List.filter_cons]
      split
      next => exact ih (m.put e.1 e.2)
      next empty =>
        rw [Bool.not_eq_true, Bool.not_eq_false'] at empty
        have same : m.put e.1 e.2 = m := by rw [put, empty, if_pos rfl]
        rw [ih]
        exact congrArg (putEntries · es) same.symm

/-- Where the entries of a map begin that is written from validities. -/
theorem exists_endpoint_ofList_iff {ws : List (TimeRange × α)} {vs : List Validity}
    (same : ws.map (·.1) = vs.map Validity.range)
    (nonempty : ∀ v ∈ vs, v.range.isEmpty = false) :
    (∃ f ∈ (ofList ws).entries, f.1.lower.endpoint? = some t) ↔ Validity.Begins vs t := by
  constructor
  · rintro ⟨f, hf, lower⟩
    obtain ⟨e, after, suffix, -, left⟩ := mem_ofList.1 hf
    have ranges := suffix.map (·.1)
    rw [same, List.suffix_map_iff] at ranges
    obtain ⟨vs', written, parts⟩ := ranges
    obtain ⟨v, later, rfl, hv, hlater⟩ := List.map_eq_cons_iff.1 parts.symm
    have hv : v.range = e.1 := hv
    rw [← hv, ← hlater] at left
    have others := fun u hu => nonempty u (written.subset (List.mem_cons_of_mem v hu))
    exact ⟨v, later, written, (Validity.exists_endpoint_iff others).1 ⟨f.1, left, lower⟩⟩
  · rintro ⟨v, later, written, begins⟩
    have others := fun u hu => nonempty u (written.subset (List.mem_cons_of_mem v hu))
    obtain ⟨p, left, lower⟩ := (Validity.exists_endpoint_iff others).2 begins
    have ranges := written.map Validity.range
    rw [← same, List.suffix_map_iff] at ranges
    obtain ⟨ws', suffix, parts⟩ := ranges
    obtain ⟨e, after, rfl, he, hafter⟩ := List.map_eq_cons_iff.1 parts.symm
    have he : e.1 = v.range := he
    rw [← he, ← hafter] at left
    exact ⟨(p, e.2), mem_ofList.2 ⟨e, after, suffix, rfl, left⟩, lower⟩

end RangeMap

namespace VersionCache

variable {c : VersionCache} {key key' : VersionKey}

/-- The validity of a populated version of a key, if there is an instant in it and it touches the
window. -/
def validity? (window : TimeRange) (key : VersionKey) : Entity k → Option Validity
  | .populated id v _ =>
    if VersionKey.ofId id = key ∧ window.touches v.range = true ∧ v.range.isEmpty = false then
      some v
    else none
  | _ => none

/-- The validities of the versions that are written under a key, in the order they are written. -/
def validities (window : TimeRange) (es : List (Entity k)) (key : VersionKey) : List Validity :=
  es.filterMap (validity? window key)

/-- Writing versions under a key adds to its boundaries where their entries begin. -/
theorem boundaries_put (c : VersionCache) (key : VersionKey) (versions : RangeMap (Entity k)) :
    (c.put key versions).boundaries key =
      (versions.ranges.filterMap (·.lower.endpoint?)).foldl
        (fun bs b => Sorted.insert compare b bs) (c.boundaries key) := by
  cases hne : versions.isEmpty with
  | true =>
      have nothing : versions.ranges = [] := by
        rw [RangeMap.ranges, List.isEmpty_iff.1 hne, List.map_nil]
      rw [put, hne, if_pos rfl, nothing, List.filterMap_nil, List.foldl_nil]
  | false =>
      rw [boundaries, history?_put c key hne, Option.map_some, Option.getD_some, CachedHistory.put,
        boundaries]
      cases c.history? key <;> rfl

theorem boundaries_put_of_ne (other : key' ≠ key) (versions : RangeMap (Entity k)) :
    (c.put key' versions).boundaries key = c.boundaries key := by
  rw [boundaries, history?_put_of_ne c other, ← boundaries]

theorem mem_boundaries_put {versions : RangeMap (Entity k)} :
    t ∈ (c.put key' versions).boundaries key ↔ t ∈ c.boundaries key ∨
      key' = key ∧ ∃ e ∈ versions.entries, e.1.lower.endpoint? = some t := by
  by_cases same : key' = key
  · subst same
    rw [boundaries_put, Sorted.mem_foldl_insert, or_comm]
    simp only [RangeMap.ranges, List.mem_filterMap, List.mem_map, exists_exists_and_eq_and,
      true_and]
  · simp only [boundaries_put_of_ne same, same, false_and, or_false]

theorem pairwise_boundaries_put (h : (c.boundaries key).Pairwise (compare · · = .lt))
    (versions : RangeMap (Entity k)) :
    ((c.put key' versions).boundaries key).Pairwise (compare · · = .lt) := by
  by_cases same : key' = key
  · subst same
    rw [boundaries_put]
    exact Sorted.pairwise_foldl_insert _ h
  · rwa [boundaries_put_of_ne same]

theorem mem_boundaries_foldl_put {f : EntityId k → RangeMap (Entity k)} {ids : List (EntityId k)} :
    t ∈ (ids.foldl (fun c id => c.put (.ofId id) (f id)) c).boundaries key ↔
      t ∈ c.boundaries key ∨
        ∃ id ∈ ids, .ofId id = key ∧ ∃ e ∈ (f id).entries, e.1.lower.endpoint? = some t := by
  induction ids generalizing c with
  | nil => exact (or_iff_left fun ⟨_, h, _⟩ => absurd h List.not_mem_nil).symm
  | cons id ids ih =>
      rw [List.exists_mem_cons_iff, ← or_assoc]
      exact ih.trans (or_congr_left mem_boundaries_put)

theorem mem_validities {window : TimeRange} {es : List (Entity k)} {v : Validity} :
    v ∈ validities window es key ↔ ∃ id data, Entity.populated id v data ∈ es ∧ .ofId id = key ∧
      window.touches v.range = true ∧ v.range.isEmpty = false := by
  rw [validities, List.mem_filterMap]
  constructor
  · rintro ⟨e, he, written⟩
    cases e with
    | reference | versionReference => cases written
    | populated id u data =>
        rw [validity?] at written
        split at written
        next conditions =>
          cases written
          exact ⟨id, data, he, conditions⟩
        next => cases written
  · rintro ⟨id, data, he, conditions⟩
    exact ⟨_, he, if_pos conditions⟩

/-- What is kept of entities under the key of one of them has the validities under this key. -/
theorem map_kept (window : TimeRange) (es : List (Entity k)) (id : EntityId k) :
    (((es.filterMap (cacheable? window)).filter (·.2.id = id)).filter (!·.1.isEmpty)).map (·.1) =
      (validities window es (.ofId id)).map Validity.range := by
  rw [List.filter_filterMap, List.filter_filterMap, List.map_filterMap, validities,
    List.map_filterMap]
  refine List.filterMap_congr fun e _ => ?_
  cases e with
  | reference | versionReference => rfl
  | populated own v data =>
      have key : VersionKey.ofId own = .ofId id ↔ own = id :=
        ⟨fun same => EntityId.ext (congrArg VersionKey.id same), congrArg VersionKey.ofId⟩
      have named : ∀ id : EntityId k, (Entity.populated id v data).id = id := fun _ => rfl
      by_cases touching : window.touches v.range = true <;> by_cases same : own = id <;>
        cases shape : v.range.isEmpty <;>
        simp [cacheable?, validity?, key, named, touching, same, shape]

theorem mem_boundaries_keep {window : TimeRange} {es : List (Entity k)} :
    t ∈ (c.keep window es).boundaries key ↔
      t ∈ c.boundaries key ∨ Validity.Begins (validities window es key) t := by
  refine mem_boundaries_foldl_put.trans (or_congr_right ?_)
  have own : ∀ id : EntityId k,
      (∃ f ∈ (RangeMap.ofList ((es.filterMap (cacheable? window)).filter (·.2.id = id))).entries,
        f.1.lower.endpoint? = some t) ↔ Validity.Begins (validities window es (.ofId id)) t := by
    intro id
    rw [RangeMap.ofList, ← RangeMap.putEntries_filter, ← RangeMap.ofList]
    refine RangeMap.exists_endpoint_ofList_iff (map_kept window es id) fun v hv => ?_
    obtain ⟨-, -, -, -, -, nonempty⟩ := mem_validities.1 hv
    exact nonempty
  constructor
  · rintro ⟨id, -, rfl, begins⟩
    exact (own id).1 begins
  · intro begins
    have written := begins
    obtain ⟨v, later, suffix, -⟩ := written
    obtain ⟨id, data, he, rfl, touching, -⟩ :=
      mem_validities.1 (suffix.subset (List.mem_cons_self (a := v)))
    have kept : (v.range, (Entity.populated id v data).demote) ∈ es.filterMap (cacheable? window) :=
      List.mem_filterMap.2 ⟨_, he, if_pos touching⟩
    refine ⟨id, EntityId.mem_distinct.2 ?_, rfl, (own id).2 begins⟩
    exact List.mem_map.2 ⟨_, kept, rfl⟩

theorem pairwise_boundaries_keep (h : (c.boundaries key).Pairwise (compare · · = .lt))
    (window : TimeRange) (es : List (Entity k)) :
    ((c.keep window es).boundaries key).Pairwise (compare · · = .lt) := by
  unfold keep
  dsimp only
  generalize EntityId.distinct _ = ids
  induction ids generalizing c with
  | nil => exact h
  | cons id ids ih => exact ih (pairwise_boundaries_put h _)

end VersionCache

/-- The validities of the versions of a batch that are written under a key. -/
def Batch.validities (b : Batch) (key : VersionKey) : List Validity :=
  VersionCache.validities b.window b.entities key

namespace VersionCache

variable {c : VersionCache} {key : VersionKey}

/-- After batches, the boundaries of a key are those from before and, of each batch, the instants at
which something of its versions begins. -/
theorem mem_boundaries_replay {bs : List Batch} :
    t ∈ (c.replay bs).boundaries key ↔
      t ∈ c.boundaries key ∨ ∃ b ∈ bs, Validity.Begins (b.validities key) t := by
  induction bs generalizing c with
  | nil => exact (or_iff_left fun ⟨_, h, _⟩ => absurd h List.not_mem_nil).symm
  | cons b bs ih =>
      rw [List.exists_mem_cons_iff, ← or_assoc]
      exact ih.trans (or_congr_left mem_boundaries_keep)

theorem pairwise_boundaries_replay (h : (c.boundaries key).Pairwise (compare · · = .lt))
    (bs : List Batch) : ((c.replay bs).boundaries key).Pairwise (compare · · = .lt) := by
  induction bs generalizing c with
  | nil => exact h
  | cons b bs ih => exact ih (pairwise_boundaries_keep h b.window b.entities)

theorem boundaries_congr {c' : VersionCache} (h : c.entries = c'.entries) (key : VersionKey) :
    c.boundaries key = c'.boundaries key := by
  rw [boundaries, history?_congr h, ← boundaries]

end VersionCache

namespace Validity

/-- Any two of the validities are the same, or have no instant in common. -/
def Separate (vs : List Validity) : Prop :=
  vs.Pairwise fun u v => u = v ∨ u.range.overlaps v.range = false

instance (vs : List Validity) : Decidable (Separate vs) :=
  inferInstanceAs (Decidable (vs.Pairwise fun u v => u = v ∨ u.range.overlaps v.range = false))

theorem Separate.eq_of_overlaps {vs : List Validity} (h : Separate vs) {u v : Validity}
    (hu : u ∈ vs) (hv : v ∈ vs) (both : u.range.overlaps v.range = true) : u = v := by
  have later : vs.Pairwise fun u v => u.range.overlaps v.range = true → u = v := by
    refine h.imp fun apart both => ?_
    rcases apart with same | apart
    · exact same
    · rw [both] at apart
      cases apart
  have earlier : vs.Pairwise (flip fun u v => u.range.overlaps v.range = true → u = v) := by
    refine later.imp fun {u v} only both => ?_
    exact (only (overlaps_symm both)).symm
  exact later.forall_of_forall_of_flip (fun _ _ _ => rfl) earlier hu hv both

/-- Of validities written one after another, one is the last over an instant if any is over it. -/
theorem exists_last_over {vs : List Validity} (h : ∃ v ∈ vs, v.range.contains t = true) :
    ∃ v later, v :: later <:+ vs ∧ v.range.contains t = true ∧
      ∀ u ∈ later, u.range.contains t = false := by
  induction vs with
  | nil =>
      obtain ⟨v, hv, -⟩ := h
      cases hv
  | cons v vs ih =>
      by_cases among : ∃ u ∈ vs, u.range.contains t = true
      · obtain ⟨u, later, suffix, inside, last⟩ := ih among
        exact ⟨u, later, suffix.trans (List.suffix_cons v vs), inside, last⟩
      · have own := (List.exists_mem_cons_iff ..).1 h |>.resolve_right among
        refine ⟨v, vs, List.suffix_refl _, own, fun u hu => ?_⟩
        exact Bool.eq_false_iff.2 fun inside => among ⟨u, hu, inside⟩

/-- Of separate validities something begins where one of them starts, and nowhere else. -/
theorem begins_iff_of_separate {vs : List Validity} (h : Separate vs)
    (nonempty : ∀ v ∈ vs, v.range.isEmpty = false) :
    Begins vs t ↔ ∃ v ∈ vs, v.start = t := by
  constructor
  · rintro ⟨v, later, suffix, inside, outside, start | ⟨u, hu, stop⟩⟩
    · exact ⟨v, suffix.subset List.mem_cons_self, start⟩
    · have hv := suffix.subset (List.mem_cons_self (a := v) (l := later))
      have hu' := suffix.subset (List.mem_cons_of_mem v hu)
      by_cases start : v.start = t
      · exact ⟨v, hv, start⟩
      · -- A version that stops where another goes on would overlap it.
        have upper := (upper_range_eq_below_iff (nonempty u hu')).2 stop
        have shape := isEmpty_eq_false_iff.1 (nonempty u hu')
        have whole := isEmpty_eq_false_iff.1 (nonempty v hv)
        have both : v.range.overlaps u.range = true := by
          obtain ⟨begins, reaches⟩ := contains_iff_covers.1 inside
          rw [upper] at shape
          refine overlaps_iff.2 ⟨whole, upper ▸ shape, ?_, Int.lt_trans shape reaches⟩
          have apart : v.start.nanos ≠ t.nanos := start ∘ Instant.ext
          simp only [upper, lower_range, Cut.le_def, Cut.lt_def, Cut.position_below] at *
          omega
        rw [h.eq_of_overlaps hv hu' both, outside u hu] at inside
        cases inside
  · rintro ⟨v, hv, rfl⟩
    have inside : v.range.contains v.start = true := by
      rw [contains_iff_covers, ← lower_range]
      exact covers_lower.2 (nonempty v hv)
    obtain ⟨u, later, suffix, hu, last⟩ := exists_last_over ⟨v, hv, inside⟩
    have same := h.eq_of_overlaps hv (suffix.subset List.mem_cons_self)
      (overlaps_of_contains inside hu)
    exact ⟨u, later, suffix, hu, last, .inl (congrArg start same.symm)⟩

end Validity

theorem Batch.nonempty_of_mem_validities {b : Batch} {key : VersionKey} :
    ∀ v ∈ b.validities key, v.range.isEmpty = false := by
  intro v hv
  obtain ⟨-, -, -, -, -, nonempty⟩ := VersionCache.mem_validities.1 hv
  exact nonempty

namespace Operation

/-- After a run from an empty cache, whatever is stored, the boundaries of a key are, in ascending
order, the instants at which something begins of the versions under the key in some batch that has
been cached since the cache was last emptied: a version that starts at the instant, or goes on there
as another stops that was written over it, and that no later one of the batch is over. Where the
versions under the key in each batch are separate, these are the instants at which they start. -/
theorem boundaries_of_run {ops : List Operation} (written : ∀ op ∈ ops, op.isCacheWrite = false)
    (r : Repository) (w : TimeRange) (key : VersionKey) :
    let s := run ops (.over r w)
    let batches := log ops (.over r w) []
    s.versionCache.entries = (VersionCache.empty.replay batches).entries ∧
    (s.versionCache.boundaries key).Pairwise (· < ·) ∧
    (∀ t, t ∈ s.versionCache.boundaries key ↔
      ∃ b ∈ batches, Validity.Begins (b.validities key) t) ∧
    ((∀ b ∈ batches, Validity.Separate (b.validities key)) →
      ∀ t, t ∈ s.versionCache.boundaries key ↔
        ∃ b ∈ batches, ∃ v ∈ b.validities key, v.start = t) := by
  intro s batches
  have replayed : s.versionCache.entries = (VersionCache.empty.replay batches).entries :=
    replay_log written rfl
  have none : VersionCache.empty.boundaries key = [] := rfl
  have begins : ∀ t, t ∈ s.versionCache.boundaries key ↔
      ∃ b ∈ batches, Validity.Begins (b.validities key) t := by
    intro t
    rw [VersionCache.boundaries_congr replayed, VersionCache.mem_boundaries_replay, none]
    exact or_iff_right List.not_mem_nil
  refine ⟨replayed, ?_, begins, fun separate t => ?_⟩
  · rw [VersionCache.boundaries_congr replayed]
    refine (VersionCache.pairwise_boundaries_replay ?_ batches).imp Int.compare_eq_lt.1
    rw [none]
    exact .nil
  · rw [begins]
    refine exists_congr fun b => and_congr_right fun hb => ?_
    exact Validity.begins_iff_of_separate (separate b hb) b.nonempty_of_mem_validities

/-- The boundaries of the sample channel, fetched over a range that both its versions overlap. -/
theorem boundaries_of_run_network :
    let ops := [.findWithin (.caching .cached) .channel [⟨"STA.BHZ", rfl⟩] .origin Sample.change]
    let s := run ops (.over Sample.network.repository .all)
    let batches := log ops (.over Sample.network.repository .all) []
    (∀ op ∈ ops, op.isCacheWrite = false) ∧
      (∀ b ∈ batches, Validity.Separate (b.validities ⟨.channel, "STA.BHZ"⟩)) ∧
      ∀ t, t ∈ s.versionCache.boundaries ⟨.channel, "STA.BHZ"⟩ ↔
        ∃ b ∈ batches, ∃ v ∈ b.validities ⟨.channel, "STA.BHZ"⟩, v.start = t := by
  intro ops s batches
  have written : ∀ op ∈ ops, op.isCacheWrite = false := by decide
  have separate : ∀ b ∈ batches, Validity.Separate (b.validities ⟨.channel, "STA.BHZ"⟩) := by
    decide +kernel
  obtain ⟨-, -, -, starts⟩ :=
    boundaries_of_run written Sample.network.repository .all ⟨.channel, "STA.BHZ"⟩
  exact ⟨written, separate, starts separate⟩

end Operation

namespace Sample

/-- Two versions of a channel, the later within the earlier, that carry two versions of a response,
the earlier over the later. -/
def overlapping : Repository :=
  let carried := fun validity => response (.ofUuid (.ofNat 7)) validity
  Repository.empty.store
    [channel ⟨"STA.BHT", rfl⟩ ⟨.origin, none⟩ (some (carried ⟨midway, some change⟩)),
      channel ⟨"STA.BHT", rfl⟩ ⟨midway, some change⟩ (some (carried ⟨.origin, none⟩))]

end Sample

/-- Versions that overlap in one batch: the channel has a boundary at which no version starts, and
the start of a version of the response is no boundary. -/
theorem Operation.boundaries_overlapping :
    let ops := [.findWithin (.caching .cached) .channel [⟨"STA.BHT", rfl⟩] .origin Sample.change]
    let s := run ops (.over Sample.overlapping .all)
    let batches := log ops (.over Sample.overlapping .all) []
    let starts := fun key => batches.flatMap fun b => (b.validities key).map (·.start)
    let response : EntityId .response := .ofUuid (.ofNat 7)
    (∀ op ∈ ops, op.isCacheWrite = false) ∧
      starts ⟨.channel, "STA.BHT"⟩ = [.origin, Sample.midway] ∧
      s.versionCache.boundaries ⟨.channel, "STA.BHT"⟩ =
        [.origin, Sample.midway, Sample.change] ∧
      starts (.ofId response) = [Sample.midway, .origin] ∧
      s.versionCache.boundaries (.ofId response) = [.origin] :=
  ⟨by decide, by decide +kernel, by decide +kernel, by decide +kernel, by decide +kernel⟩

end StationCatalog
