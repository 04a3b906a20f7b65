import Mathlib.Data.List.Basic
import Mathlib.Data.List.Induction
import StationCatalog.Proofs.Gaps

/-!
Sets of instants under edits. A range that is added takes in every stored range it touches; stored
ranges lie apart, so one pass in ascending order finds them all. An instant is in the set when the
last edit over it added it. Ranges that lie apart are known by what they reach over together, so the
order of edits of one sort leaves no trace.
-/

namespace StationCatalog

namespace TimeRange

theorem touches_iff {r s : TimeRange} :
    r.touches s = true ↔ r.lower ≤ s.upper ∧ s.lower ≤ r.upper := by
  simp only [touches, Bool.and_eq_true, decide_eq_true_eq]

theorem not_touches_iff {r s : TimeRange} :
    r.touches s = false ↔ s.upper < r.lower ∨ r.upper < s.lower := by
  rw [← Bool.not_eq_true, touches_iff]
  simp only [Cut.le_def, Cut.lt_def]
  omega

theorem position_lower_hull (r s : TimeRange) :
    (r.hull s).lower.position = min r.lower.position s.lower.position := by
  rw [hull, lower_between, Cut.position_min]

theorem position_upper_hull (r s : TimeRange) :
    (r.hull s).upper.position = max r.upper.position s.upper.position := by
  have hr := r.ordered
  have hs := s.ordered
  simp only [hull, position_upper_between, Cut.position_min, Cut.position_max, Cut.le_def] at *
  omega

theorem hull_encloses (r s : TimeRange) : (r.hull s).Encloses r ∧ (r.hull s).Encloses s := by
  simp only [Encloses, Cut.le_def, position_lower_hull, position_upper_hull]
  omega

/-- The hull of two ranges that touch has nothing between them. -/
theorem covers_hull {r s : TimeRange} (h : r.touches s = true) {c : Cut} :
    (r.hull s).Covers c ↔ r.Covers c ∨ s.Covers c := by
  have hr := r.ordered
  have hs := s.ordered
  rw [touches_iff] at h
  simp only [Covers, Cut.le_def, Cut.lt_def, position_lower_hull, position_upper_hull] at *
  omega

end TimeRange

namespace RangeSet

variable {set : RangeSet} {r : TimeRange} {rs : List TimeRange}

theorem mem_place {s : TimeRange} : s ∈ place r rs ↔ s = r ∨ s ∈ rs := by
  induction rs with
  | nil => simp only [place, List.mem_singleton, List.not_mem_nil, or_false]
  | cons u rest ih =>
      simp only [place]
      split
      · simp only [List.mem_cons, ih]
        exact or_left_comm
      · simp only [List.mem_cons]

/-- A range that touches none of the others goes where it belongs among them. -/
theorem pairwise_place (apart : ∀ s ∈ rs, s.touches r = false)
    (h : rs.Pairwise fun a b => a.upper < b.lower) :
    (place r rs).Pairwise fun a b => a.upper < b.lower := by
  induction rs with
  | nil => exact List.pairwise_singleton _ r
  | cons s rest ih =>
      obtain ⟨hs, hrest⟩ := List.pairwise_cons.1 h
      obtain ⟨own, others⟩ := List.forall_mem_cons.1 apart
      rw [TimeRange.not_touches_iff] at own
      have hr := r.ordered
      have sord := s.ordered
      simp only [place]
      split
      next below =>
        refine List.pairwise_cons.2 ⟨fun u hu => ?_, ih others hrest⟩
        rcases mem_place.1 hu with rfl | hu
        · simp only [Cut.le_def, Cut.lt_def] at *
          omega
        · exact hs u hu
      next notBelow =>
        have first : r.upper < s.lower := by
          simp only [Cut.le_def, Cut.lt_def] at *
          omega
        refine List.pairwise_cons.2 ⟨fun u hu => ?_, h⟩
        rcases List.mem_cons.1 hu with rfl | hu
        · exact first
        · exact Int.lt_trans first (Int.lt_of_le_of_lt sord (hs u hu))

/-! ### Taking in what a range touches -/

theorem absorb_sublist (r : TimeRange) (rs : List TimeRange) : (absorb r rs).2.Sublist rs := by
  induction rs generalizing r with
  | nil => exact .slnil
  | cons s rest ih =>
      simp only [absorb]
      split
      · exact (ih _).cons s
      · exact (ih r).cons_cons s

/-- What has taken in ranges reaches over what it began with. -/
theorem absorb_encloses (r : TimeRange) (rs : List TimeRange) : (absorb r rs).1.Encloses r := by
  induction rs generalizing r with
  | nil => exact .refl r
  | cons s rest ih =>
      simp only [absorb]
      split
      · exact (ih _).trans (TimeRange.hull_encloses s r).2
      · exact ih r

/-- A cut below all ranges stays below what has taken them in. -/
theorem lt_lower_absorb {c : Cut} (hr : c < r.lower) (hrs : ∀ s ∈ rs, c < s.lower) :
    c < (absorb r rs).1.lower := by
  induction rs generalizing r with
  | nil => exact hr
  | cons s rest ih =>
      obtain ⟨hs, hrest⟩ := List.forall_mem_cons.1 hrs
      simp only [absorb]
      split
      · apply ih _ hrest
        simp only [Cut.lt_def, TimeRange.position_lower_hull] at *
        omega
      · exact ih hr hrest

theorem absorb_of_above (above : ∀ s ∈ rs, r.upper < s.lower) : absorb r rs = (r, rs) := by
  induction rs with
  | nil => rfl
  | cons s rest ih =>
      obtain ⟨hs, hrest⟩ := List.forall_mem_cons.1 above
      have apart : s.touches r = false := TimeRange.not_touches_iff.2 (.inl hs)
      simp only [absorb, apart, Bool.false_eq_true, if_false, ih hrest]

/-- One pass over ascending ranges that lie apart leaves none that touches what has been taken in:
those passed over lie below everything still to come, or nothing to come is touched. -/
theorem absorb_apart (h : rs.Pairwise fun a b => a.upper < b.lower) :
    ∀ s ∈ (absorb r rs).2, s.touches (absorb r rs).1 = false := by
  induction rs generalizing r with
  | nil => exact fun _ hs => absurd hs List.not_mem_nil
  | cons s rest ih =>
      obtain ⟨hs, hrest⟩ := List.pairwise_cons.1 h
      simp only [absorb]
      split
      next => exact ih hrest
      next apart =>
        rw [Bool.not_eq_true, TimeRange.not_touches_iff] at apart
        refine List.forall_mem_cons.2 ⟨?_, ih hrest⟩
        rcases apart with above | below
        · have later : ∀ u ∈ rest, r.upper < u.lower := fun u hu =>
            Int.lt_trans above (Int.lt_of_le_of_lt s.ordered (hs u hu))
          rw [absorb_of_above later]
          exact TimeRange.not_touches_iff.2 (.inl above)
        · exact TimeRange.not_touches_iff.2 (.inr (lt_lower_absorb below hs))

theorem covers_absorb {c : Cut} :
    (absorb r rs).1.Covers c ∨ (∃ s ∈ (absorb r rs).2, s.Covers c) ↔
      r.Covers c ∨ ∃ s ∈ rs, s.Covers c := by
  induction rs generalizing r with
  | nil => exact Iff.rfl
  | cons s rest ih =>
      rw [List.exists_mem_cons_iff]
      simp only [absorb]
      split
      next touching =>
        rw [ih, TimeRange.covers_hull touching, or_comm (a := s.Covers c), or_assoc]
      next => rw [List.exists_mem_cons_iff, or_left_comm, ih, or_left_comm]

/-! ### Edits -/

theorem WellFormed.empty : empty.WellFormed := ⟨fun _ h => absurd h List.not_mem_nil, .nil⟩

theorem WellFormed.add (h : set.WellFormed) (r : TimeRange) : (set.add r).WellFormed := by
  unfold RangeSet.add
  split
  next => exact h
  next hr =>
    rw [Bool.not_eq_true, TimeRange.isEmpty_eq_false_iff] at hr
    have kept := absorb_sublist r set.ranges
    constructor
    · intro s hs
      rcases mem_place.1 hs with rfl | hs
      · obtain ⟨lower, upper⟩ := absorb_encloses r set.ranges
        have reaching := Int.lt_of_le_of_lt lower (Int.lt_of_lt_of_le hr upper)
        exact TimeRange.isEmpty_eq_false_iff.2 reaching
      · exact h.nonempty s (kept.subset hs)
    · exact pairwise_place (absorb_apart h.separated) (h.separated.sublist kept)

theorem exists_covers_add {c : Cut} :
    (∃ s ∈ (set.add r).ranges, s.Covers c) ↔ r.Covers c ∨ ∃ s ∈ set.ranges, s.Covers c := by
  cases h : r.isEmpty with
  | true =>
      have none : ¬r.Covers c := TimeRange.not_covers_of_isEmpty h
      simp only [add, h, if_true, none, false_or]
  | false =>
      simp only [add, h, Bool.false_eq_true, if_false, mem_place, or_and_right, exists_or,
        exists_eq_left, covers_absorb]

theorem contains_iff {t : Instant} :
    set.contains t = true ↔ ∃ s ∈ set.ranges, s.Covers (.below t) := by
  simp only [contains, List.any_eq_true, TimeRange.contains_iff_covers]

/-- One change of a set of instants. -/
inductive Edit
  | add (r : TimeRange)
  | remove (r : TimeRange)

namespace Edit

def range : Edit → TimeRange
  | add r | remove r => r

def apply (set : RangeSet) : Edit → RangeSet
  | add r => set.add r
  | remove r => set.remove r

end Edit

/-- The set that edits leave, from nothing. -/
def ofEdits (edits : List Edit) : RangeSet := edits.foldl Edit.apply empty

/-- The last edit whose range contains an instant. -/
def lastOver (edits : List Edit) (t : Instant) : Option Edit :=
  edits.reverse.find? (·.range.contains t)

theorem WellFormed.apply (h : set.WellFormed) (e : Edit) : (e.apply set).WellFormed := by
  cases e with
  | add r => exact h.add r
  | remove r => exact h.remove r

/-- An edit settles the instants of its range and leaves the others. -/
theorem contains_apply {e : Edit} {t : Instant} :
    (e.apply set).contains t = true ↔
      if e.range.contains t = true then ∃ r, e = .add r else set.contains t = true := by
  cases e with
  | add r =>
      rw [Edit.apply, contains_iff, exists_covers_add, ← contains_iff,
        ← TimeRange.contains_iff_covers, Edit.range]
      split
      next inside => exact iff_of_true (.inl inside) ⟨r, rfl⟩
      next outside => exact or_iff_right outside
  | remove r =>
      rw [Edit.apply, contains_iff, exists_covers_remove, ← contains_iff,
        ← TimeRange.contains_iff_covers, Edit.range]
      split
      next inside =>
        refine iff_of_false (fun h => h.2 inside) ?_
        rintro ⟨_, ⟨⟩⟩
      next outside => exact and_iff_left outside

theorem WellFormed.ofEdits (edits : List Edit) : (ofEdits edits).WellFormed := by
  induction edits using List.reverseRecOn with
  | nil => exact .empty
  | append_singleton edits e ih =>
      rw [RangeSet.ofEdits, List.foldl_append]
      exact ih.apply e

/-- An instant is in the set when the last edit over it added it. -/
theorem contains_ofEdits {edits : List Edit} {t : Instant} :
    (ofEdits edits).contains t = true ↔ ∃ r, lastOver edits t = some (.add r) := by
  induction edits using List.reverseRecOn with
  | nil =>
      refine iff_of_false Bool.false_ne_true ?_
      rintro ⟨_, ⟨⟩⟩
  | append_singleton edits e ih =>
      rw [ofEdits, List.foldl_append, ← ofEdits, List.foldl_cons, List.foldl_nil, contains_apply,
        lastOver, List.reverse_append, List.reverse_singleton, List.singleton_append,
        List.find?_cons]
      split
      next inside => simp only [inside, Option.some.injEq]
      next outside =>
        rw [Bool.not_eq_true] at outside
        rw [outside]
        exact ih

/-- Whatever ranges are added and removed, in whatever order, the ranges of the set are non-empty
and ascending, none of them touches another, and an instant is in the set if and only if some edit
is over it and the last such edit added it. -/
theorem lastEdit_decides (edits : List Edit) :
    (∀ r ∈ (ofEdits edits).ranges, r.isEmpty = false) ∧
      ((ofEdits edits).ranges.Pairwise fun a b => a.upper < b.lower) ∧
      ((ofEdits edits).ranges.Pairwise fun a b => a.touches b = false) ∧
      ∀ t, (ofEdits edits).contains t = true ↔ ∃ r, lastOver edits t = some (.add r) := by
  have wellFormed := WellFormed.ofEdits edits
  have apart : (ofEdits edits).ranges.Pairwise fun a b => a.touches b = false :=
    wellFormed.separated.imp fun h => TimeRange.not_touches_iff.2 (.inr h)
  exact ⟨wellFormed.nonempty, wellFormed.separated, apart, fun t => contains_ofEdits⟩

/-! ### Order of edits -/

section

open TimeRange

variable {s : TimeRange} {ss : List TimeRange}

theorem WellFormed.cons_iff :
    WellFormed ⟨r :: rs⟩ ↔ r.isEmpty = false ∧ (∀ s ∈ rs, r.upper < s.lower) ∧ WellFormed ⟨rs⟩ := by
  constructor
  · intro h
    obtain ⟨nonempty, others⟩ := List.forall_mem_cons.1 h.nonempty
    obtain ⟨apart, separated⟩ := List.pairwise_cons.1 h.separated
    exact ⟨nonempty, apart, others, separated⟩
  · intro ⟨nonempty, apart, rest⟩
    exact ⟨List.forall_mem_cons.2 ⟨nonempty, rest.nonempty⟩,
      List.pairwise_cons.2 ⟨apart, rest.separated⟩⟩

/-- What the ranges after the first reach over lies past the first. -/
theorem WellFormed.exists_covers_tail (h : WellFormed ⟨r :: rs⟩) {c : Cut} :
    (∃ s ∈ rs, s.Covers c) ↔ (∃ s ∈ r :: rs, s.Covers c) ∧ r.upper ≤ c := by
  obtain ⟨-, apart, -⟩ := cons_iff.1 h
  rw [List.exists_mem_cons_iff]
  constructor
  · intro ⟨s, hs, hc⟩
    have past := Int.lt_of_lt_of_le (apart s hs) hc.1
    exact ⟨.inr ⟨s, hs, hc⟩, Int.le_of_lt past⟩
  · intro ⟨reached, past⟩
    exact reached.resolve_left fun hc => absurd hc.2 (Int.not_lt.2 past)

theorem WellFormed.lower_le (h : WellFormed ⟨r :: rs⟩) {c : Cut} (hc : ∃ s ∈ r :: rs, s.Covers c) :
    r.lower ≤ c := by
  rcases (List.exists_mem_cons_iff _ _ _).1 hc with first | later
  · exact first.1
  · exact Int.le_trans r.ordered (h.exists_covers_tail.1 later).2

theorem WellFormed.not_covers_upper (h : WellFormed ⟨r :: rs⟩) :
    ¬∃ s ∈ r :: rs, s.Covers r.upper := by
  intro reached
  obtain ⟨-, apart, -⟩ := cons_iff.1 h
  obtain ⟨s, hs, hc⟩ := h.exists_covers_tail.2 ⟨reached, Int.le_refl _⟩
  exact absurd hc.1 (Int.not_le.2 (apart s hs))

/-- Of sets that reach over the same, the first ranges enclose each other. -/
theorem WellFormed.encloses_first (hr : WellFormed ⟨r :: rs⟩) (hs : WellFormed ⟨s :: ss⟩)
    (same : ∀ c, (∃ p ∈ r :: rs, p.Covers c) ↔ ∃ p ∈ s :: ss, p.Covers c) : r.Encloses s := by
  have begins : ∀ {p ps}, WellFormed ⟨p :: ps⟩ → ∃ q ∈ p :: ps, q.Covers p.lower :=
    fun h => ⟨_, List.mem_cons_self, covers_lower.2 (cons_iff.1 h).1⟩
  constructor
  · exact hr.lower_le ((same s.lower).2 (begins hs))
  · refine Int.not_lt.1 fun longer => ?_
    have before : s.lower ≤ r.lower := hs.lower_le ((same r.lower).1 (begins hr))
    have reached : s.Covers r.upper := ⟨Int.le_trans before r.ordered, longer⟩
    exact hr.not_covers_upper ((same r.upper).2 ⟨s, List.mem_cons_self, reached⟩)

/-- Ranges that lie apart are known by what they reach over together. -/
theorem WellFormed.ext_covers {a b : RangeSet} (ha : a.WellFormed) (hb : b.WellFormed)
    (same : ∀ c, (∃ r ∈ a.ranges, r.Covers c) ↔ ∃ r ∈ b.ranges, r.Covers c) : a = b := by
  obtain ⟨rs⟩ := a
  obtain ⟨ss⟩ := b
  induction rs generalizing ss with
  | nil =>
      cases ss with
      | nil => rfl
      | cons s ss =>
          have reached := covers_lower.2 (WellFormed.cons_iff.1 hb).1
          obtain ⟨r, hr, -⟩ := (same s.lower).2 ⟨s, List.mem_cons_self, reached⟩
          exact absurd hr List.not_mem_nil
  | cons r rs ih =>
      cases ss with
      | nil =>
          have reached := covers_lower.2 (WellFormed.cons_iff.1 ha).1
          obtain ⟨s, hs, -⟩ := (same r.lower).1 ⟨r, List.mem_cons_self, reached⟩
          exact absurd hs List.not_mem_nil
      | cons s ss =>
          have first : r = s :=
            (ha.encloses_first hb same).antisymm (hb.encloses_first ha fun c => (same c).symm)
          subst first
          have rest : (⟨rs⟩ : RangeSet) = ⟨ss⟩ := by
            refine ih (WellFormed.cons_iff.1 ha).2.2 ss (WellFormed.cons_iff.1 hb).2.2 fun c => ?_
            rw [ha.exists_covers_tail, hb.exists_covers_tail]
            exact and_congr_left fun _ => same c
          cases rest
          rfl

/-- Adding ranges one after another leaves what the set or one of them reaches over. -/
theorem foldl_add (h : set.WellFormed) (rs : List TimeRange) :
    (rs.foldl add set).WellFormed ∧ ∀ c, (∃ p ∈ (rs.foldl add set).ranges, p.Covers c) ↔
      (∃ p ∈ set.ranges, p.Covers c) ∨ ∃ r ∈ rs, r.Covers c := by
  induction rs generalizing set with
  | nil => exact ⟨h, fun c => (or_iff_left fun ⟨r, hr, _⟩ => List.not_mem_nil hr).symm⟩
  | cons r rs ih =>
      obtain ⟨wellFormed, covers⟩ := ih (h.add r)
      refine ⟨wellFormed, fun c => ?_⟩
      rw [List.foldl_cons, covers, exists_covers_add, List.exists_mem_cons_iff,
        or_comm (a := r.Covers c), or_assoc]

/-- What adding or removing ranges leaves depends on which ranges they are, not on their order or
repetition. -/
theorem WellFormed.foldl_congr (h : set.WellFormed) {rs rs' : List TimeRange}
    (same : ∀ r, r ∈ rs ↔ r ∈ rs') :
    rs.foldl RangeSet.add set = rs'.foldl RangeSet.add set ∧
      rs.foldl RangeSet.remove set = rs'.foldl RangeSet.remove set := by
  constructor
  · obtain ⟨wellFormed, covers⟩ := foldl_add h rs
    obtain ⟨wellFormed', covers'⟩ := foldl_add h rs'
    refine wellFormed.ext_covers wellFormed' fun c => ?_
    simp only [covers, covers', same]
  · obtain ⟨wellFormed, covers⟩ := foldl_remove h rs
    obtain ⟨wellFormed', covers'⟩ := foldl_remove h rs'
    refine wellFormed.ext_covers wellFormed' fun c => ?_
    simp only [covers, covers', same]

/-- The order of edits of one sort does not matter. Whatever edits led to a set, adding the same
ranges to it in any two orders leaves equal sets, and so does removing them. -/
theorem edits_in_any_order (edits : List Edit) {rs rs' : List TimeRange} (h : rs.Perm rs') :
    rs.foldl add (ofEdits edits) = rs'.foldl add (ofEdits edits) ∧
      rs.foldl remove (ofEdits edits) = rs'.foldl remove (ofEdits edits) :=
  (WellFormed.ofEdits edits).foldl_congr fun _ => h.mem_iff

/-- Two ranges that touch the ends of a third, which is added last or first. -/
theorem edits_in_any_order_touching :
    let s : Instant := ⟨10, by decide, by decide⟩
    let t : Instant := ⟨20, by decide, by decide⟩
    let before := closedOpen s t
    let bridge := closed t .origin
    let after := openClosed .origin ⟨1577836800000000001, by decide, by decide⟩
    let edits := [Edit.add bridge, .add (atLeast t), .remove (opened s .origin)]
    [before, after, bridge].Perm [bridge, after, before] ∧
      [before, after, bridge].foldl add (ofEdits edits) =
        [bridge, after, before].foldl add (ofEdits edits) ∧
      [before, after, bridge].foldl remove (ofEdits edits) =
        [bridge, after, before].foldl remove (ofEdits edits) := by
  intro s t before bridge after edits
  have reversed : [before, after, bridge].Perm [bridge, after, before] :=
    (List.reverse_perm [before, after, bridge]).symm
  exact ⟨reversed, edits_in_any_order edits reversed⟩

end

end RangeSet

end StationCatalog
