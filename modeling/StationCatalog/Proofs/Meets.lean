import StationCatalog.Proofs.RangeIndex
import StationCatalog.Proofs.RangeSets

/-!
Linear order of cuts and meets of ranges. Cuts compare by the instants they are next to and, of the
same instant, by its sides; a cut at an end of the time line comes before or after all the others.
That is the order of their positions, hence a linear one. What two ranges have in common is the
largest range within both, and there is one when some cut lies within the bounds of both.
-/

namespace StationCatalog

namespace Cut

/-- Where a cut lies on the time line: before all instants, next to one, or after all of them. -/
def rank : Cut → Nat
  | belowAll => 0
  | below _ | above _ => 1
  | aboveAll => 2

/-- Compares cuts by the instants they are next to. The cuts of one instant lie on its two sides,
the lower one first; a cut that is next to no instant is told by its rank. -/
def compareEnds : Cut → Cut → Ordering
  | below s, below t | above s, above t => compare s t
  | below s, above t => (compare s t).then .lt
  | above s, below t => (compare s t).then .gt
  | a, b => compare a.rank b.rank

instance : Std.IsLinearOrder Cut where
  le_refl _ := Int.le_refl _
  le_trans _ _ _ := Int.le_trans
  le_antisymm _ _ h h' := position_inj (Int.le_antisymm h h')
  le_total _ _ := Int.le_total _ _

instance : Std.LawfulOrderLT Cut where
  lt_iff _ _ := Int.lt_iff_le_and_not_ge

instance : Std.LawfulOrderOrd Cut where
  isLE_compare _ _ := Int.isLE_compare
  isGE_compare _ _ := Int.isGE_compare

instance : Std.LawfulEqOrd Cut where
  eq_of_compare := compare_eq_iff.1

theorem compare_eq_gt {a b : Cut} : compare a b = .gt ↔ b < a := Int.compare_eq_gt

theorem below_lt_above (t : Instant) : below t < above t := Int.lt_succ _

theorem belowAll_lt {c : Cut} (h : c ≠ belowAll) : belowAll < c := by
  cases c with
  | belowAll => exact absurd rfl h
  | below t => exact belowAll_lt_below t
  | above t => exact Int.lt_trans (belowAll_lt_below t) (below_lt_above t)
  | aboveAll => decide

theorem lt_aboveAll {c : Cut} (h : c ≠ aboveAll) : c < aboveAll := by
  cases c with
  | belowAll => decide
  | below t => exact Int.lt_trans (below_lt_above t) (above_lt_aboveAll t)
  | above t => exact above_lt_aboveAll t
  | aboveAll => exact absurd rfl h

/-- Between the positions of two instants there is room for the sides of both: the instants decide,
and the sides break the tie. -/
theorem compare_beside (s t : Instant) :
    compare (below s) (below t) = compare s t ∧ compare (above s) (above t) = compare s t ∧
      compare (below s) (above t) = (compare s t).then .lt ∧
      compare (above s) (below t) = (compare s t).then .gt := by
  rcases Int.lt_trichotomy s.nanos t.nanos with before | same | after
  · have instants : compare s t = .lt := Int.compare_eq_lt.2 before
    simp only [instants, Ordering.then, compare_eq_lt, lt_def, position]
    omega
  · obtain rfl := Instant.ext same
    simp only [Std.ReflCmp.compare_self, Ordering.then, compare_eq_lt, compare_eq_gt,
      below_lt_above, and_self]
  · have instants : compare s t = .gt := Int.compare_eq_gt.2 after
    simp only [instants, Ordering.then, compare_eq_gt, lt_def, position]
    omega

/-- Comparing positions is comparing ends. -/
theorem compare_eq_compareEnds (a b : Cut) : compare a b = a.compareEnds b := by
  match a, b with
  | below s, below t => exact (compare_beside s t).1
  | above s, above t => exact (compare_beside s t).2.1
  | below s, above t => exact (compare_beside s t).2.2.1
  | above s, below t => exact (compare_beside s t).2.2.2
  | belowAll, belowAll | belowAll, aboveAll | aboveAll, belowAll | aboveAll, aboveAll => rfl
  | belowAll, below _ | belowAll, above _ => exact compare_eq_lt.2 (belowAll_lt nofun)
  | below _, aboveAll | above _, aboveAll => exact compare_eq_lt.2 (lt_aboveAll nofun)
  | below _, belowAll | above _, belowAll => exact compare_eq_gt.2 (belowAll_lt nofun)
  | aboveAll, below _ | aboveAll, above _ => exact compare_eq_gt.2 (lt_aboveAll nofun)

end Cut

namespace TimeRange

variable {a b r s : TimeRange} {c : Cut}

/-- The cut lies within the bounds of the range, at one of them or between. -/
def Spans (r : TimeRange) (c : Cut) : Prop := r.lower ≤ c ∧ c ≤ r.upper

/-- The largest of the ranges that lie within both of two ranges. -/
structure IsMeet (r a b : TimeRange) : Prop where
  left : a.Encloses r
  right : b.Encloses r
  largest : ∀ s, a.Encloses s → b.Encloses s → r.Encloses s

theorem IsMeet.symm (h : r.IsMeet a b) : r.IsMeet b a :=
  ⟨h.right, h.left, fun s hb ha => h.largest s ha hb⟩

theorem IsMeet.unique (hr : r.IsMeet a b) (hs : s.IsMeet a b) : r = s :=
  (hr.largest s hs.left hs.right).antisymm (hs.largest r hr.left hr.right)

/-- A range lies within the meet just when it lies within both ranges. -/
theorem IsMeet.encloses_iff (h : r.IsMeet a b) : r.Encloses s ↔ a.Encloses s ∧ b.Encloses s :=
  ⟨fun hs => ⟨h.left.trans hs, h.right.trans hs⟩, fun ⟨ha, hb⟩ => h.largest s ha hb⟩

/-- To contain an instant is to enclose the closed range of that instant alone. -/
theorem contains_iff_encloses {t : Instant} :
    r.contains t = true ↔ r.Encloses (closed t t) := by
  have upper := position_upper_closed (Int.le_refl t.nanos : t ≤ t)
  rw [contains_iff, Encloses, lower_closed, Cut.le_def (a := (closed t t).upper), upper]
  rfl

theorem IsMeet.contains_iff (h : r.IsMeet a b) {t : Instant} :
    r.contains t = true ↔ a.contains t = true ∧ b.contains t = true := by
  simp only [contains_iff_encloses, h.encloses_iff]

/-- Two ranges touch when some cut lies within the bounds of both. -/
theorem touches_iff_spans : a.touches b = true ↔ ∃ c, a.Spans c ∧ b.Spans c := by
  have ha := a.ordered
  have hb := b.ordered
  rw [touches_iff]
  constructor
  · rintro ⟨hab, hba⟩
    refine ⟨max a.lower b.lower, ?_⟩
    simp only [Spans, Cut.le_def, Cut.position_max] at *
    omega
  · rintro ⟨c, inA, inB⟩
    exact ⟨Int.le_trans inA.1 inB.2, Int.le_trans inB.1 inA.2⟩

/-- Of ranges that touch, the later lower cut and the earlier upper one bound the meet. -/
theorem isMeet_between (h : a.touches b = true) :
    (between (max a.lower b.lower) (min a.upper b.upper)).IsMeet a b := by
  have ha := a.ordered
  have hb := b.ordered
  rw [touches_iff] at h
  have upper : (between (max a.lower b.lower) (min a.upper b.upper)).upper.position =
      min a.upper.position b.upper.position := by
    rw [position_upper_between, Cut.position_max, Cut.position_min]
    simp only [Cut.le_def] at *
    omega
  constructor
  · simp only [Encloses, Cut.le_def, lower_between, upper, Cut.position_max]
    omega
  · simp only [Encloses, Cut.le_def, lower_between, upper, Cut.position_max]
    omega
  · intro s inA inB
    simp only [Encloses, Cut.le_def, lower_between, upper, Cut.position_max] at *
    omega

theorem inter?_eq_some_iff : a.inter? b = some r ↔ r.IsMeet a b := by
  unfold inter?
  constructor
  · intro h
    split at h
    next touching =>
      cases h
      exact isMeet_between touching
    next => cases h
  · intro h
    have touching : a.touches b = true := by
      refine touches_iff_spans.2 ⟨r.lower, ?_, ?_⟩
      · exact ⟨h.left.1, Int.le_trans r.ordered h.left.2⟩
      · exact ⟨h.right.1, Int.le_trans r.ordered h.right.2⟩
    rw [if_pos touching, (isMeet_between touching).unique h]

theorem inter?_eq_none_iff : a.inter? b = none ↔ ¬∃ c, a.Spans c ∧ b.Spans c := by
  rw [← touches_iff_spans]
  unfold inter?
  split
  next touching => simp only [reduceCtorEq, touching, not_true_eq_false]
  next apart => exact iff_of_true rfl apart

theorem inter?_comm (a b : TimeRange) : a.inter? b = b.inter? a := by
  refine Option.ext fun r => ?_
  rw [inter?_eq_some_iff, inter?_eq_some_iff]
  exact ⟨IsMeet.symm, IsMeet.symm⟩

/-- Cuts are in a linear order, which is the comparison by ends and in which only a cut and itself
are level. A cut lies before an instant when it is no later than the cut below the instant, or
earlier than the one above it. What two ranges have in common does not depend on which comes first;
there is none just when no cut lies within the bounds of both, and otherwise it is the largest range
within both, so that it contains the instants that both contain. -/
theorem linear_cuts_and_meets :
    (Std.IsLinearOrder Cut ∧ Std.LawfulOrderLT Cut ∧ Std.LawfulOrderOrd Cut ∧
      Std.LawfulBEqOrd Cut ∧ ∀ c d : Cut, compare c d = c.compareEnds d) ∧
    (∀ (c : Cut) (t : Instant),
      (c.isBefore t = true ↔ c ≤ .below t) ∧ (c.isBefore t = true ↔ c < .above t)) ∧
    ∀ a b : TimeRange,
      a.inter? b = b.inter? a ∧
      (a.inter? b = none ↔ ¬∃ c, a.Spans c ∧ b.Spans c) ∧
      (∀ r, a.inter? b = some r ↔ r.IsMeet a b) ∧
      ∀ r, a.inter? b = some r →
        ∀ t, r.contains t = true ↔ a.contains t = true ∧ b.contains t = true := by
  refine ⟨⟨inferInstance, inferInstance, inferInstance, inferInstance,
    Cut.compare_eq_compareEnds⟩, ?_, ?_⟩
  · intro c t
    exact ⟨Cut.isBefore_iff_le, Cut.isBefore_iff_le.trans Cut.le_below_iff_lt_above⟩
  · intro a b
    refine ⟨inter?_comm a b, inter?_eq_none_iff, fun r => inter?_eq_some_iff, ?_⟩
    intro r h t
    exact (inter?_eq_some_iff.1 h).contains_iff

end TimeRange

end StationCatalog
