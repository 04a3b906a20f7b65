import Mathlib.Data.List.Induction
import StationCatalog.Proofs.RangeIndex

/-!
What writes leave of one another. Of each range that is written to a map there remains what the
ranges written later do not reach over: the fragments that taking them away from it, one after
another, would leave. What is written earlier, and which values are written, makes no difference to
them.
-/

namespace StationCatalog

open TimeRange

namespace RangeSet

variable {set : RangeSet} {r p : TimeRange} {later : List TimeRange}

/-- What is left of a range when others are taken away from it, one after another. -/
def remains (r : TimeRange) (later : List TimeRange) : RangeSet := later.foldl remove (of r)

theorem mem_remove (hr : r.isEmpty = false) :
    p ∈ (set.remove r).ranges ↔ p.isEmpty = false ∧ ∃ q ∈ set.ranges, p ∈ q.minus r := by
  simp only [remove, hr, Bool.false_eq_true, if_false, List.mem_filter, List.mem_flatMap,
    Bool.not_eq_true']
  exact and_comm

theorem remains_concat (r : TimeRange) (later : List TimeRange) (s : TimeRange) :
    remains r (later ++ [s]) = (remains r later).remove s := List.foldl_concat ..

theorem WellFormed.remains (r : TimeRange) (later : List TimeRange) :
    (remains r later).WellFormed := (foldl_remove (.of r) later).1

/-- The ranges of a set begin one below the other. -/
theorem WellFormed.lower_lt (h : set.WellFormed) :
    set.ranges.Pairwise fun p q => p.lower < q.lower :=
  h.separated.imp fun {p _} below => Int.lt_of_le_of_lt p.ordered below

/-- What remains are the largest sub-ranges that none of the others overlaps. -/
theorem mem_remains_iff : p ∈ (remains r later).ranges ↔ IsGap r later p := by
  rw [← Cached.mem_gaps_iff, Cached.gaps, descending, List.mem_reverse, remains]

end RangeSet

namespace RangeMap

variable {α : Type}

theorem exists_suffix_concat {w : α} {es : List α} {P : α → List α → Prop} :
    (∃ e after, e :: after <:+ es ++ [w] ∧ P e after) ↔
      P w [] ∨ ∃ e after, e :: after <:+ es ∧ P e (after ++ [w]) := by
  constructor
  · rintro ⟨e, after, suffix, h⟩
    rcases List.suffix_concat_iff.1 suffix with nil | ⟨rest, parts, shorter⟩
    · cases nil
    · rcases List.cons_eq_append_iff.1 parts with ⟨rfl, last⟩ | ⟨after, rfl, rfl⟩
      · cases last
        exact .inl h
      · exact .inr ⟨e, after, shorter, h⟩
  · rintro (h | ⟨e, after, suffix, h⟩)
    · exact ⟨w, [], List.suffix_append es [w], h⟩
    · exact ⟨e, after ++ [w], List.suffix_concat_iff.2 (.inr ⟨e :: after, rfl, suffix⟩), h⟩

/-- The entries of a map are what remains of its writes under those that came later. -/
theorem mem_ofList {es : List (TimeRange × α)} {f : TimeRange × α} :
    f ∈ (ofList es).entries ↔ ∃ e after, e :: after <:+ es ∧
      f.2 = e.2 ∧ f.1 ∈ (RangeSet.remains e.1 (after.map (·.1))).ranges := by
  induction es using List.reverseRecOn generalizing f with
  | nil =>
      refine iff_of_false List.not_mem_nil ?_
      rintro ⟨e, after, suffix, -⟩
      cases List.suffix_nil.1 suffix
  | append_singleton es w ih =>
      have latest : ofList (es ++ [w]) = (ofList es).put w.1 w.2 := List.foldl_concat ..
      rw [latest, exists_suffix_concat]
      simp only [List.map_append, List.map_cons, List.map_nil, RangeSet.remains_concat]
      cases hw : w.1.isEmpty with
      | true =>
          have none : (RangeSet.remains w.1 []).ranges = [] := RangeSet.ranges_of_empty hw
          simp only [put, RangeSet.remove, hw, if_true, ih, none, List.not_mem_nil, and_false,
            false_or]
      | false =>
          rw [mem_put hw]
          simp only [mem_clip, RangeSet.mem_remove hw]
          refine or_congr ?_ ⟨?_, ?_⟩
          · have whole : (RangeSet.remains w.1 []).ranges = [w.1] := RangeSet.ranges_of hw
            rw [whole, List.mem_singleton, Prod.ext_iff, and_comm]
          · rintro ⟨g, hg, piece, nonempty, same⟩
            obtain ⟨e, after, suffix, value, hq⟩ := ih.1 hg
            exact ⟨e, after, suffix, same.trans value, nonempty, g.1, hq, piece⟩
          · rintro ⟨e, after, suffix, value, nonempty, q, hq, piece⟩
            exact ⟨(q, e.2), ih.2 ⟨e, after, suffix, rfl, hq⟩, piece, nonempty, value⟩

/-! ### Writes by their positions -/

/-- Writes with their positions for part of what they write. -/
def numbered (writes : List (TimeRange × α)) : List (TimeRange × α × Nat) :=
  writes.zipIdx.map fun w => (w.1.1, w.1.2, w.2)

/-- The ranges of the entries that come from one write, ascending. -/
def fragments (m : RangeMap (α × Nat)) (i : Nat) : List TimeRange :=
  (m.entries.filter (·.2.2 = i)).map (·.1)

theorem cons_suffix_iff {w : α} {after ws : List α} :
    w :: after <:+ ws ↔ ∃ i, ws[i]? = some w ∧ after = ws.drop (i + 1) := by
  constructor
  · rintro ⟨before, rfl⟩
    refine ⟨before.length, ?_, ?_⟩
    · rw [List.getElem?_append_right (Nat.le_refl _), Nat.sub_self, List.getElem?_cons_zero]
    · rw [← List.drop_drop, List.drop_left, List.drop_one, List.tail_cons]
  · rintro ⟨i, hi, rfl⟩
    obtain ⟨bound, rfl⟩ := List.getElem?_eq_some_iff.1 hi
    rw [← List.drop_eq_getElem_cons]
    exact List.drop_suffix i ws

theorem getElem?_numbered (writes : List (TimeRange × α)) (i : Nat) :
    (numbered writes)[i]? = writes[i]?.map fun w => (w.1, w.2, i) := by
  rw [numbered, List.getElem?_map, List.getElem?_zipIdx, Option.map_map, Nat.zero_add]
  rfl

theorem map_numbered (writes : List (TimeRange × α)) :
    (numbered writes).map (·.1) = writes.map (·.1) := by
  conv_rhs => rw [← List.zipIdx_map_fst 0 writes, List.map_map]
  rw [numbered, List.map_map]
  rfl

theorem mem_ofList_numbered {writes : List (TimeRange × α)} {f : TimeRange × α × Nat} :
    f ∈ (ofList (numbered writes)).entries ↔ ∃ i w, writes[i]? = some w ∧ f.2 = (w.2, i) ∧
      f.1 ∈ (RangeSet.remains w.1 ((writes.drop (i + 1)).map (·.1))).ranges := by
  simp only [mem_ofList, cons_suffix_iff, getElem?_numbered, Option.map_eq_some_iff]
  constructor
  · rintro ⟨e, after, ⟨i, ⟨w, hw, rfl⟩, rfl⟩, value, left⟩
    rw [List.map_drop, map_numbered, ← List.map_drop] at left
    exact ⟨i, w, hw, value, left⟩
  · rintro ⟨i, w, hw, value, left⟩
    rw [List.map_drop, ← map_numbered, ← List.map_drop] at left
    exact ⟨(w.1, w.2, i), _, ⟨i, ⟨w, hw, rfl⟩, rfl⟩, value, left⟩

theorem mem_fragments {m : RangeMap (α × Nat)} {i : Nat} {p : TimeRange} :
    p ∈ m.fragments i ↔ ∃ v, (p, v, i) ∈ m.entries := by
  simp only [fragments, List.mem_map, List.mem_filter, decide_eq_true_eq]
  constructor
  · rintro ⟨⟨p, v, i⟩, ⟨he, rfl⟩, rfl⟩
    exact ⟨v, he⟩
  · rintro ⟨v, he⟩
    exact ⟨(p, v, i), ⟨he, rfl⟩, rfl⟩

/-- Of a write there are those fragments that the later ones leave of its range. -/
theorem fragments_numbered {writes : List (TimeRange × α)} {i : Nat} {w : TimeRange × α}
    (hw : writes[i]? = some w) :
    (ofList (numbered writes)).fragments i =
      (RangeSet.remains w.1 ((writes.drop (i + 1)).map (·.1))).ranges := by
  have sorted := (WellFormed.ofList (numbered writes)).lower_lt.filter (·.2.2 = i)
  have remaining := RangeSet.WellFormed.remains w.1 ((writes.drop (i + 1)).map (·.1))
  have earlier : ∀ p q : TimeRange, p.lower < q.lower → compareOn TimeRange.lower p q = .lt :=
    fun _ _ => Cut.compare_eq_lt.2
  refine Sorted.eq_of_mem_iff (List.pairwise_map.2 (sorted.imp (earlier _ _)))
    (remaining.lower_lt.imp (earlier _ _)) fun p => ?_
  rw [mem_fragments]
  simp only [mem_ofList_numbered]
  constructor
  · rintro ⟨v, j, u, hu, same, left⟩
    cases same
    cases hw.symm.trans hu
    exact left
  · exact fun left => ⟨w.2, i, w, hw, rfl, left⟩

/-- However ranges are written to a map, those it holds for one of them are the fragments left when
the ranges written later are taken away from it as a set; each is a largest sub-range that no later
range overlaps, and has the value it was written with. The index that is written to in the same way
holds the same entries. -/
theorem fragments_as_subtracted (writes : List (TimeRange × α)) :
    (∀ i : Fin writes.length, (ofList (numbered writes)).fragments i =
      ((writes.drop (i + 1)).foldl (fun set w => RangeSet.remove set w.1)
        (RangeSet.of writes[i].1)).ranges) ∧
    (∀ f, f ∈ (ofList (numbered writes)).entries ↔ ∃ i : Fin writes.length,
      f.2 = (writes[i].2, i.val) ∧
        IsGap writes[i].1 ((writes.drop (i + 1)).map (·.1)) f.1) ∧
    RangeIndex.empty.putEntries (numbered writes) = (ofList (numbered writes)).index := by
  refine ⟨fun i => ?_, fun f => ?_, RangeIndex.putEntries_index .empty (numbered writes)⟩
  · rw [fragments_numbered (List.getElem?_eq_getElem i.isLt), RangeSet.remains, List.foldl_map]
    rfl
  · rw [mem_ofList_numbered]
    simp only [RangeSet.mem_remains_iff]
    constructor
    · rintro ⟨i, w, hw, value, gap⟩
      obtain ⟨bound, rfl⟩ := List.getElem?_eq_some_iff.1 hw
      exact ⟨⟨i, bound⟩, value, gap⟩
    · rintro ⟨i, value, gap⟩
      exact ⟨i, writes[i], List.getElem?_eq_getElem i.isLt, value, gap⟩

end RangeMap

end StationCatalog
