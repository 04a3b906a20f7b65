/-!
Ascending lists without repetition, kept under a comparison. What compares equal counts as the same
element, and an insertion replaces it.
-/

namespace StationCatalog.Sorted

variable {α : Type}

/-- Inserts into an ascending list, in the place of an equal element if there is one. -/
def insert (cmp : α → α → Ordering) (a : α) : List α → List α
  | [] => [a]
  | b :: bs =>
    match cmp a b with
    | .lt => a :: b :: bs
    | .eq => a :: bs
    | .gt => b :: insert cmp a bs

/-- Sorts a list and keeps the first of equal elements. -/
def ofList (cmp : α → α → Ordering) (as : List α) : List α := as.foldr (insert cmp) []

theorem mem_insert_self (cmp : α → α → Ordering) (a : α) (as : List α) : a ∈ insert cmp a as := by
  induction as with
  | nil => exact List.mem_singleton.2 rfl
  | cons b bs ih =>
    simp only [insert]
    split
    · exact List.mem_cons_self
    · exact List.mem_cons_self
    · exact List.mem_cons_of_mem b ih

theorem mem_of_mem_insert {cmp : α → α → Ordering} {a x : α} {as : List α}
    (h : x ∈ insert cmp a as) : x = a ∨ x ∈ as := by
  induction as with
  | nil => exact .inl (List.mem_singleton.1 h)
  | cons b bs ih =>
    simp only [insert] at h
    split at h
    · exact List.mem_cons.1 h
    · exact (List.mem_cons.1 h).imp_right (List.mem_cons_of_mem b)
    · rcases List.mem_cons.1 h with rfl | h
      · exact .inr List.mem_cons_self
      · exact (ih h).imp_right (List.mem_cons_of_mem b)

theorem mem_of_mem_ofList {cmp : α → α → Ordering} {x : α} {as : List α}
    (h : x ∈ ofList cmp as) : x ∈ as := by
  induction as with
  | nil => exact h
  | cons a as ih =>
    rcases mem_of_mem_insert h with rfl | h
    · exact List.mem_cons_self
    · exact List.mem_cons_of_mem a (ih h)

theorem pairwise_insert {cmp : α → α → Ordering} [Std.TransCmp cmp] (a : α) {as : List α}
    (h : as.Pairwise (cmp · · = .lt)) : (insert cmp a as).Pairwise (cmp · · = .lt) := by
  induction as with
  | nil => exact List.pairwise_singleton _ a
  | cons b bs ih =>
    obtain ⟨hb, hbs⟩ := List.pairwise_cons.1 h
    simp only [insert]
    split
    next hab =>
      refine List.pairwise_cons.2 ⟨fun c hc => ?_, h⟩
      rcases List.mem_cons.1 hc with rfl | hc
      · exact hab
      · exact Std.TransCmp.lt_trans hab (hb c hc)
    next hab =>
      exact List.pairwise_cons.2 ⟨fun c hc => Std.TransCmp.lt_of_eq_of_lt hab (hb c hc), hbs⟩
    next hab =>
      refine List.pairwise_cons.2 ⟨fun c hc => ?_, ih hbs⟩
      rcases mem_of_mem_insert hc with rfl | hc
      · exact Std.OrientedCmp.lt_of_gt hab
      · exact hb c hc

theorem pairwise_ofList {cmp : α → α → Ordering} [Std.TransCmp cmp] (as : List α) :
    (ofList cmp as).Pairwise (cmp · · = .lt) := by
  induction as with
  | nil => exact .nil
  | cons a as ih => exact pairwise_insert a ih

end StationCatalog.Sorted
