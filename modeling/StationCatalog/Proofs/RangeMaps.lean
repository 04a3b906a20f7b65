import StationCatalog.Proofs.Ranges

/-!
What writes keep of a range map: its ranges stay non-empty, ascending and disjoint, and whatever
holds of every entry, also of what is left of it when it is clipped, holds of every entry
afterwards.
-/

namespace StationCatalog

namespace RangeMap

variable {α : Type} {m : RangeMap α}

/-- Non-empty ranges in ascending order, none of which reaches into the next. -/
structure WellFormed (m : RangeMap α) : Prop where
  nonempty : ∀ e ∈ m.entries, e.1.isEmpty = false
  ascending : m.entries.Pairwise fun a b => a.1.upper ≤ b.1.lower

/-- A property that what is left of an entry has when another with the property is written over
it. -/
def Clips (Q : TimeRange × α → Prop) : Prop :=
  ∀ e f p, Q e → Q f → p ∈ e.1.minus f.1 → Q (p, e.2)

theorem WellFormed.empty : (empty : RangeMap α).WellFormed :=
  ⟨fun _ h => absurd h List.not_mem_nil, .nil⟩

theorem mem_clip {r : TimeRange} {e f : TimeRange × α} :
    f ∈ clip r e ↔ f.1 ∈ e.1.minus r ∧ f.1.isEmpty = false ∧ f.2 = e.2 := by
  simp only [clip, List.mem_map, List.mem_filter, Bool.not_eq_true']
  constructor
  · rintro ⟨p, ⟨hp, hne⟩, rfl⟩
    exact ⟨hp, hne, rfl⟩
  · rintro ⟨hp, hne, hv⟩
    exact ⟨f.1, ⟨hp, hne⟩, Prod.ext rfl hv.symm⟩

theorem mem_place {e f : TimeRange × α} {fs : List (TimeRange × α)} :
    f ∈ place e fs ↔ f = e ∨ f ∈ fs := by
  induction fs with
  | nil => exact List.mem_cons
  | cons g rest ih =>
      simp only [place]
      split
      · simp only [List.mem_cons, ih]
        exact or_left_comm
      · simp only [List.mem_cons]

theorem mem_put {r : TimeRange} {v : α} (hr : r.isEmpty = false) {f : TimeRange × α} :
    f ∈ (m.put r v).entries ↔ f = (r, v) ∨ ∃ e ∈ m.entries, f ∈ clip r e := by
  simp only [put, hr, Bool.false_eq_true, if_false, mem_place, List.mem_flatMap]

theorem pairwise_place {e : TimeRange × α} {fs : List (TimeRange × α)}
    (he : e.1.isEmpty = false) (hfs : ∀ f ∈ fs, f.1.isEmpty = false)
    (apart : ∀ f ∈ fs, f.1.Apart e.1) (h : fs.Pairwise fun a b => a.1.upper ≤ b.1.lower) :
    (place e fs).Pairwise fun a b => a.1.upper ≤ b.1.lower := by
  rw [TimeRange.isEmpty_eq_false_iff] at he
  induction fs with
  | nil => exact List.pairwise_singleton _ e
  | cons f rest ih =>
      obtain ⟨hf, hrest⟩ := List.pairwise_cons.1 h
      have hne := TimeRange.isEmpty_eq_false_iff.1 (hfs f List.mem_cons_self)
      have hapart := apart f List.mem_cons_self
      simp only [place]
      split
      next hlt =>
        refine List.pairwise_cons.2 ⟨?_, ih (fun g hg => hfs g (List.mem_cons_of_mem f hg))
          (fun g hg => apart g (List.mem_cons_of_mem f hg)) hrest⟩
        intro g hg
        rcases mem_place.1 hg with rfl | hg
        · simp only [TimeRange.Apart, Cut.le_def, Cut.lt_def] at *
          omega
        · exact hf g hg
      next hge =>
        have first : e.1.upper ≤ f.1.lower := by
          simp only [TimeRange.Apart, Cut.le_def, Cut.lt_def] at *
          omega
        refine List.pairwise_cons.2 ⟨?_, h⟩
        intro g hg
        rcases List.mem_cons.1 hg with rfl | hg
        · exact first
        · have := hf g hg
          simp only [Cut.le_def, Cut.lt_def] at *
          omega

/-- Non-empty parts of the range of an entry, in ascending order and apart. -/
structure Pieces (e : TimeRange × α) (ps : List (TimeRange × α)) : Prop where
  nonempty : ∀ p ∈ ps, p.1.isEmpty = false
  within : ∀ p ∈ ps, e.1.Encloses p.1
  ascending : ps.Pairwise fun a b => a.1.upper ≤ b.1.lower

theorem Pieces.whole {e : TimeRange × α} (nonempty : e.1.isEmpty = false) : Pieces e [e] where
  nonempty := by
    intro p hp
    rwa [List.mem_singleton.1 hp]
  within := by
    intro p hp
    rw [List.mem_singleton.1 hp]
    exact .refl e.1
  ascending := List.pairwise_singleton _ e

theorem Pieces.clip (r : TimeRange) (e : TimeRange × α) : Pieces e (clip r e) where
  nonempty _ hp := (mem_clip.1 hp).2.1
  within _ hp := TimeRange.encloses_of_mem_minus (mem_clip.1 hp).1
  ascending := List.pairwise_map.2 (((TimeRange.pairwise_minus e.1 r).filter _).imp Int.le_of_lt)

/-- Pieces of its entries in their places make a well-formed map. -/
theorem WellFormed.flatMap (h : m.WellFormed) {f : TimeRange × α → List (TimeRange × α)}
    (pieces : ∀ e ∈ m.entries, Pieces e (f e)) : WellFormed ⟨m.entries.flatMap f⟩ := by
  constructor
  · intro p hp
    obtain ⟨e, he, hp⟩ := List.mem_flatMap.1 hp
    exact (pieces e he).nonempty p hp
  · refine List.pairwise_flatMap.2 ⟨fun e he => (pieces e he).ascending, ?_⟩
    refine h.ascending.imp_of_mem fun {a b} ha hb below => ?_
    intro p hp q hq
    have first := (pieces a ha).within p hp
    have second := (pieces b hb).within q hq
    exact Int.le_trans first.2 (Int.le_trans below second.1)

theorem WellFormed.put (h : m.WellFormed) (r : TimeRange) (v : α) : (m.put r v).WellFormed := by
  cases hr : r.isEmpty with
  | true => simpa only [RangeMap.put, hr, if_true] using h
  | false =>
      constructor
      · intro f hf
        rcases (mem_put hr).1 hf with rfl | ⟨e, he, hf⟩
        · exact hr
        · exact (mem_clip.1 hf).2.1
      · have apart : ∀ f ∈ m.entries.flatMap (clip r), f.1.isEmpty = false ∧ f.1.Apart r := by
          intro f hf
          obtain ⟨e, he, hf⟩ := List.mem_flatMap.1 hf
          obtain ⟨hp, hne, -⟩ := mem_clip.1 hf
          exact ⟨hne, TimeRange.apart_of_mem_minus hr hne hp⟩
        simp only [RangeMap.put, hr, Bool.false_eq_true, if_false]
        exact pairwise_place hr (fun f hf => (apart f hf).1) (fun f hf => (apart f hf).2)
          (h.flatMap fun e _ => .clip r e).ascending

theorem put_forall {Q : TimeRange × α → Prop} (hQ : Clips Q) (h : ∀ e ∈ m.entries, Q e)
    {r : TimeRange} {v : α} (hv : Q (r, v)) : ∀ e ∈ (m.put r v).entries, Q e := by
  intro f hf
  cases hr : r.isEmpty with
  | true =>
      simp only [put, hr, if_true] at hf
      exact h f hf
  | false =>
      rcases (mem_put hr).1 hf with rfl | ⟨e, he, hf⟩
      · exact hv
      · obtain ⟨hp, -, hval⟩ := mem_clip.1 hf
        rw [show f = (f.1, e.2) from Prod.ext rfl hval]
        exact hQ e (r, v) f.1 (h e he) hv hp

theorem put_ne_nil (h : m.entries ≠ []) (r : TimeRange) (v : α) : (m.put r v).entries ≠ [] := by
  cases hr : r.isEmpty with
  | true => simpa only [put, hr, if_true] using h
  | false => exact List.ne_nil_of_mem ((mem_put hr).2 (.inl rfl))

theorem WellFormed.putEntries (h : m.WellFormed) (es : List (TimeRange × α)) :
    (m.putEntries es).WellFormed := by
  induction es generalizing m with
  | nil => exact h
  | cons e es ih => exact ih (h.put e.1 e.2)

theorem putEntries_forall {Q : TimeRange × α → Prop} (hQ : Clips Q)
    (h : ∀ e ∈ m.entries, Q e) {es : List (TimeRange × α)} (hes : ∀ e ∈ es, Q e) :
    ∀ e ∈ (m.putEntries es).entries, Q e := by
  induction es generalizing m with
  | nil => exact h
  | cons e es ih =>
      exact ih (put_forall hQ h (hes e List.mem_cons_self))
        fun f hf => hes f (List.mem_cons_of_mem e hf)

theorem putEntries_ne_nil (h : m.entries ≠ []) (es : List (TimeRange × α)) :
    (m.putEntries es).entries ≠ [] := by
  induction es generalizing m with
  | nil => exact h
  | cons e es ih => exact ih (put_ne_nil h e.1 e.2)

/-- Writing something over ranges that are not empty leaves something. -/
theorem putEntries_ne_nil_of_nonempty {es : List (TimeRange × α)} (hes : es ≠ [])
    (nonempty : ∀ e ∈ es, e.1.isEmpty = false) : (m.putEntries es).entries ≠ [] := by
  cases es with
  | nil => exact absurd rfl hes
  | cons e es =>
      refine putEntries_ne_nil (List.ne_nil_of_mem (a := e) ?_) es
      exact (mem_put (nonempty e List.mem_cons_self)).2 (.inl rfl)

theorem ofList_forall {Q : TimeRange × α → Prop} (hQ : Clips Q) {es : List (TimeRange × α)}
    (hes : ∀ e ∈ es, Q e) : ∀ e ∈ (ofList es).entries, Q e :=
  putEntries_forall hQ (fun _ h => absurd h List.not_mem_nil) hes

theorem WellFormed.ofList (es : List (TimeRange × α)) : (ofList es).WellFormed :=
  WellFormed.empty.putEntries es

end RangeMap

end StationCatalog
