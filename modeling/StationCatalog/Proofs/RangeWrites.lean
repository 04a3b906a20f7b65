import StationCatalog.Proofs.RangeIndex

/-!
What is read from a range map after writes. At each place of the time line a map holds what was
written there last, whatever ranges were written before and after, one by one, from another map or
from a list.
-/

namespace StationCatalog

open TimeRange

namespace RangeMap

variable {α β : Type} {m other : RangeMap α} {r : TimeRange} {v x : α} {t : Instant}

/-- The map holds a value at the place just above a cut. -/
def Holds (m : RangeMap α) (c : Cut) (v : α) : Prop := ∃ r, (r, v) ∈ m.entries ∧ r.Covers c

/-- A write settles the places of its range and leaves the others. -/
theorem holds_put {c : Cut} :
    (m.put r v).Holds c x ↔ r.Covers c ∧ x = v ∨ ¬r.Covers c ∧ m.Holds c x := by
  cases hr : r.isEmpty with
  | true =>
      have none : ¬r.Covers c := not_covers_of_isEmpty hr
      simp only [put, hr, if_true, none, false_and, false_or, not_false_eq_true, true_and]
  | false =>
      simp only [Holds, mem_put hr, mem_clip]
      constructor
      · rintro ⟨p, eq | ⟨e, he, hp, -, rfl⟩, hc⟩
        · cases eq
          exact .inl ⟨hc, rfl⟩
        · obtain ⟨covered, apart⟩ := exists_mem_minus_covers.1 ⟨p, hp, hc⟩
          exact .inr ⟨apart, e.1, he, covered⟩
      · rintro (⟨hc, rfl⟩ | ⟨apart, p, hp, hc⟩)
        · exact ⟨r, .inl rfl, hc⟩
        · obtain ⟨q, hq, reached⟩ := exists_mem_minus_covers.2 ⟨hc, apart⟩
          exact ⟨q, .inr ⟨(p, x), hp, hq, reached.isEmpty_eq_false, rfl⟩, reached⟩

theorem WellFormed.eq_of_covers (h : m.WellFormed) {e f : TimeRange × α} (he : e ∈ m.entries)
    (hf : f ∈ m.entries) {c : Cut} (hec : e.1.Covers c) (hfc : f.1.Covers c) : e = f := by
  rcases h.apart he hf with eq | apart
  · exact eq
  · simp only [Apart, Covers, Cut.le_def, Cut.lt_def] at *
    omega

/-- The entry at an instant is the one whose range contains it. -/
theorem entryAt?_eq_some_iff (h : m.WellFormed) {e : TimeRange × α} :
    m.entryAt? t = some e ↔ e ∈ m.entries ∧ e.1.contains t = true := by
  constructor
  · intro found
    exact ⟨List.mem_of_find?_eq_some found, by simpa only using List.find?_some found⟩
  · rintro ⟨he, inside⟩
    cases found : m.entryAt? t with
    | none => exact absurd inside (List.find?_eq_none.1 found e he)
    | some f =>
        have hf : f.1.contains t = true := by simpa only using List.find?_some found
        rw [contains_iff_covers] at inside hf
        rw [h.eq_of_covers (List.mem_of_find?_eq_some found) he hf inside]

theorem get?_eq_some_iff (h : m.WellFormed) : m.get? t = some v ↔ m.Holds (.below t) v := by
  simp only [get?, Option.map_eq_some_iff, entryAt?_eq_some_iff h, Holds, contains_iff_covers]
  constructor
  · rintro ⟨e, ⟨he, inside⟩, rfl⟩
    exact ⟨e.1, he, inside⟩
  · rintro ⟨r, he, inside⟩
    exact ⟨(r, v), ⟨he, inside⟩, rfl⟩

/-- After a write, the instants of its range have its value, and the others what they had. -/
theorem get?_put (h : m.WellFormed) (r : TimeRange) (v : α) (t : Instant) :
    (m.put r v).get? t = if r.contains t = true then some v else m.get? t := by
  ext x
  rw [get?_eq_some_iff (h.put r v), holds_put, ← contains_iff_covers]
  split
  next inside =>
    simp only [inside, true_and, not_true_eq_false, false_and, or_false, Option.some.injEq]
    exact eq_comm
  next outside =>
    rw [← get?_eq_some_iff h]
    exact (or_iff_right fun hx => outside hx.1).trans (and_iff_right outside)

/-- The value written last over an instant. -/
def lastWrite (writes : List (TimeRange × α)) (t : Instant) : Option α :=
  (writes.reverse.find? (·.1.contains t)).map (·.2)

theorem lastWrite_append (first later : List (TimeRange × α)) (t : Instant) :
    lastWrite (first ++ later) t = (lastWrite later t).or (lastWrite first t) := by
  rw [lastWrite, List.reverse_append, List.find?_append, lastWrite, lastWrite]
  cases later.reverse.find? (·.1.contains t) <;> rfl

theorem lastWrite_singleton (r : TimeRange) (v : α) (t : Instant) :
    lastWrite [(r, v)] t = if r.contains t = true then some v else none := by
  cases inside : r.contains t <;> simp [lastWrite, inside]

theorem get?_putEntries (h : m.WellFormed) (es : List (TimeRange × α)) (t : Instant) :
    (m.putEntries es).get? t = (lastWrite es t).or (m.get? t) := by
  induction es generalizing m with
  | nil => rfl
  | cons e es ih =>
      have own : (m.put e.1 e.2).get? t = (lastWrite [e] t).or (m.get? t) := by
        rw [get?_put h, lastWrite_singleton]
        split <;> rfl
      rw [← List.singleton_append, lastWrite_append, Option.or_assoc, ← own]
      exact ih (h.put e.1 e.2)

/-- A map has at each instant what its own entries write there. -/
theorem lastWrite_entries (h : m.WellFormed) (t : Instant) :
    lastWrite m.entries t = m.get? t := by
  unfold lastWrite get?
  refine congrArg (Option.map (Prod.snd : TimeRange × α → α)) ?_
  cases last : m.entries.reverse.find? (·.1.contains t) with
  | none =>
      rw [List.find?_eq_none] at last
      refine (List.find?_eq_none.2 fun e he => last e ?_).symm
      exact List.mem_reverse.2 he
  | some e =>
      have he := List.mem_reverse.1 (List.mem_of_find?_eq_some last)
      have inside : e.1.contains t = true := by simpa only using List.find?_some last
      exact ((entryAt?_eq_some_iff h).2 ⟨he, inside⟩).symm

/-- Another map written over this one is read first. -/
theorem get?_putAll (h : m.WellFormed) (hother : other.WellFormed) (t : Instant) :
    (m.putAll other).get? t = (other.get? t).or (m.get? t) := by
  rw [putAll, get?_putEntries h, lastWrite_entries hother]

theorem lastWrite_map (f : α → β) (writes : List (TimeRange × α)) (t : Instant) :
    lastWrite (writes.map fun e => (e.1, f e.2)) t = (lastWrite writes t).map f := by
  rw [lastWrite, lastWrite, ← List.map_reverse, List.find?_map, Option.map_map, Option.map_map]
  rfl

/-! ### Values of one type -/

theorem WellFormed.filterMap (h : m.WellFormed) (f : α → Option β) :
    (m.filterMap f).WellFormed := by
  have kept : ∀ {e : TimeRange × α} {p : TimeRange × β},
      p ∈ (f e.2).map (e.1, ·) → p.1 = e.1 := by
    intro e p hp
    obtain ⟨y, -, rfl⟩ := Option.map_eq_some_iff.1 hp
    rfl
  constructor
  · intro p hp
    obtain ⟨e, he, hp⟩ := List.mem_filterMap.1 hp
    rw [kept hp]
    exact h.nonempty e he
  · refine List.Pairwise.filterMap _ (fun a b below p hp q hq => ?_) h.ascending
    rw [kept hp, kept hq]
    exact below

theorem holds_filterMap {f : α → Option β} {c : Cut} {y : β} :
    (m.filterMap f).Holds c y ↔ ∃ x, m.Holds c x ∧ f x = some y := by
  simp only [Holds, filterMap, List.mem_filterMap, Option.map_eq_some_iff]
  constructor
  · rintro ⟨r, ⟨e, he, z, hz, same⟩, hc⟩
    cases same
    exact ⟨e.2, ⟨e.1, he, hc⟩, hz⟩
  · rintro ⟨x, ⟨r, he, hc⟩, hy⟩
    exact ⟨r, ⟨(r, x), he, y, hy, rfl⟩, hc⟩

/-- It makes no difference whether values are refused before an instant is looked up or after. -/
theorem get?_filterMap (h : m.WellFormed) (f : α → Option β) (t : Instant) :
    (m.filterMap f).get? t = (m.get? t).bind f := by
  ext y
  rw [get?_eq_some_iff (h.filterMap f), holds_filterMap, Option.bind_eq_some_iff]
  simp only [get?_eq_some_iff h]

/-! ### The span -/

/-- The range encloses every entry, and so does no smaller one. -/
structure IsSpan (m : RangeMap α) (r : TimeRange) : Prop where
  encloses : ∀ e ∈ m.entries, r.Encloses e.1
  least : ∀ s : TimeRange, (∀ e ∈ m.entries, s.Encloses e.1) → s.Encloses r

/-- In ascending entries the first begins, and the last ends, no later than any other. -/
theorem WellFormed.ends (h : m.WellFormed) {first last : TimeRange × α}
    (hfirst : m.entries.head? = some first) (hlast : m.entries.getLast? = some last)
    {e : TimeRange × α} (he : e ∈ m.entries) :
    first.1.lower ≤ e.1.lower ∧ e.1.upper ≤ last.1.upper := by
  have ascending := h.ascending
  constructor
  · obtain ⟨rest, parts⟩ := List.head?_eq_some_iff.1 hfirst
    rw [parts] at ascending he
    rcases List.mem_cons.1 he with rfl | he
    · exact Int.le_refl _
    · exact Int.le_trans first.1.ordered ((List.pairwise_cons.1 ascending).1 e he)
  · obtain ⟨rest, parts⟩ := List.getLast?_eq_some_iff.1 hlast
    rw [parts] at ascending he
    rcases List.mem_append.1 he with he | he
    · have below := (List.pairwise_append.1 ascending).2.2 e he last (List.mem_singleton_self last)
      exact Int.le_trans below last.1.ordered
    · exact List.mem_singleton.1 he ▸ Int.le_refl _

theorem isSpan_of_span?_eq_some (h : m.WellFormed) (hr : m.span? = some r) : m.IsSpan r := by
  unfold span? at hr
  split at hr
  next first last hfirst hlast =>
    cases hr
    have within := fun e he => h.ends hfirst hlast (e := e) he
    have hf := List.mem_of_head? hfirst
    have hl := List.mem_of_getLast? hlast
    have ordered := first.1.ordered
    have upper := (within first hf).2
    constructor
    · intro e he
      have := within e he
      simp only [Encloses, lower_between, position_upper_between, Cut.le_def] at *
      omega
    · intro s encloses
      have := encloses first hf
      have := encloses last hl
      simp only [Encloses, lower_between, position_upper_between, Cut.le_def] at *
      omega
  next => cases hr

/-- A map has a span unless it is empty, and the span is the smallest range over its entries. -/
theorem span?_eq_some_iff (h : m.WellFormed) :
    m.span? = some r ↔ m.entries ≠ [] ∧ m.IsSpan r := by
  constructor
  · intro hr
    refine ⟨?_, isSpan_of_span?_eq_some h hr⟩
    rintro nil
    simp only [span?, nil, List.head?_nil] at hr
    cases hr
  · rintro ⟨nonempty, span⟩
    cases hs : m.span? with
    | none =>
        rw [span?, List.head?_eq_some_head nonempty, List.getLast?_eq_some_getLast nonempty] at hs
        cases hs
    | some s =>
        have own := isSpan_of_span?_eq_some h hs
        rw [(own.least r span.encloses).antisymm (span.least s own.encloses)]

end RangeMap

/-- How a range map comes about: one write at a time, from another map, or from a list. -/
inductive MapBuild (α : Type)
  | empty
  | put (base : MapBuild α) (r : TimeRange) (v : α)
  | putAll (base other : MapBuild α)
  | collect (entries : List (TimeRange × α))

namespace MapBuild

variable {α : Type}

/-- The map that is built. -/
def map : MapBuild α → RangeMap α
  | empty => .empty
  | put base r v => base.map.put r v
  | putAll base other => base.map.putAll other.map
  | collect entries => .ofList entries

/-- The index that is built in the same way. -/
def index : MapBuild α → RangeIndex α
  | empty => .empty
  | put base r v => base.index.put r v
  | putAll base other => base.index.putEntries (other.index.entries.map (·.2))
  | collect entries => RangeIndex.empty.putEntries entries

/-- Everything that is written on the way, oldest first. -/
def writes : MapBuild α → List (TimeRange × α)
  | empty => []
  | put base r v => base.writes ++ [(r, v)]
  | putAll base other => base.writes ++ other.writes
  | collect entries => entries

theorem wellFormed (b : MapBuild α) : b.map.WellFormed := by
  induction b with
  | empty => exact .empty
  | put base r v ih => exact ih.put r v
  | putAll base other ih => exact ih.putEntries other.map.entries
  | collect entries => exact .ofList entries

theorem index_eq (b : MapBuild α) : b.index = b.map.index := by
  induction b with
  | empty => rfl
  | put base r v ih => rw [index, ih, RangeIndex.put_index base.wellFormed, map]
  | putAll base other ih ihOther =>
      have entries : other.map.index.entries.map (·.2) = other.map.entries := by
        rw [RangeMap.index, List.map_map]
        exact List.map_id _
      rw [index, ih, ihOther, entries, RangeIndex.putEntries_index base.wellFormed, map]
      rfl
  | collect entries => exact RangeIndex.putEntries_index .empty entries

theorem get?_map (b : MapBuild α) (t : Instant) :
    b.map.get? t = RangeMap.lastWrite b.writes t := by
  induction b with
  | empty => rfl
  | put base r v ih =>
      rw [map, RangeMap.get?_put base.wellFormed, writes, RangeMap.lastWrite_append, ← ih,
        RangeMap.lastWrite_singleton]
      split <;> rfl
  | putAll base other ih ihOther =>
      rw [map, RangeMap.get?_putAll base.wellFormed other.wellFormed, ih, ihOther, writes,
        RangeMap.lastWrite_append]
  | collect entries =>
      rw [map, RangeMap.ofList, RangeMap.get?_putEntries .empty, writes]
      exact Option.or_none

/-- However a map is built, its entries stand under their lower cuts, in order and apart, each
instant has what was written over it last, and the span encloses just what there is. -/
theorem last_write_wins (b : MapBuild α) :
    b.index.entries = b.map.entries.map (fun e => (e.1.lower, e)) ∧
    b.index.entries.Pairwise (fun e f => e.1 < f.1) ∧
    (∀ e ∈ b.map.entries, e.1.isEmpty = false) ∧
    b.map.entries.Pairwise (fun e f => e.1.upper ≤ f.1.lower) ∧
    (∀ t, b.map.get? t = RangeMap.lastWrite b.writes t) ∧
    (∀ t e, b.map.entryAt? t = some e ↔ e ∈ b.map.entries ∧ e.1.contains t = true) ∧
    (∀ t, b.index.entryAt? t = b.map.entryAt? t) ∧
    (∀ other t, (b.map.putAll (map other)).get? t = (other.map.get? t).or (b.map.get? t)) ∧
    (∀ r, b.map.span? = some r ↔ b.map.entries ≠ [] ∧ b.map.IsSpan r) := by
  have h := b.wellFormed
  have keyed := b.index_eq
  refine ⟨congrArg RangeIndex.entries keyed, ?_, h.nonempty, h.ascending, b.get?_map, ?_, ?_, ?_,
    ?_⟩
  · rw [keyed]
    exact h.index_sorted.imp Cut.compare_eq_lt.1
  · exact fun t e => RangeMap.entryAt?_eq_some_iff h
  · intro t
    rw [keyed]
    exact RangeIndex.entryAt?_index h t
  · exact fun other t => RangeMap.get?_putAll h other.wellFormed t
  · exact fun r => RangeMap.span?_eq_some_iff h

end MapBuild

end StationCatalog
