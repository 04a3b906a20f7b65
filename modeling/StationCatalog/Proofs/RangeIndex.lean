import StationCatalog.Proofs.Ascending
import StationCatalog.Proofs.Gaps

/-!
Range maps as ordered indexes. An index holds each entry under a key; a write finds the entries it
reaches by their keys and upper cuts, takes them out one after another, puts back what is left of
each, and enters itself last; an instant is looked up by going back to the last key before it. On
well-formed maps with every entry under its lower cut, this is what the maps do by clipping every
entry in its place.
-/

namespace StationCatalog

open TimeRange

instance : Std.TransOrd Cut := inferInstanceAs (Std.TransCmp (compareOn Cut.position))

theorem Cut.compare_eq_lt {a b : Cut} : compare a b = .lt ↔ a < b := Int.compare_eq_lt

theorem Cut.compare_eq_iff {a b : Cut} : compare a b = .eq ↔ a = b := by
  refine ⟨fun h => position_inj (Int.compare_eq_eq.1 h), ?_⟩
  rintro rfl
  exact Int.compare_eq_eq.2 rfl

/-- Inserting adds an element if it replaces nothing but itself. -/
theorem Sorted.mem_insert_iff {α : Type} {cmp : α → α → Ordering} {a x : α} {as : List α}
    (same : ∀ b ∈ as, cmp a b = .eq → b = a) : x ∈ insert cmp a as ↔ x = a ∨ x ∈ as := by
  refine ⟨mem_of_mem_insert, ?_⟩
  rintro (rfl | h)
  · exact mem_insert_self cmp x as
  · rcases mem_insert_of_mem h with kept | replaced
    · exact kept
    · exact same x h replaced ▸ mem_insert_self cmp a as

/-- Entries under keys, in ascending order of the keys. -/
structure RangeIndex (α : Type) where
  entries : List (Cut × TimeRange × α)
deriving DecidableEq

namespace RangeIndex

variable {α : Type}

def empty : RangeIndex α := ⟨[]⟩

def compareKeys (a b : Cut × TimeRange × α) : Ordering := compare a.1 b.1

/-- Enters an entry under a key, in the place of the one that was there. -/
def enter (x : RangeIndex α) (key : Cut) (e : TimeRange × α) : RangeIndex α :=
  ⟨Sorted.insert compareKeys (key, e) x.entries⟩

def erase (x : RangeIndex α) (key : Cut) : RangeIndex α := ⟨x.entries.filter (·.1 ≠ key)⟩

/-- The keys of the entries that begin below the upper cut of a range and end above the lower. -/
def reached (x : RangeIndex α) (r : TimeRange) : List Cut :=
  (x.entries.filter fun e => e.1 < r.upper ∧ r.lower < e.2.1.upper).map (·.1)

/-- Takes out the entry under a key and enters what a write over `r` leaves of it, each piece under
its own lower cut. -/
def split (r : TimeRange) (x : RangeIndex α) (key : Cut) : RangeIndex α :=
  match x.entries.find? (·.1 = key) with
  | some e => (RangeMap.clip r e.2).foldl (fun x p => x.enter p.1.lower p) (x.erase key)
  | none => x

/-- Writes a value over a range; an empty range writes nothing. -/
def put (x : RangeIndex α) (r : TimeRange) (v : α) : RangeIndex α :=
  if r.isEmpty then x else ((x.reached r).foldl (split r) x).enter r.lower (r, v)

def putEntries (x : RangeIndex α) (es : List (TimeRange × α)) : RangeIndex α :=
  es.foldl (fun x e => x.put e.1 e.2) x

/-- The entry under the last key before an instant, if it reaches over the instant. -/
def entryAt? (x : RangeIndex α) (t : Instant) : Option (TimeRange × α) :=
  ((x.entries.reverse.find? (·.1 ≤ .below t)).map (·.2)).filter (·.1.contains t)

end RangeIndex

namespace RangeMap

variable {α : Type} {m : RangeMap α} {r : TimeRange} {v : α}

def key (e : TimeRange × α) : Cut × TimeRange × α := (e.1.lower, e)

/-- The index of a map: every entry under its lower cut. -/
def index (m : RangeMap α) : RangeIndex α := ⟨m.entries.map key⟩

/-- Two entries of a map are the same, or one ends before the other begins. -/
theorem WellFormed.apart (h : m.WellFormed) {e f : TimeRange × α} (he : e ∈ m.entries)
    (hf : f ∈ m.entries) : e = f ∨ e.1.Apart f.1 := by
  have later : m.entries.Pairwise fun e f => e = f ∨ e.1.Apart f.1 :=
    h.ascending.imp fun below => .inr (.inl below)
  have earlier : m.entries.Pairwise (flip fun e f => e = f ∨ e.1.Apart f.1) :=
    h.ascending.imp fun below => .inr (.inr below)
  exact later.forall_of_forall_of_flip (fun _ _ => .inl rfl) earlier he hf

/-- Entries begin one below the other. -/
theorem WellFormed.lower_lt (h : m.WellFormed) :
    m.entries.Pairwise fun e f => e.1.lower < f.1.lower :=
  h.ascending.imp_of_mem fun he _ below =>
    Int.lt_of_lt_of_le (isEmpty_eq_false_iff.1 (h.nonempty _ he)) below

theorem WellFormed.eq_of_lower_eq (h : m.WellFormed) {e f : TimeRange × α} (he : e ∈ m.entries)
    (hf : f ∈ m.entries) (same : e.1.lower = f.1.lower) : e = f := by
  have hene := isEmpty_eq_false_iff.1 (h.nonempty e he)
  have hfne := isEmpty_eq_false_iff.1 (h.nonempty f hf)
  rcases h.apart he hf with eq | before | after
  · exact eq
  · exact absurd (same ▸ hene) (Int.not_lt.2 before)
  · exact absurd (same ▸ hfne) (Int.not_lt.2 after)

/-- A write leaves what it does not reach. -/
theorem clip_of_not_overlaps {e : TimeRange × α} (nonempty : e.1.isEmpty = false)
    (h : e.1.overlaps r = false) : clip r e = [e] := by
  simp only [clip, minus, h, Bool.false_eq_true, if_false, List.filter_singleton, nonempty,
    Bool.not_false, cond_true, List.map_singleton]

/-- What a write leaves of an entry, the same write leaves as it is. -/
theorem clip_of_mem_clip {e p : TimeRange × α} (hr : r.isEmpty = false) (hp : p ∈ clip r e) :
    clip r p = [p] := by
  obtain ⟨hp, nonempty, -⟩ := mem_clip.1 hp
  have apart := apart_of_mem_minus hr nonempty hp
  refine clip_of_not_overlaps nonempty ?_
  rw [← Bool.not_eq_true, overlaps_iff]
  simp only [Apart, Cut.le_def, Cut.lt_def] at *
  omega

/-! ### Indexes of well-formed maps -/

/-- What is left of the entries under some keys after a write over `r`. -/
def clipKeys (r : TimeRange) (keys : List Cut) (e : TimeRange × α) : List (TimeRange × α) :=
  if e.1.lower ∈ keys then clip r e else [e]

theorem Pieces.clipKeys (r : TimeRange) (keys : List Cut) {e : TimeRange × α}
    (nonempty : e.1.isEmpty = false) : Pieces e (clipKeys r keys e) := by
  unfold RangeMap.clipKeys
  split
  · exact .clip r e
  · exact .whole nonempty

theorem mem_flatMap_clipKeys {keys : List Cut} {p : TimeRange × α} :
    p ∈ m.entries.flatMap (clipKeys r keys) ↔
      (∃ e ∈ m.entries, e.1.lower ∈ keys ∧ p ∈ clip r e) ∨ p ∈ m.entries ∧ p.1.lower ∉ keys := by
  simp only [List.mem_flatMap, clipKeys]
  constructor
  · rintro ⟨e, he, hp⟩
    split at hp
    next listed => exact .inl ⟨e, he, listed, hp⟩
    next other => exact .inr (List.mem_singleton.1 hp ▸ ⟨he, other⟩)
  · rintro (⟨e, he, listed, hp⟩ | ⟨hp, other⟩)
    · exact ⟨e, he, by rwa [if_pos listed]⟩
    · exact ⟨p, hp, by rw [if_neg other]; exact List.mem_singleton_self p⟩

theorem WellFormed.clipKeys (h : m.WellFormed) (r : TimeRange) (keys : List Cut) :
    WellFormed ⟨m.entries.flatMap (clipKeys r keys)⟩ :=
  h.flatMap fun e he => .clipKeys r keys (h.nonempty e he)

/-- What is left of an entry begins where no other entry does. -/
theorem lower_ne_of_mem_clip (h : m.WellFormed) {e f p : TimeRange × α} (he : e ∈ m.entries)
    (hf : f ∈ m.entries) (other : f.1.lower ≠ e.1.lower) (hp : p ∈ clip r e) :
    f.1.lower ≠ p.1.lower := by
  intro same
  obtain ⟨lower, upper⟩ := (Pieces.clip r e).within p hp
  have nonempty := (Pieces.clip r e).nonempty p hp
  have hfne := isEmpty_eq_false_iff.1 (h.nonempty f hf)
  have hpne := isEmpty_eq_false_iff.1 nonempty
  rcases h.apart hf he with rfl | before | after
  · exact other rfl
  · rw [same] at hfne
    exact Int.lt_irrefl _ (Int.lt_of_lt_of_le hfne (Int.le_trans before lower))
  · rw [same] at after
    exact Int.lt_irrefl _ (Int.lt_of_lt_of_le hpne (Int.le_trans upper after))

theorem mem_map_key {e : Cut × TimeRange × α} {es : List (TimeRange × α)} :
    e ∈ es.map key ↔ e.2 ∈ es ∧ e.1 = e.2.1.lower := by
  simp only [key, List.mem_map]
  constructor
  · rintro ⟨f, hf, rfl⟩
    exact ⟨hf, rfl⟩
  · rintro ⟨he, hkey⟩
    exact ⟨e.2, he, Prod.ext hkey.symm rfl⟩

theorem WellFormed.index_sorted (h : m.WellFormed) :
    m.index.entries.Pairwise (RangeIndex.compareKeys · · = .lt) :=
  List.pairwise_map.2 (h.lower_lt.imp Cut.compare_eq_lt.2)

end RangeMap

namespace RangeIndex

open RangeMap

variable {α : Type} {x : RangeIndex α} {m : RangeMap α} {r : TimeRange} {v : α}

instance : Std.TransCmp (compareKeys (α := α)) :=
  inferInstanceAs (Std.TransCmp (compareOn Prod.fst))

theorem sorted_enter (h : x.entries.Pairwise (compareKeys · · = .lt)) (key : Cut)
    (e : TimeRange × α) : (x.enter key e).entries.Pairwise (compareKeys · · = .lt) :=
  Sorted.pairwise_insert _ h

/-- Entering entries under keys that are all new adds these entries. -/
theorem entries_foldl_enter {ps : List (TimeRange × α)}
    (h : x.entries.Pairwise (compareKeys · · = .lt))
    (distinct : ps.Pairwise fun p q => p.1.lower ≠ q.1.lower)
    (fresh : ∀ p ∈ ps, ∀ e ∈ x.entries, e.1 ≠ p.1.lower) :
    (ps.foldl (fun x p => x.enter p.1.lower p) x).entries.Pairwise (compareKeys · · = .lt) ∧
      ∀ e, e ∈ (ps.foldl (fun x p => x.enter p.1.lower p) x).entries ↔
        e ∈ ps.map key ∨ e ∈ x.entries := by
  induction ps generalizing x with
  | nil => exact ⟨h, fun e => (or_iff_right List.not_mem_nil).symm⟩
  | cons p ps ih =>
      obtain ⟨hp, hps⟩ := List.pairwise_cons.1 distinct
      obtain ⟨own, others⟩ := List.forall_mem_cons.1 fresh
      have entered : ∀ e, e ∈ (x.enter p.1.lower p).entries ↔ e = key p ∨ e ∈ x.entries := by
        intro e
        refine Sorted.mem_insert_iff fun b hb same => absurd ?_ (own b hb)
        exact (Cut.compare_eq_iff.1 same).symm
      have step := ih (sorted_enter h p.1.lower p) hps fun q hq e he => ?_
      · refine ⟨step.1, fun e => ?_⟩
        rw [List.foldl_cons, step.2, entered, List.map_cons, List.mem_cons, or_assoc, or_left_comm]
      · rcases (entered e).1 he with rfl | he
        · exact hp q hq
        · exact others q hq e he

/-- Splitting the entry under one key is clipping it in its place. -/
theorem split_index (h : m.WellFormed) (c : Cut) :
    split r m.index c = RangeMap.index ⟨m.entries.flatMap (clipKeys r [c])⟩ := by
  unfold split
  split
  next found hfound =>
    obtain ⟨he, hkey⟩ := mem_map_key.1 (List.mem_of_find?_eq_some hfound)
    have hc : found.1 = c := by simpa only [decide_eq_true_eq] using List.find?_some hfound
    have lower : found.2.1.lower = c := hkey.symm.trans hc
    have others : ∀ f, f ∈ (m.index.erase c).entries ↔
        (f.2 ∈ m.entries ∧ f.2.1.lower ≠ c) ∧ f.1 = f.2.1.lower := by
      intro f
      rw [erase, List.mem_filter, RangeMap.index, mem_map_key, decide_eq_true_eq, and_right_comm]
      exact and_congr_left fun same => by rw [same]
    have distinct : (clip r found.2).Pairwise fun p q => p.1.lower ≠ q.1.lower := by
      have pieces := Pieces.clip r found.2
      refine pieces.ascending.imp_of_mem fun {p q} hp _ below same => ?_
      have nonempty := isEmpty_eq_false_iff.1 (pieces.nonempty p hp)
      rw [← same] at below
      exact Int.lt_irrefl _ (Int.lt_of_lt_of_le nonempty below)
    have fresh : ∀ p ∈ clip r found.2, ∀ f ∈ (m.index.erase c).entries, f.1 ≠ p.1.lower := by
      intro p hp f hf
      obtain ⟨⟨hf, other⟩, same⟩ := (others f).1 hf
      rw [same]
      exact lower_ne_of_mem_clip h he hf (lower ▸ other) hp
    have left : (m.index.erase c).entries.Pairwise (compareKeys · · = .lt) :=
      h.index_sorted.filter _
    obtain ⟨sorted, members⟩ := entries_foldl_enter left distinct fresh
    refine congrArg RangeIndex.mk (Sorted.eq_of_mem_iff sorted (h.clipKeys r [c]).index_sorted ?_)
    intro f
    rw [members, others, mem_map_key, mem_map_key, mem_flatMap_clipKeys, ← or_and_right]
    refine and_congr_left fun _ => or_congr ⟨fun hf => ?_, ?_⟩ ?_
    · exact ⟨found.2, he, List.mem_singleton.2 lower, hf⟩
    · rintro ⟨e, hmem, hlower, hf⟩
      have same := (List.mem_singleton.1 hlower).trans lower.symm
      exact h.eq_of_lower_eq hmem he same ▸ hf
    · rw [List.mem_singleton]
  next hnone =>
    refine congrArg RangeIndex.mk (congrArg (List.map key) ?_)
    have untouched : ∀ e ∈ m.entries, clipKeys r [c] e = [e] := by
      intro e he
      have absent := List.find?_eq_none.1 hnone (key e) (mem_map_key.2 ⟨he, rfl⟩)
      rw [decide_eq_true_eq] at absent
      exact if_neg fun listed => absent (List.mem_singleton.1 listed)
    rw [List.flatMap_congr untouched, List.flatMap_singleton']

/-- Splitting the entries under several keys, one after another, is clipping them in their places:
what a key has left already, it leaves as it is. -/
theorem foldl_split_index (hr : r.isEmpty = false) (h : m.WellFormed) (keys : List Cut) :
    keys.foldl (split r) m.index = RangeMap.index ⟨m.entries.flatMap (clipKeys r keys)⟩ := by
  induction keys generalizing m with
  | nil =>
      have untouched : clipKeys r [] = fun e : TimeRange × α => [e] := rfl
      rw [untouched, List.flatMap_singleton']
      rfl
  | cons c keys ih =>
      have settled : ∀ e : TimeRange × α,
          (clipKeys r [c] e).flatMap (clipKeys r keys) = clipKeys r (c :: keys) e := by
        intro e
        by_cases first : e.1.lower = c
        · have kept : ∀ p ∈ clip r e, clipKeys r keys p = [p] := by
            intro p hp
            unfold clipKeys
            split
            · exact clip_of_mem_clip hr hp
            · rfl
          rw [clipKeys, if_pos (List.mem_singleton.2 first), clipKeys,
            if_pos (List.mem_cons.2 (.inl first)), List.flatMap_congr kept, List.flatMap_singleton']
        · rw [clipKeys, if_neg (first ∘ List.mem_singleton.1), List.flatMap_singleton, clipKeys,
            clipKeys]
          simp only [List.mem_cons, first, false_or]
      rw [List.foldl_cons, split_index h, ih (h.clipKeys r [c]), List.flatMap_assoc]
      simp only [settled]

/-- The keys that a write reaches are those of the entries its range overlaps. -/
theorem mem_reached (h : m.WellFormed) (hr : r.isEmpty = false) {e : TimeRange × α}
    (he : e ∈ m.entries) : e.1.lower ∈ m.index.reached r ↔ e.1.overlaps r = true := by
  have nonempty := isEmpty_eq_false_iff.1 (h.nonempty e he)
  rw [isEmpty_eq_false_iff] at hr
  simp only [overlaps_iff, nonempty, hr, true_and, reached, List.mem_map, List.mem_filter,
    decide_eq_true_eq]
  constructor
  · rintro ⟨f, ⟨hf, reach⟩, same⟩
    obtain ⟨hf, hkey⟩ := mem_map_key.1 hf
    have found : f.2 = e := h.eq_of_lower_eq hf he (hkey.symm.trans same)
    rwa [same, found] at reach
  · intro reach
    exact ⟨key e, ⟨mem_map_key.2 ⟨he, rfl⟩, reach⟩, rfl⟩

/-- Clipping the entries that are reached clips all of them. -/
theorem flatMap_clipKeys_reached (h : m.WellFormed) (hr : r.isEmpty = false) :
    m.entries.flatMap (clipKeys r (m.index.reached r)) = m.entries.flatMap (clip r) := by
  refine List.flatMap_congr fun e he => ?_
  unfold clipKeys
  split
  next => rfl
  next apart =>
    rw [mem_reached h hr he, Bool.not_eq_true] at apart
    exact (clip_of_not_overlaps (h.nonempty e he) apart).symm

/-- Entering an entry under a new key puts it where it belongs. -/
theorem insert_key (e : TimeRange × α) (es : List (TimeRange × α))
    (fresh : ∀ f ∈ es, f.1.lower ≠ e.1.lower) :
    Sorted.insert compareKeys (key e) (es.map key) = (place e es).map key := by
  induction es with
  | nil => rfl
  | cons f rest ih =>
      obtain ⟨hf, hrest⟩ := List.forall_mem_cons.1 fresh
      rw [List.map_cons, Sorted.insert, place]
      split
      next before =>
        have above : e.1.lower < f.1.lower := Cut.compare_eq_lt.1 before
        have notBelow : ¬f.1.lower < e.1.lower := Int.not_lt.2 (Int.le_of_lt above)
        rw [if_neg notBelow]
        rfl
      next same => exact absurd (Cut.compare_eq_iff.1 same).symm hf
      next after =>
        have below : f.1.lower < e.1.lower := Cut.compare_eq_lt.1 (Std.OrientedCmp.lt_of_gt after)
        rw [if_pos below, ih hrest]
        rfl

/-- A write to the index of a well-formed map is the index of the write to the map. -/
theorem put_index (h : m.WellFormed) (r : TimeRange) (v : α) :
    m.index.put r v = (m.put r v).index := by
  unfold put RangeMap.put
  split
  next => rfl
  next hr =>
    rw [Bool.not_eq_true] at hr
    rw [foldl_split_index hr h, flatMap_clipKeys_reached h hr]
    refine congrArg RangeIndex.mk (insert_key (r, v) (m.entries.flatMap (clip r)) ?_)
    intro f hf same
    obtain ⟨e, -, hf⟩ := List.mem_flatMap.1 hf
    obtain ⟨hp, nonempty, -⟩ := mem_clip.1 hf
    have written := isEmpty_eq_false_iff.1 hr
    rcases apart_of_mem_minus hr nonempty hp with before | after
    · rw [isEmpty_eq_false_iff, same] at nonempty
      exact Int.lt_irrefl _ (Int.lt_of_lt_of_le nonempty before)
    · rw [same] at after
      exact Int.lt_irrefl _ (Int.lt_of_lt_of_le written after)

/-- Entries written to the index one after another leave the index of the map with them written. -/
theorem putEntries_index (h : m.WellFormed) (es : List (TimeRange × α)) :
    m.index.putEntries es = (m.putEntries es).index := by
  induction es generalizing m with
  | nil => rfl
  | cons e es ih =>
      rw [RangeIndex.putEntries, List.foldl_cons, put_index h]
      exact ih (h.put e.1 e.2)

/-- Going back to the last key before an instant finds the entry over the instant, if there is one:
whatever comes after that entry begins later. -/
theorem entryAt?_index (h : m.WellFormed) (t : Instant) : m.index.entryAt? t = m.entryAt? t := by
  unfold entryAt?
  cases hm : m.entryAt? t with
  | none =>
      rw [RangeMap.entryAt?, List.find?_eq_none] at hm
      rw [Option.filter_eq_none_iff]
      intro e he
      obtain ⟨f, hf, rfl⟩ := Option.map_eq_some_iff.1 he
      exact hm f.2 (mem_map_key.1 (List.mem_reverse.1 (List.mem_of_find?_eq_some hf))).1
  | some e =>
      rw [RangeMap.entryAt?] at hm
      have inside : e.1.contains t = true := by simpa only using List.find?_some hm
      obtain ⟨lower, upper⟩ := contains_iff_covers.1 inside
      obtain ⟨before, after, parts⟩ := List.append_of_mem (List.mem_of_find?_eq_some hm)
      have ascending := h.ascending
      rw [parts] at ascending
      have later := (List.pairwise_cons.1 (List.pairwise_append.1 ascending).2.1).1
      have passed : (after.map key).reverse.find? (·.1 ≤ .below t) = none := by
        rw [List.find?_eq_none]
        intro f hf
        obtain ⟨hf, hkey⟩ := mem_map_key.1 (List.mem_reverse.1 hf)
        rw [decide_eq_true_eq, hkey]
        exact Int.not_le.2 (Int.lt_of_lt_of_le upper (later f.2 hf))
      have found : m.index.entries.reverse.find? (·.1 ≤ .below t) = some (key e) := by
        rw [RangeMap.index, parts, List.map_append, List.map_cons, List.reverse_append,
          List.reverse_cons, List.append_assoc, List.find?_append, passed, Option.none_or,
          List.singleton_append]
        exact List.find?_cons_of_pos (decide_eq_true lower)
      rw [found, Option.map_some, key, Option.filter_some, if_pos inside]

end RangeIndex

end StationCatalog
