import Mathlib.Data.List.Basic
import StationCatalog.Entity.Basic

/-!
Strictly ascending lists are determined by their members, so a list sorted by version is known as
soon as it is known which versions it holds.
-/

namespace StationCatalog

namespace Sorted

variable {α : Type} {cmp : α → α → Ordering}

theorem mem_insert_of_mem {a x : α} {as : List α} (h : x ∈ as) :
    x ∈ insert cmp a as ∨ cmp a x = .eq := by
  induction as with
  | nil => cases h
  | cons b bs ih =>
      simp only [insert]
      split
      next => exact .inl (List.mem_cons_of_mem a h)
      next hab =>
        rcases List.mem_cons.1 h with rfl | h
        · exact .inr hab
        · exact .inl (List.mem_cons_of_mem a h)
      next =>
        rcases List.mem_cons.1 h with rfl | h
        · exact .inl List.mem_cons_self
        · exact (ih h).imp_left (List.mem_cons_of_mem b)

/-- Sorting keeps an element that compares equal to each one it is given. -/
theorem exists_mem_ofList [Std.TransCmp cmp] {x : α} {as : List α} (h : x ∈ as) :
    ∃ y ∈ ofList cmp as, cmp x y = .eq := by
  induction as with
  | nil => cases h
  | cons a as ih =>
      rcases List.mem_cons.1 h with rfl | h
      · exact ⟨x, mem_insert_self cmp x _, Std.ReflCmp.compare_self⟩
      · obtain ⟨y, hy, hxy⟩ := ih h
        have kept : y ∈ insert cmp a (ofList cmp as) ∨ cmp a y = .eq := mem_insert_of_mem hy
        rcases kept with hy | hay
        · exact ⟨y, hy, hxy⟩
        · exact ⟨a, mem_insert_self cmp a _,
            Std.TransCmp.eq_trans hxy (Std.OrientedCmp.eq_symm hay)⟩

theorem nodup_of_pairwise [Std.TransCmp cmp] {as : List α} (h : as.Pairwise (cmp · · = .lt)) :
    as.Nodup := by
  apply h.imp
  intro x y hxy hne
  have self : cmp y y = .eq := Std.ReflCmp.compare_self
  rw [hne, self] at hxy
  cases hxy

theorem eq_of_compare_eq [Std.TransCmp cmp] {as : List α} (h : as.Pairwise (cmp · · = .lt))
    {a b : α} (ha : a ∈ as) (hb : b ∈ as) (hab : cmp a b = .eq) : a = b := by
  have before : as.Pairwise fun x y => cmp x y = .eq → x = y := by
    apply h.imp
    intro x y hlt heq
    rw [hlt] at heq
    cases heq
  have after : as.Pairwise (flip fun x y => cmp x y = .eq → x = y) := by
    apply h.imp
    intro x y hlt heq
    rw [Std.OrientedCmp.eq_symm heq] at hlt
    cases hlt
  exact before.forall_of_forall_of_flip (fun _ _ _ => rfl) after ha hb hab

/-- An insertion into a sorted list takes out what compares equal. -/
theorem mem_insert_iff_of_pairwise [Std.TransCmp cmp] {a x : α} {as : List α}
    (h : as.Pairwise (cmp · · = .lt)) :
    x ∈ insert cmp a as ↔ x = a ∨ x ∈ as ∧ cmp a x ≠ .eq := by
  constructor
  · intro hx
    by_cases same : cmp a x = .eq
    · exact .inl (eq_of_compare_eq (pairwise_insert a h) (mem_insert_self cmp a as) hx same).symm
    · exact (mem_of_mem_insert hx).imp_right fun hx => ⟨hx, same⟩
  · rintro (rfl | ⟨hx, other⟩)
    · exact mem_insert_self cmp x as
    · exact (mem_insert_of_mem hx).resolve_right other

/-- Of elements that compare equal, sorting keeps the first. -/
theorem mem_ofList_iff [Std.TransCmp cmp] {x : α} {as : List α} :
    x ∈ ofList cmp as ↔ as.find? (cmp · x = .eq) = some x := by
  induction as with
  | nil => exact iff_of_false List.not_mem_nil nofun
  | cons a as ih =>
      have sorted : (insert cmp a (ofList cmp as)).Pairwise (cmp · · = .lt) :=
        pairwise_ofList (a :: as)
      have unfolded : ofList cmp (a :: as) = insert cmp a (ofList cmp as) := rfl
      rw [unfolded]
      by_cases same : cmp a x = .eq
      · simp only [List.find?_cons, decide_eq_true same]
        constructor
        · intro hx
          exact congrArg some (eq_of_compare_eq sorted (mem_insert_self cmp a _) hx same)
        · intro hx
          exact Option.some.inj hx ▸ mem_insert_self cmp a _
      · simp only [List.find?_cons, decide_eq_false same, ← ih]
        constructor
        · intro hx
          rcases mem_of_mem_insert hx with rfl | hx
          · exact absurd Std.ReflCmp.compare_self same
          · exact hx
        · intro hx
          exact (mem_insert_of_mem hx).resolve_right same

theorem eq_of_mem_iff [Std.TransCmp cmp] {as bs : List α} (ha : as.Pairwise (cmp · · = .lt))
    (hb : bs.Pairwise (cmp · · = .lt)) (h : ∀ x, x ∈ as ↔ x ∈ bs) : as = bs := by
  have perm := (List.perm_ext_iff_of_nodup (nodup_of_pairwise ha) (nodup_of_pairwise hb)).2 h
  refine perm.eq_of_pairwise ?_ ha hb
  intro x y _ _ hxy hyx
  have swap : cmp x y = (cmp y x).swap := Std.OrientedCmp.eq_swap
  rw [swap, hyx] at hxy
  cases hxy

end Sorted

instance : Std.TransOrd Instant :=
  inferInstanceAs (Std.TransCmp (compareOn Instant.nanos))

instance : Std.LawfulEqOrd Instant where
  eq_of_compare {s t} h := Instant.ext (show s.nanos = t.nanos from Int.compare_eq_eq.1 h)

theorem Instant.eq_of_mem_iff {as bs : List Instant} (ha : as.Pairwise (· > ·))
    (hb : bs.Pairwise (· > ·)) (h : ∀ t, t ∈ as ↔ t ∈ bs) : as = bs := by
  have sorted : ∀ {ts : List Instant}, ts.Pairwise (· > ·) →
      ts.Pairwise fun s t => compare t s = .lt := fun hts => hts.imp Int.compare_eq_lt.2
  exact Sorted.eq_of_mem_iff (sorted ha) (sorted hb) h

namespace EntityId

variable {k : Kind}

instance : Std.TransCmp (compare (k := k)) :=
  inferInstanceAs (Std.TransCmp (compareOn EntityId.text))

instance : Std.LawfulEqCmp (compare (k := k)) where
  eq_of_compare {i j} h :=
    EntityId.ext (Std.LawfulEqOrd.eq_of_compare (show Ord.compare i.text j.text = .eq from h))

theorem any_eq_iff {ids : List (EntityId k)} {id : EntityId k} :
    ids.any (· = id) = true ↔ id ∈ ids := by
  simp only [List.any_eq_true, decide_eq_true_eq, exists_eq_right]

@[simp] theorem mem_distinct {id : EntityId k} {ids : List (EntityId k)} :
    id ∈ distinct ids ↔ id ∈ ids := by
  constructor
  · exact Sorted.mem_of_mem_ofList
  · intro h
    have kept : ∃ j ∈ distinct ids, compare id j = .eq := Sorted.exists_mem_ofList h
    obtain ⟨j, hj, hij⟩ := kept
    rw [Std.LawfulEqCmp.eq_of_compare hij]
    exact hj

theorem pairwise_distinct (ids : List (EntityId k)) :
    (distinct ids).Pairwise (compare · · = .lt) := Sorted.pairwise_ofList ids

end EntityId

namespace Entity

variable {k : Kind}

instance : Std.TransCmp (fun a b : Entity k => a.id.compare b.id) :=
  inferInstanceAs (Std.TransCmp (compareOn fun e : Entity k => e.id.text))

instance : Std.TransCmp (compareVersions (k := k)) :=
  inferInstanceAs (Std.TransCmp
    (compareLex (fun a b : Entity k => a.id.compare b.id) (compareOn start?)))

theorem compareVersions_eq_iff {a b : Entity k} :
    a.compareVersions b = .eq ↔ a.version = b.version := by
  constructor
  · intro h
    obtain ⟨hid, hstart⟩ := Ordering.then_eq_eq.1 h
    exact Prod.ext (Std.LawfulEqCmp.eq_of_compare hid) (Std.LawfulEqCmp.eq_of_compare hstart)
  · intro h
    have hid : a.id = b.id := congrArg Prod.fst h
    have hstart : a.start? = b.start? := congrArg Prod.snd h
    simp only [compareVersions, hid, hstart, Std.ReflCmp.compare_self, Ordering.then_eq_eq,
      and_self]

theorem compareVersions_congr {a a' b b' : Entity k} (ha : a.version = a'.version)
    (hb : b.version = b'.version) : a.compareVersions b = a'.compareVersions b' := by
  simp only [version, Prod.mk.injEq] at ha hb
  simp only [compareVersions, ha, hb]

theorem pairwise_distinctVersions (es : List (Entity k)) :
    (distinctVersions es).Pairwise (compareVersions · · = .lt) := Sorted.pairwise_ofList es

/-- Of equal versions the first is kept. -/
theorem mem_distinctVersions_iff {e : Entity k} {es : List (Entity k)} :
    e ∈ distinctVersions es ↔ es.find? (·.version = e.version) = some e := by
  have same : (fun a : Entity k => decide (a.compareVersions e = .eq)) =
      fun a => decide (a.version = e.version) :=
    funext fun _ => decide_eq_decide.2 compareVersions_eq_iff
  rw [distinctVersions, Sorted.mem_ofList_iff, same]

theorem exists_mem_distinctVersions {e : Entity k} {es : List (Entity k)} (h : e ∈ es) :
    ∃ x ∈ distinctVersions es, x.version = e.version := by
  have kept : ∃ x ∈ distinctVersions es, e.compareVersions x = .eq := Sorted.exists_mem_ofList h
  obtain ⟨x, hx, hex⟩ := kept
  exact ⟨x, hx, (compareVersions_eq_iff.1 hex).symm⟩

/-- A view that keeps versions keeps the order of a list. -/
theorem pairwise_map_of_version {view : Entity k → Entity k}
    (hview : ∀ e, (view e).version = e.version) {es : List (Entity k)}
    (h : es.Pairwise (compareVersions · · = .lt)) :
    (es.map view).Pairwise (compareVersions · · = .lt) := by
  refine List.pairwise_map.2 (h.imp ?_)
  intro a b hab
  rw [compareVersions_congr (hview a) (hview b), hab]

/-- Seen through such a view, a list sorted by version is known by what it holds, if that holds at
most one entity of each version. -/
theorem map_distinctVersions_eq {view : Entity k → Entity k}
    (hview : ∀ e, (view e).version = e.version) {es xs : List (Entity k)}
    (same : ∀ x, x ∈ es.map view ↔ x ∈ xs)
    (unique : ∀ a ∈ xs, ∀ b ∈ xs, a.version = b.version → a = b) :
    (distinctVersions es).map view = distinctVersions xs := by
  refine Sorted.eq_of_mem_iff (pairwise_map_of_version hview (pairwise_distinctVersions es))
    (pairwise_distinctVersions xs) ?_
  intro x
  constructor
  · intro hx
    obtain ⟨y, hy, rfl⟩ := List.mem_map.1 hx
    have kept := (same (view y)).1 (List.mem_map_of_mem (Sorted.mem_of_mem_ofList hy))
    obtain ⟨z, hz, hversion⟩ := exists_mem_distinctVersions kept
    rw [← unique z (Sorted.mem_of_mem_ofList hz) _ kept hversion]
    exact hz
  · intro hx
    have kept := Sorted.mem_of_mem_ofList hx
    obtain ⟨y, hy, rfl⟩ := List.mem_map.1 ((same x).2 kept)
    obtain ⟨z, hz, hversion⟩ := exists_mem_distinctVersions hy
    have held := (same (view z)).1 (List.mem_map_of_mem (Sorted.mem_of_mem_ofList hz))
    rw [← unique _ held _ kept (by rw [hview, hview, hversion])]
    exact List.mem_map_of_mem hz

/-- The order of versions, told by what identifies them. -/
def compareKeys (v w : EntityId k × Option Instant) : Ordering :=
  (v.1.compare w.1).then (Ord.compare v.2 w.2)

instance : Std.TransCmp (fun v w : EntityId k × Option Instant => v.1.compare w.1) :=
  inferInstanceAs (Std.TransCmp (compareOn fun v : EntityId k × Option Instant => v.1.text))

instance : Std.TransCmp (compareKeys (k := k)) :=
  inferInstanceAs (Std.TransCmp
    (compareLex (fun v w : EntityId k × Option Instant => v.1.compare w.1) (compareOn Prod.snd)))

/-- The versions in a list sorted by version are known by which versions it holds. -/
theorem map_version_eq {as bs : List (Entity k)} (ha : as.Pairwise (compareVersions · · = .lt))
    (hb : bs.Pairwise (compareVersions · · = .lt))
    (h : ∀ v, v ∈ as.map version ↔ v ∈ bs.map version) : as.map version = bs.map version := by
  have sorted : ∀ {es : List (Entity k)}, es.Pairwise (compareVersions · · = .lt) →
      (es.map version).Pairwise (compareKeys · · = .lt) := fun hes => List.pairwise_map.2 hes
  exact Sorted.eq_of_mem_iff (sorted ha) (sorted hb) h

end Entity

end StationCatalog
