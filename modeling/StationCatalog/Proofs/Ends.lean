import StationCatalog.Proofs.Finds
import StationCatalog.Proofs.Yields

/-!
Where lookups end. A lookup may succeed, with a result and a stack about which something is known,
or fail, with an error about which something is known; which of the two happens is left open.
-/

namespace StationCatalog

namespace Lookup

variable {α β : Type} {P P' : Stack → Prop} {Q : α → Stack → Prop} {E : CatalogError → Prop}

/-- From a stack with `P`, a lookup that succeeds leaves a result and a stack that satisfy `Q`, and
one that fails does so with an error that satisfies `E`. -/
def Ends (P : Stack → Prop) (x : Lookup α) (Q : α → Stack → Prop) (E : CatalogError → Prop) :
    Prop :=
  ∀ s, P s → (∀ a, (x.perform s).1 = .ok a → Q a (x.perform s).2) ∧
    ∀ e, (x.perform s).1 = .error e → E e

theorem Ends.pure {a : α} (h : ∀ s, P s → Q a s) : Ends P (pure a) Q E := by
  intro s hs
  rw [perform_pure]
  constructor
  · rintro _ ⟨⟩
    exact h s hs
  · rintro _ ⟨⟩

theorem Ends.throw {e : CatalogError} (h : E e) : Ends P (throw e : Lookup α) Q E := by
  intro s _
  rw [perform_throw]
  refine ⟨nofun, ?_⟩
  rintro _ ⟨⟩
  exact h

theorem Ends.bind {x : Lookup α} {f : α → Lookup β} {Q' : β → Stack → Prop} (hx : Ends P x Q E)
    (hf : ∀ a, Ends (Q a) (f a) Q' E) : Ends P (x >>= f) Q' E := by
  intro s hs
  obtain ⟨first, failed⟩ := hx s hs
  rw [perform_bind]
  rcases h : x.perform s with ⟨e | a, s'⟩ <;> rw [h] at first failed
  · refine ⟨nofun, ?_⟩
    rintro _ ⟨⟩
    exact failed e rfl
  · exact hf a s' (first a rfl)

theorem Ends.mono {x : Lookup α} {Q' : α → Stack → Prop} (hx : Ends P x Q E)
    (h : ∀ a s, Q a s → Q' a s) : Ends P x Q' E :=
  fun s hs => ⟨fun a ha => h a _ ((hx s hs).1 a ha), (hx s hs).2⟩

theorem Ends.any (x : Lookup α) : Ends P x (fun _ _ => True) fun _ => True :=
  fun _ _ => ⟨fun _ _ => trivial, fun _ _ => trivial⟩

theorem Ends.weaken {x : Lookup α} (hx : Ends P' x Q E) (h : ∀ s, P s → P' s) : Ends P x Q E :=
  fun s hs => hx s (h s hs)

theorem Ends.and {x : Lookup α} {Q' : α → Stack → Prop} {E' : CatalogError → Prop}
    (hx : Ends P x Q E) (hx' : Ends P x Q' E') : Ends P x (fun a s => Q a s ∧ Q' a s) E :=
  fun s hs => ⟨fun a ha => ⟨(hx s hs).1 a ha, (hx' s hs).1 a ha⟩, (hx s hs).2⟩

theorem Ends.or {x : Lookup α} (hx : Ends P x Q E) (hx' : Ends P' x Q E) :
    Ends (fun s => P s ∨ P' s) x Q E := fun s hs => hs.elim (hx s) (hx' s)

theorem Ends.given {x : Lookup α} {c : Prop} (hx : c → Ends P x Q E) :
    Ends (fun s => P s ∧ c) x Q E := fun s hs => hx hs.2 s hs.1

theorem Ends.map {x : Lookup α} {g : α → β} {Q' : β → Stack → Prop} (hx : Ends P x Q E)
    (h : ∀ a s, Q a s → Q' (g a) s) : Ends P (g <$> x) Q' E := by
  rw [← bind_pure_comp]
  exact hx.bind fun a => .pure (h a)

theorem Ends.get_bind {f : Stack → Lookup α} (h : ∀ s, P s → Ends P (f s) Q E) :
    Ends P (get >>= f) Q E := by
  intro s hs
  rw [perform_bind, perform_get]
  exact h s hs s hs

theorem Ends.of_perform_eq {x y : Lookup α} (hy : Ends P y Q E)
    (h : ∀ s, P s → x.perform s = y.perform s) : Ends P x Q E := by
  intro s hs
  rw [h s hs]
  exact hy s hs

/-- A lookup that succeeds ends where it succeeds. -/
theorem Ends.of_leads {x : Lookup α} {Q : α → Prop} (hx : Leads P x Q P') :
    Ends P x (fun a s => Q a ∧ P' s) E := by
  intro s hs
  obtain ⟨a, found, hQ, hP'⟩ := hx s hs
  rw [found]
  constructor
  · rintro _ ⟨⟩
    exact ⟨hQ, hP'⟩
  · rintro _ ⟨⟩

theorem Ends.of_yields {x : Lookup α} {Q : α → Prop} (hx : Yields P x Q) :
    Ends P x (fun a s => Q a ∧ P s) fun _ => True :=
  fun s hs => ⟨fun a ha => ⟨(hx s hs).2 a ha, (hx s hs).1⟩, fun _ _ => trivial⟩

/-- What is known of the end for each of many things is known for all. -/
theorem Ends.all {ι : Sort*} {x : Lookup α} {Q : ι → α → Stack → Prop}
    (hx : ∀ i, Ends P x (Q i) fun _ => True) :
    Ends P x (fun a s => ∀ i, Q i a s) fun _ => True :=
  fun s hs => ⟨fun a ha i => (hx i s hs).1 a ha, fun _ _ => trivial⟩

/-- What every step of a traced lookup keeps, the lookup keeps. -/
theorem Ends.of_traced {R : Stack → Stack → Prop} {w : TimeRange} {x : Lookup α}
    (hx : Traced R w x) (window : ∀ s, P s → s.window = w) (stays : ∀ s s', R s s' → P s → P s') :
    Ends P x (fun _ => P) fun _ => True := by
  intro s hs
  refine ⟨fun _ _ => ?_, fun _ _ => trivial⟩
  have steps := (hx s (window s hs)).2
  generalize (x.perform s).2 = s' at steps
  induction steps with
  | refl => exact hs
  | tail _ step ih => exact stays _ _ step ih

section

variable {B : Stack → Prop} {f : α → Lookup (List β)} {as : List α}

theorem Ends.gather_stays (stays : ∀ a ∈ as, Ends B (f a) (fun _ => B) E) :
    Ends B (gather f as) (fun _ => B) E := by
  induction as with
  | nil => exact .pure fun _ hs => hs
  | cons a as ih =>
      obtain ⟨first, rest⟩ := List.forall_mem_cons.1 stays
      exact first.bind fun _ => (ih rest).bind fun _ => .pure fun _ hs => hs

/-- Where each lookup keeps `P` or goes over to `B` for good, the lookup of one element that does go
over makes the whole go there. -/
theorem Ends.gather_mem {a : α} (ha : a ∈ as) (hits : Ends P (f a) (fun _ => B) E)
    (others : ∀ b ∈ as, Ends P (f b) (fun _ s => P s ∨ B s) E)
    (stays : ∀ b ∈ as, Ends B (f b) (fun _ => B) E) : Ends P (gather f as) (fun _ => B) E := by
  induction as with
  | nil => exact absurd ha List.not_mem_nil
  | cons b bs ih =>
      obtain ⟨other, others⟩ := List.forall_mem_cons.1 others
      have rest := Ends.gather_stays (List.forall_mem_cons.1 stays).2
      rcases List.mem_cons.1 ha with rfl | ha
      · exact hits.bind fun _ => rest.bind fun _ => .pure fun _ hs => hs
      · have reached := ih ha others (List.forall_mem_cons.1 stays).2
        exact other.bind fun _ => (reached.or rest).bind fun _ => .pure fun _ hs => hs

/-- Where each lookup keeps `P` and finds what satisfies `R`, or goes over to `B` for good, so does
the lookup of all. -/
theorem Ends.gather {R : β → Prop}
    (each : ∀ a ∈ as, Ends P (f a) (fun bs s => B s ∨ P s ∧ ∀ b ∈ bs, R b) E)
    (stays : ∀ a ∈ as, Ends B (f a) (fun _ => B) E) :
    Ends P (gather f as) (fun bs s => B s ∨ P s ∧ ∀ b ∈ bs, R b) E := by
  induction as with
  | nil => exact .pure fun _ hs => .inr ⟨hs, fun _ h => absurd h List.not_mem_nil⟩
  | cons a as ih =>
      obtain ⟨first, others⟩ := List.forall_mem_cons.1 each
      have rest := Ends.gather_stays (List.forall_mem_cons.1 stays).2
      refine first.bind fun found => .or ?_ (.given fun hfound => ?_)
      · exact rest.bind fun _ => .pure fun _ hs => .inl hs
      · refine (ih others (List.forall_mem_cons.1 stays).2).bind fun _ => .pure ?_
        exact fun s h => h.imp_right fun h => ⟨h.1, List.forall_mem_append.2 ⟨hfound, h.2⟩⟩

end

section

variable {B : Stack → Prop} {f : α → Lookup (Option β)} {as : List α}

theorem Ends.collect_stays (stays : ∀ a ∈ as, Ends B (f a) (fun _ => B) E) :
    Ends B (collect f as) (fun _ => B) E :=
  .gather_stays fun a ha => (stays a ha).map fun _ _ h => h

theorem Ends.collect_mem {a : α} (ha : a ∈ as) (hits : Ends P (f a) (fun _ => B) E)
    (others : ∀ b ∈ as, Ends P (f b) (fun _ s => P s ∨ B s) E)
    (stays : ∀ b ∈ as, Ends B (f b) (fun _ => B) E) : Ends P (collect f as) (fun _ => B) E :=
  .gather_mem ha (hits.map fun _ _ h => h) (fun b hb => (others b hb).map fun _ _ h => h)
    fun b hb => (stays b hb).map fun _ _ h => h

theorem Ends.collect {R : β → Prop}
    (each : ∀ a ∈ as, Ends P (f a) (fun o s => B s ∨ P s ∧ ∀ b ∈ o, R b) E)
    (stays : ∀ a ∈ as, Ends B (f a) (fun _ => B) E) :
    Ends P (collect f as) (fun bs s => B s ∨ P s ∧ ∀ b ∈ bs, R b) E := by
  refine .gather (fun a ha => (each a ha).map ?_) fun a ha => (stays a ha).map fun _ _ h => h
  exact fun _ _ h => h.imp_right fun h => ⟨h.1, fun b hb => h.2 b (Option.mem_toList.1 hb)⟩

end

section

variable {k : Kind} {ids : List (EntityId k)}

theorem requireIds_of_named (h : Named ids) : requireIds ids = pure () := by
  unfold requireIds
  split
  next field hfield =>
    have named : (ids.map (·.text)).any isBlank = false := by
      rw [List.any_eq_false]
      intro name hname
      obtain ⟨id, hid, rfl⟩ := List.mem_map.1 hname
      rw [h (Option.isSome_iff_exists.2 ⟨field, hfield⟩) id hid]
      exact Bool.false_ne_true
    rw [requireNames, named]
    rfl
  next => rfl

/-- A blank name is refused under the field of its kind. -/
theorem requireIds_of_not_named (h : ¬Named ids) :
    ∃ field, namesField? k = some field ∧
      requireIds ids = throw (.validation (.requiredFieldMissing field)) := by
  obtain ⟨some, hblank⟩ := Classical.not_imp.1 h
  obtain ⟨field, hfield⟩ := Option.isSome_iff_exists.1 some
  refine ⟨field, hfield, ?_⟩
  have blank : (ids.map (·.text)).any isBlank = true := by
    by_contra none
    refine hblank fun id hid => ?_
    rw [Bool.not_eq_true, List.any_eq_false] at none
    exact Bool.eq_false_iff.2 (none id.text (List.mem_map_of_mem hid))
  rw [requireIds, hfield]
  simp only [requireNames, blank, if_true]

/-- Names are let through only if none of them is blank. -/
theorem Ends.requireIds (h : ∀ field, E (.validation (.requiredFieldMissing field))) :
    Ends P (requireIds ids) (fun _ s => P s ∧ Named ids) E := by
  by_cases named : Named ids
  · rw [requireIds_of_named named]
    exact .pure fun _ hs => ⟨hs, named⟩
  · obtain ⟨field, -, refused⟩ := requireIds_of_not_named named
    rw [refused]
    exact .throw (h field)

end

end Lookup

end StationCatalog
