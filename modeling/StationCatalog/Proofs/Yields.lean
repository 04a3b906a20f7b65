import StationCatalog.Stack

/-!
Lookups that keep a property of the stack, whether they succeed or fail, and of whose results, if
they succeed, a predicate holds.
-/

namespace StationCatalog

variable {k : Kind}

namespace Lookup

variable {α β : Type} {P : Stack → Prop}

/-- From a stack with `P` a lookup leaves one with `P`, and its result, if it succeeds, satisfies
`Q`. -/
def Yields (P : Stack → Prop) (x : Lookup α) (Q : α → Prop) : Prop :=
  ∀ s, P s → P (x.perform s).2 ∧ ∀ a, (x.perform s).1 = .ok a → Q a

theorem Yields.pure {Q : α → Prop} {a : α} (h : Q a) : Yields P (pure a) Q := by
  intro s hs
  refine ⟨hs, ?_⟩
  rintro _ ⟨⟩
  exact h

theorem Yields.throw {Q : α → Prop} (e : CatalogError) : Yields P (throw e) Q :=
  fun _ hs => ⟨hs, nofun⟩

theorem Yields.some {Q : α → Prop} {a : α} (h : Q a) :
    Yields P (return some a) fun o => ∀ x ∈ o, Q x := by
  refine .pure ?_
  rintro x ⟨⟩
  exact h

theorem Yields.none {Q : α → Prop} : Yields P (return none) fun o => ∀ x ∈ o, Q x :=
  .pure fun _ h => absurd h (Option.not_mem_none _)

theorem Yields.bind {x : Lookup α} {f : α → Lookup β} {Q : α → Prop} {Q' : β → Prop}
    (hx : Yields P x Q) (hf : ∀ a, Q a → Yields P (f a) Q') : Yields P (x >>= f) Q' := by
  intro s hs
  have first := hx s hs
  rw [perform_bind]
  rcases h : x.perform s with ⟨_ | a, s'⟩ <;> rw [h] at first
  · exact ⟨first.1, nofun⟩
  · exact hf a (first.2 a rfl) s' first.1

theorem Yields.mono {x : Lookup α} {Q Q' : α → Prop} (hx : Yields P x Q)
    (h : ∀ a, Q a → Q' a) : Yields P x Q' :=
  fun s hs => ⟨(hx s hs).1, fun a ha => h a ((hx s hs).2 a ha)⟩

theorem Yields.and {x : Lookup α} {Q Q' : α → Prop} (hx : Yields P x Q) (hx' : Yields P x Q') :
    Yields P x fun a => Q a ∧ Q' a :=
  fun s hs => ⟨(hx s hs).1, fun a ha => ⟨(hx s hs).2 a ha, (hx' s hs).2 a ha⟩⟩

theorem Yields.map {x : Lookup α} {Q : α → Prop} {Q' : β → Prop} {g : α → β} (hx : Yields P x Q)
    (h : ∀ a, Q a → Q' (g a)) : Yields P (g <$> x) Q' := by
  rw [← bind_pure_comp]
  exact hx.bind fun a ha => .pure (h a ha)

theorem Yields.get_bind {f : Stack → Lookup α} {Q : α → Prop}
    (h : ∀ s, P s → Yields P (f s) Q) : Yields P (get >>= f) Q := by
  intro s hs
  rw [perform_bind, perform_get]
  exact h s hs s hs

theorem Yields.gather {f : α → Lookup (List β)} {Q : β → Prop} {as : List α}
    (h : ∀ a ∈ as, Yields P (f a) fun bs => ∀ b ∈ bs, Q b) :
    Yields P (gather f as) fun bs => ∀ b ∈ bs, Q b := by
  induction as with
  | nil => exact .pure fun _ hb => absurd hb List.not_mem_nil
  | cons a as ih =>
      obtain ⟨hfirst, hothers⟩ := List.forall_mem_cons.1 h
      refine hfirst.bind fun found hfound => (ih hothers).bind fun rest hrest => .pure ?_
      intro b hb
      rcases List.mem_append.1 hb with hb | hb
      · exact hfound b hb
      · exact hrest b hb

theorem Yields.collect {f : α → Lookup (Option β)} {Q : β → Prop} {as : List α}
    (h : ∀ a ∈ as, Yields P (f a) fun o => ∀ b ∈ o, Q b) :
    Yields P (collect f as) fun bs => ∀ b ∈ bs, Q b :=
  .gather fun a ha => (h a ha).map fun _ ho b hb => ho b (Option.mem_toList.1 hb)

/-- What is collected comes in the order of what it is collected from, as far as each result bears
the mark of its origin. -/
theorem Yields.collect_sublist {γ : Type} {mark : β → γ} {origin : α → γ}
    {f : α → Lookup (Option β)} {as : List α}
    (h : ∀ a ∈ as, Yields P (f a) fun o => ∀ b ∈ o, mark b = origin a) :
    Yields P (Lookup.collect f as) fun bs => (bs.map mark).Sublist (as.map origin) := by
  induction as with
  | nil => exact .pure .slnil
  | cons a as ih =>
      obtain ⟨hfirst, hothers⟩ := List.forall_mem_cons.1 h
      have first : Yields P (Option.toList <$> f a) fun bs =>
          (bs.map mark).Sublist [origin a] := by
        refine hfirst.map fun o ho => ?_
        cases o with
        | none => exact List.nil_sublist _
        | some b => exact ho b rfl ▸ .refl _
      refine first.bind fun found hfound => (ih hothers).bind fun rest hrest => .pure ?_
      rw [List.map_append]
      exact hfound.append hrest

theorem Yields.requireNames (field : String) (names : List String) :
    Yields P (requireNames field names) fun _ => True := by
  unfold Lookup.requireNames
  split
  · exact .throw _
  · exact .pure trivial

theorem Yields.requireIds (ids : List (EntityId k)) : Yields P (requireIds ids) fun _ => True := by
  unfold Lookup.requireIds
  split
  · exact .requireNames _ _
  · exact .pure trivial

theorem Yields.requireOrder (start stop : Instant) :
    Yields P (requireOrder start stop) fun _ => start ≤ stop := by
  unfold Lookup.requireOrder
  split
  · exact .throw _
  next ordered => exact .pure (Int.not_lt.1 ordered)

end Lookup

end StationCatalog
