import StationCatalog.Proofs.Children
import StationCatalog.Proofs.Ends
import StationCatalog.Proofs.RangeLookups

/-!
Lookups that refuse names. A lookup refuses its own arguments before it does anything, and a nested
lookup refuses the names of children in the same way; so a lookup of valid arguments is refused when
a version it comes across names a child that must be refused, or one whose lookup is refused in
turn.
-/

namespace StationCatalog

variable {j k : Kind}

/-- A blank name, which lookups refuse; a response has no name. -/
def EntityId.IsBlank (id : EntityId k) : Prop :=
  (Lookup.namesField? k).isSome = true ∧ isBlank id.text = true

/-- The refusal of a blank name. -/
def CatalogError.IsRefusal (e : CatalogError) : Prop :=
  ∃ field, e = .validation (.requiredFieldMissing field)

namespace Lookup

variable {α β : Type} {P P' P'' : Stack → Prop}

theorem named_nil (k : Kind) : Named ([] : List (EntityId k)) :=
  fun _ _ h => absurd h List.not_mem_nil

theorem not_named_iff {ids : List (EntityId k)} : ¬Named ids ↔ ∃ id ∈ ids, id.IsBlank := by
  simp only [Named, EntityId.IsBlank, Classical.not_imp, not_forall, Bool.not_eq_false]
  constructor
  · rintro ⟨some, id, hid, blank⟩
    exact ⟨id, hid, some, blank⟩
  · rintro ⟨id, hid, some, blank⟩
    exact ⟨some, id, hid, blank⟩

/-- A lookup from stacks with `P` is refused if `c` holds, and succeeds otherwise, leaving a stack
with `P'`. -/
structure RefusedIff (P : Stack → Prop) (x : Lookup α) (c : Prop) (P' : Stack → Prop) : Prop where
  succeeds : ¬c → Leads P x (fun _ => True) P'
  refused : c → Ends P x (fun _ _ => False) CatalogError.IsRefusal

theorem RefusedIff.of_leads {x : Lookup α} {Q : α → Prop} (h : Leads P x Q P') :
    RefusedIff P x False P' where
  succeeds := fun _ => h.mono fun _ _ => trivial
  refused := False.elim

theorem RefusedIff.weaken {x : Lookup α} {c : Prop} {P₀ P₁ : Stack → Prop}
    (h : RefusedIff P x c P') (before : ∀ s, P₀ s → P s) (after : ∀ s, P' s → P₁ s) :
    RefusedIff P₀ x c P₁ where
  succeeds := by
    intro hc s hs
    obtain ⟨a, found, -, hs'⟩ := h.succeeds hc s (before s hs)
    exact ⟨a, found, trivial, after _ hs'⟩
  refused := fun hc => (h.refused hc).weaken before

theorem RefusedIff.get_bind {f : Stack → Lookup α} {c : Prop}
    (h : ∀ s, P s → RefusedIff P (f s) c P') : RefusedIff P (get >>= f) c P' where
  succeeds := fun hc => .get_bind fun s hs => (h s hs).succeeds hc
  refused := fun hc => .get_bind fun s hs => (h s hs).refused hc

theorem RefusedIff.congr {x : Lookup α} {c d : Prop} (h : RefusedIff P x c P') (hcd : c ↔ d) :
    RefusedIff P x d P' := propext hcd ▸ h

/-- Where a lookup that may be refused succeeds, it was not to be refused. -/
theorem RefusedIff.ends {x : Lookup α} {c : Prop} (h : RefusedIff P x c P') :
    Ends P x (fun _ s => ¬c ∧ P' s) CatalogError.IsRefusal := by
  by_cases hc : c
  · exact (h.refused hc).mono fun _ _ => False.elim
  · exact (Ends.of_leads (h.succeeds hc)).mono fun _ _ hs => ⟨hc, hs.2⟩

theorem RefusedIff.bind {x : Lookup α} {f : α → Lookup β} {c d : Prop} (hx : RefusedIff P x c P')
    (hf : ∀ a, RefusedIff P' (f a) d P'') : RefusedIff P (x >>= f) (c ∨ d) P'' where
  succeeds := by
    intro neither
    obtain ⟨hc, hd⟩ := not_or.1 neither
    exact (hx.succeeds hc).bind fun a _ => (hf a).succeeds hd
  refused := by
    intro either
    by_cases hc : c
    · exact (hx.refused hc).bind fun _ _ => False.elim
    · have hd := either.resolve_left hc
      exact (Ends.of_leads (hx.succeeds hc)).bind fun a =>
        ((hf a).refused hd).weaken fun _ hs => hs.2

/-- Nothing is refused of what is done with the result. -/
theorem RefusedIff.bind_pure {x : Lookup α} {f : α → Lookup β} {c : Prop}
    (hx : RefusedIff P x c P') (hf : ∀ a, Leads P' (f a) (fun _ => True) P'') :
    RefusedIff P (x >>= f) c P'' :=
  (hx.bind fun a => .of_leads (hf a)).congr (iff_of_eq (or_false c))

/-- What is refused of what is done with a result that is known. -/
theorem RefusedIff.leads_bind {x : Lookup α} {f : α → Lookup β} {Q : α → Prop} {c : Prop}
    (hx : Leads P x Q P') (hf : ∀ a, Q a → RefusedIff P' (f a) c P'') :
    RefusedIff P (x >>= f) c P'' where
  succeeds := fun hc => hx.bind fun a ha => (hf a ha).succeeds hc
  refused := fun hc => (Ends.of_leads hx).bind fun a s hs => (hf a hs.1).refused hc s hs.2

/-- Lookups of one element after another are refused if one of them is. -/
theorem RefusedIff.gather_left {P : List α → Stack → Prop} {f : α → Lookup (List β)}
    {c : α → Prop} {as : List α}
    (h : ∀ a left, a :: left <:+ as → RefusedIff (P (a :: left)) (f a) (c a) (P left)) :
    RefusedIff (P as) (gather f as) (∃ a ∈ as, c a) (P []) := by
  induction as with
  | nil =>
      have done : Leads (P []) (pure [] : Lookup (List β)) (fun _ => True) (P []) := .pure trivial
      exact (RefusedIff.of_leads done).congr (iff_of_false False.elim nofun)
  | cons a as ih =>
      have others := ih fun b left hsuf => h b left (hsuf.trans (List.suffix_cons a as))
      refine ((h a as (List.suffix_refl _)).bind fun _ => others.bind_pure fun _ => ?_).congr ?_
      · exact .pure trivial
      · simp only [List.mem_cons, exists_eq_or_imp]

theorem RefusedIff.collect {f : α → Lookup (Option β)} {c : α → Prop} {as : List α}
    (h : ∀ a ∈ as, RefusedIff P (f a) (c a) P) :
    RefusedIff P (collect f as) (∃ a ∈ as, c a) P := by
  apply RefusedIff.gather_left (P := fun _ => P)
  intro a left hsuf
  rw [← bind_pure_comp]
  exact (h a (hsuf.subset List.mem_cons_self)).bind_pure fun _ => .pure trivial

theorem RefusedIff.requireIds (ids : List (EntityId k)) :
    RefusedIff P (requireIds ids) (¬Named ids) P where
  succeeds := fun named => .requireIds (not_not.1 named)
  refused := by
    intro blank
    obtain ⟨field, -, refused⟩ := requireIds_of_not_named blank
    rw [refused]
    exact .throw ⟨field, rfl⟩

end Lookup

open Lookup

namespace Cached

variable {P : Stack → Prop} {t : Instant}

/-- An entity is refused when it is resolved just when one of its collections of children is refused
when it is looked up. -/
theorem refusedIff_resolveAt {C : (j : Kind) → List (EntityId j) → Prop} (none : ∀ j, ¬C j [])
    (below : ∀ j, k.rank < j.rank → ∀ ids, RefusedIff P (findAt j ids t) (C j ids) P)
    (e : Entity k) :
    RefusedIff P (resolveAt t k e) (∃ l ∈ e.children, C l.1 l.2) P := by
  have done : ∀ {α : Type} (a : α), Leads P (pure a : Lookup α) (fun _ => True) P :=
    fun _ => .pure trivial
  have childless : e.isPopulated = false → ¬∃ l ∈ e.children, C l.1 l.2 := by
    rintro unpopulated ⟨l, hl, refused⟩
    rw [Entity.children_of_isPopulated_eq_false unpopulated l hl] at refused
    exact none l.1 refused
  have spared : e.isPopulated = false →
      RefusedIff P (return some e) (∃ l ∈ e.children, C l.1 l.2) P := fun unpopulated =>
    (RefusedIff.of_leads (done _)).congr (iff_of_false False.elim (childless unpopulated))
  cases k with
  | response => exact (RefusedIff.of_leads (done _)).congr (iff_of_false False.elim nofun)
  | channel =>
      simp only [Entity.children, List.mem_singleton, exists_eq_left]
      change RefusedIff P (resolveChannel t e) _ P
      unfold resolveChannel
      split
      next absent =>
        rw [absent]
        exact (RefusedIff.of_leads (done _)).congr (iff_of_false False.elim (none .response))
      next response carried =>
        rw [carried]
        refine (below .response (by decide) [response.id]).bind_pure fun found => ?_
        split
        · exact done _
        · exact done _
  | channelGroup =>
      change RefusedIff P (resolveGroup t e) _ P
      unfold resolveGroup
      split
      next =>
        simp only [Entity.children, List.mem_singleton, exists_eq_left]
        refine (below .channel (by decide) _).bind_pure fun channels => ?_
        split
        · exact done _
        · exact done _
      next unpopulated => exact spared (Bool.eq_false_iff.2 unpopulated)
  | station =>
      change RefusedIff P (resolveStation t e) _ P
      unfold resolveStation
      split
      next =>
        simp only [Entity.children, List.mem_cons, List.not_mem_nil, or_false, exists_eq_or_imp,
          exists_eq_left]
        refine (below .channel (by decide) _).bind fun channels =>
          (below .channelGroup (by decide) _).bind_pure fun groups => ?_
        split
        · exact done _
        · exact done _
      next unpopulated => exact spared (Bool.eq_false_iff.2 unpopulated)
  | stationGroup =>
      change RefusedIff P (resolveStationGroup t e) _ P
      unfold resolveStationGroup
      split
      next =>
        simp only [Entity.children, List.mem_singleton, exists_eq_left]
        refine (below .station (by decide) _).bind_pure fun stations => ?_
        split
        · exact done _
        · exact done _
      next unpopulated => exact spared (Bool.eq_false_iff.2 unpopulated)

/-- A cached station is refused just when its channel groups are refused as of its start. -/
theorem refusedIff_resolveCachedStation {C : Instant → List (EntityId .channelGroup) → Prop}
    (none : ∀ t, ¬C t []) (groups : ∀ t ids, RefusedIff P (groupsAt ids t) (C t ids) P)
    (e : Entity .station) :
    RefusedIff P (resolveCachedStation e)
      (∃ t, e.start? = some t ∧ C t (e.groups.map (·.id))) P := by
  have done : ∀ o : Option (Entity .station), Leads P (pure o) (fun _ => True) P :=
    fun _ => .pure trivial
  match e with
  | .reference id =>
      refine (RefusedIff.of_leads (done _)).congr (iff_of_false False.elim ?_)
      rintro ⟨_, ⟨⟩, -⟩
  | .versionReference id start =>
      refine (RefusedIff.of_leads (done _)).congr (iff_of_false False.elim ?_)
      rintro ⟨t, -, refused⟩
      exact none t refused
  | .populated id validity data =>
      have asked : RefusedIff P (resolveCachedStation (.populated id validity data))
          (C validity.start ((Entity.populated id validity data).groups.map (·.id))) P := by
        refine (groups validity.start _).bind_pure fun found => ?_
        dsimp only
        split
        · exact done _
        · exact done _
      refine asked.congr ⟨fun refused => ⟨_, rfl, refused⟩, ?_⟩
      rintro ⟨_, ⟨⟩, refused⟩
      exact refused

section

variable {r : Repository} {w : TimeRange} {resolve : Entity k → Lookup (Option (Entity k))}

theorem refusedIff_pointLookup_of (hP : Stack.Served r w k P) {ids : List (EntityId k)}
    (cached : ∀ id ∈ ids, ∀ s e, P s → s.versionCache.find? k (.ofId id) t = some e →
      Finds P (resolve e) fun _ => True)
    (stored : ∀ v ∈ r.versions k, v.id ∈ ids → v.holdsAt t = true →
      Finds P (resolve v) fun _ => True) :
    RefusedIff P (pointLookup resolve ids t) (¬Named ids) P where
  succeeds := fun named => finds_pointLookup_of hP (not_not.1 named) cached stored
  refused := fun blank => ((RefusedIff.requireIds ids).refused blank).bind fun _ _ => False.elim

/-- A range lookup succeeds when resolving what is cached does. -/
theorem refusedIff_rangeLookup_of (hP : Stack.Served r w k P) {ids : List (EntityId k)}
    {start stop : Instant} (ordered : start ≤ stop)
    (cached : ∀ id ∈ ids, ∀ s, P s → ∀ f ∈ s.cachedVersions id,
      Finds P (resolve f.2) fun _ => True) :
    RefusedIff P (rangeLookup resolve ids start stop) (¬Named ids) P := by
  refine (RefusedIff.requireIds ids).bind_pure fun _ => (Leads.requireOrder ordered).bind
    fun _ _ => .get_bind ?_
  intro s hs
  rw [(hP.serving s hs).window]
  have each : ∀ id ∈ EntityId.distinct ids,
      Finds P (versionsWithin resolve w start stop id) fun _ => True := by
    intro id hid
    apply (finds_recallWithin id).bind
    rintro _ ⟨s, hs, rfl⟩
    have resolved : Finds P (collect (fun e => resolve e.2)
        ((s.cachedVersions id).filter (·.1.overlaps (.closed start stop))))
        (Outcomes (fun _ _ => True)
          ((s.cachedVersions id).filter (·.1.overlaps (.closed start stop)))) :=
      .collect fun f hf => cached id (EntityId.mem_distinct.1 hid) s hs f (List.mem_filter.1 hf).1
    exact resolved.bind fun _ _ => (finds_fetchGaps hP id _).bind fun _ _ => .pure trivial
  exact (Leads.gather each).bind fun _ _ => .pure trivial

end

end Cached

/-- A version names a child that lookups refuse. -/
def Entity.NamesBlank (e : Entity j) : Prop :=
  ∃ (k : Kind) (id : EntityId k), e.Names id ∧ id.IsBlank

theorem Entity.namesBlank_iff {e : Entity j} : e.NamesBlank ↔ ∃ l ∈ e.children, ¬Named l.2 := by
  constructor
  · rintro ⟨k, id, ⟨ids, hids, hid⟩, blank⟩
    exact ⟨_, hids, not_named_iff.2 ⟨id, hid, blank⟩⟩
  · rintro ⟨⟨k, ids⟩, hids, unnamed⟩
    obtain ⟨id, hid, blank⟩ := not_named_iff.1 unnamed
    exact ⟨k, id, ⟨ids, hids, hid⟩, blank⟩

theorem Entity.namesBlank_demote {e : Entity j} : e.demote.NamesBlank ↔ e.NamesBlank := by
  simp only [NamesBlank, names_demote]

/-- Some version that is stored or cached names a child that lookups refuse. -/
def Stack.HoldsBlank (s : Stack) : Prop :=
  (∃ k, ∃ e ∈ s.repository.versions k, e.NamesBlank) ∨
    ∃ e ∈ s.versionCache.entries, ∃ f ∈ e.2.versions.entries, f.2.2.NamesBlank

/-- A serving stack in which no cached version names a child that lookups refuse. -/
structure Stack.Unblanked (r : Repository) (w : TimeRange) (s : Stack) : Prop
    extends Serving r w s where
  cached : s.versionCache.All fun e => ¬e.2.NamesBlank

section

variable {r : Repository} {w : TimeRange} {t : Instant}
  (stored : ∀ k, ∀ e ∈ r.versions k, ¬e.NamesBlank)

include stored

theorem Stack.served_unblanked (k : Kind) : Served r w k (Unblanked r w) where
  serving := fun _ h => h.toServing
  effect := by
    intro s s' h step
    refine ⟨⟨step.versions_eq.trans h.versions, step.failure_eq.trans h.working,
      step.window_eq.trans h.window⟩, ?_⟩
    cases step with
    | call ids time => exact h.cached
    | read id t => exact h.cached
    | keep es held working =>
        have own : ∀ e ∈ es, ¬e.demote.NamesBlank := by
          intro e he
          rw [Entity.namesBlank_demote]
          exact stored k e (h.versions ▸ held e he)
        have carried : ∀ e : Entity .response, ¬e.demote.NamesBlank := by
          rintro e ⟨k, id, ⟨ids, hids, -⟩, -⟩
          exact absurd hids List.not_mem_nil
        exact (h.cached.keep s.window own).keep s.window fun e _ => carried e

theorem Cached.refusedIff_findAt_of_unblanked (k : Kind) (ids : List (EntityId k)) :
    RefusedIff (Stack.Unblanked r w) (findAt k ids t) (¬Named ids) (Stack.Unblanked r w) := by
  induction k using Kind.upward with
  | h k below =>
      have resolves : ∀ e : Entity k, ¬e.NamesBlank →
          Finds (Stack.Unblanked r w) (resolveAt t k e) fun _ => True := by
        intro e he
        refine (refusedIff_resolveAt (fun j blank => blank (named_nil j)) below e).succeeds ?_
        rwa [← Entity.namesBlank_iff]
      rw [findAt_eq_pointLookup]
      apply refusedIff_pointLookup_of (Stack.served_unblanked stored k)
      · exact fun id _ s e hs found => resolves e (hs.cached.find? found)
      · exact fun v hv _ _ => resolves v (stored k v hv)

theorem Cached.refusedIff_findWithin_of_unblanked (k : Kind) (ids : List (EntityId k))
    {start stop : Instant} (ordered : start ≤ stop) :
    RefusedIff (Stack.Unblanked r w) (findWithin k ids start stop) (¬Named ids)
      (Stack.Unblanked r w) := by
  have served := Stack.served_unblanked (w := w) stored
  by_cases hk : k = .station
  · subst hk
    refine refusedIff_rangeLookup_of (served .station) ordered fun id _ s hs f hf => ?_
    have clean := Stack.all_cachedVersions hs.cached hf
    have groups : ∀ t ids, RefusedIff (Stack.Unblanked r w) (groupsAt ids t) (¬Named ids)
        (Stack.Unblanked r w) := fun t => refusedIff_findAt_of_unblanked stored .channelGroup
    refine (refusedIff_resolveCachedStation (fun _ blank => blank (named_nil _)) groups
      f.2).succeeds ?_
    rintro ⟨-, -, unnamed⟩
    exact clean (Entity.namesBlank_iff.2
      ⟨⟨.channelGroup, f.2.groups.map (·.id)⟩, List.mem_cons_of_mem _ List.mem_cons_self, unnamed⟩)
  · rw [findWithin_eq_rangeLookup hk]
    exact refusedIff_rangeLookup_of (served k) ordered fun _ _ _ _ _ _ => .pure trivial

end

end StationCatalog
