import StationCatalog.Entity.Lemmas
import StationCatalog.Proofs.Yields
import StationCatalog.Tier.Populate

/-!
What faceting keeps of an entity. Faceting cuts an entity down, puts what a lookup finds in its
place, and replaces its children; a relation that allows each of these holds between an entity and
all that comes of it.
-/

namespace StationCatalog.Populate

open Lookup

variable {k : Kind} {t : Instant} {P : Stack → Prop}

/-- A relation of entities of a kind that cutting an entity down and replacing its children, which
leave its identity and its time as they are, do not leave. -/
structure Relates (R : {k : Kind} → Entity k → Entity k → Prop) : Prop where
  trans {k : Kind} {a b c : Entity k} (hab : R a b) (hbc : R b c) : R a c
  cut {k : Kind} (e : Entity k) : R e e.toVersionReference
  same {k : Kind} {e e' : Entity k} (hid : e'.id = e.id) (hstart : e'.start? = e.start?)
    (hstop : e'.stop? = e.stop?) : R e e'

variable {R : {k : Kind} → Entity k → Entity k → Prop}

theorem relates_none (e : Entity k) : ∀ x ∈ (none : Option (Entity k)), R e x :=
  fun _ h => absurd h (Option.not_mem_none _)

theorem Relates.some (hR : Relates R) {e e' : Entity k} (hid : e'.id = e.id)
    (hstart : e'.start? = e.start?) (hstop : e'.stop? = e.stop?) : ∀ x ∈ some e', R e x := by
  rintro x ⟨⟩
  exact hR.same hid hstart hstop

theorem Relates.self (hR : Relates R) (e : Entity k) : ∀ x ∈ Option.some e, R e x :=
  hR.some rfl rfl rfl

theorem relates_id : Relates fun {k} (e x : Entity k) => x.id = e.id where
  trans hab hbc := hbc.trans hab
  cut := Entity.id_toVersionReference
  same hid _ _ := hid

section

variable (hR : Relates R) {find : Finder}
  (hfind : ∀ (k : Kind) (e : Entity k), Yields P (find k [e.id] t) fun es => ∀ x ∈ es, R e x)

include hR hfind

theorem yields_facet {children : Faceting → Entity k → Lookup (Option (Entity k))}
    (hchildren : ∀ f e, Yields P (children f e) fun o => ∀ x ∈ o, R e x) (f : Faceting)
    (e : Entity k) : Yields P (facet find t children f e) fun o => ∀ x ∈ o, R e x := by
  have hpresent : Yields P (present find t e) fun o => ∀ x ∈ o, R e x := by
    unfold present
    split
    · exact .pure (hR.self e)
    · refine (hfind k e).bind fun found hfound => .pure fun x hx => ?_
      exact hfound x (List.mem_of_head? hx)
  by_cases hkind : f.kind = k
  · simp only [facet, ne_eq, hkind, not_true_eq_false, if_false]
    split
    · exact .some (hR.cut e)
    · apply hpresent.bind
      intro found hfound
      cases found with
      | none => exact .none
      | some x =>
          dsimp only
          split
          · exact (hchildren f x).mono fun o ho y hy => hR.trans (hfound x rfl) (ho y hy)
          · exact .pure hfound
  · simp only [facet, ne_eq, hkind, not_false_eq_true, if_true]
    exact Yields.bind (Q := fun _ => False) (.throw _) fun _ never => never.elim

omit hR hfind in
theorem yields_facetAll {one : Faceting → Entity k → Lookup (Option (Entity k))}
    (hone : ∀ f e, Yields P (one f e) fun o => ∀ x ∈ o, R e x) (f : Option Faceting)
    (es : List (Entity k)) : Yields P (facetAll one f es) fun _ => True := by
  cases f with
  | none => exact .pure trivial
  | some f =>
      have each : ∀ e ∈ es, Yields P (one f e) fun o => ∀ x ∈ o, True :=
        fun e _ => (hone f e).mono fun _ _ _ _ => trivial
      exact (Yields.collect each).mono fun _ _ => trivial

theorem yields_response (f : Faceting) (e : Entity .response) :
    Yields P (response find t f e) fun o => ∀ x ∈ o, R e x :=
  yields_facet hR hfind (fun _ e => .pure (hR.self e)) f e

theorem yields_channel (f : Faceting) (e : Entity .channel) :
    Yields P (channel find t f e) fun o => ∀ x ∈ o, R e x := by
  refine yields_facet hR hfind ?_ f e
  intro f e
  split
  · refine (yields_response hR hfind _ _).bind fun found _ => .pure ?_
    cases found with
    | none => exact relates_none e
    | some r =>
        exact hR.some (Entity.id_withResponse e r) (Entity.start?_withResponse e r)
          (Entity.stop?_withResponse e r)
  · exact .pure (hR.self e)

theorem yields_channelGroup (f : Faceting) (e : Entity .channelGroup) :
    Yields P (channelGroup find t f e) fun o => ∀ x ∈ o, R e x := by
  refine yields_facet hR hfind ?_ f e
  intro f e
  refine (yields_facetAll (yields_channel hR hfind) _ _).bind fun channels _ => ?_
  split
  · exact .none
  · exact .pure (hR.some (Entity.id_withChannels e _) (Entity.start?_withChannels e _)
      (Entity.stop?_withChannels e _))

theorem yields_station (f : Faceting) (e : Entity .station) :
    Yields P (station find t f e) fun o => ∀ x ∈ o, R e x := by
  refine yields_facet hR hfind ?_ f e
  intro f e
  refine (yields_facetAll (yields_channelGroup hR hfind) _ _).bind fun groups _ =>
    (yields_facetAll (yields_channel hR hfind) _ _).bind fun channels _ => ?_
  dsimp only
  split
  · exact .none
  · exact .pure (hR.some (Entity.id_withChildren e _ _) (Entity.start?_withChildren e _ _)
      (Entity.stop?_withChildren e _ _))

theorem yields_stationGroup (f : Faceting) (e : Entity .stationGroup) :
    Yields P (stationGroup find t f e) fun o => ∀ x ∈ o, R e x := by
  refine yields_facet hR hfind ?_ f e
  intro f e
  refine (yields_facetAll (yields_station hR hfind) _ _).bind fun stations _ => ?_
  split
  · exact .none
  · exact .pure (hR.some (Entity.id_withStations e _) (Entity.start?_withStations e _)
      (Entity.stop?_withStations e _))

/-- Whatever populating makes of an entity is related to it. -/
theorem yields_entity (k : Kind) (f : Faceting) (e : Entity k) :
    Yields P (entity find t k f e) fun o => ∀ x ∈ o, R e x := by
  cases k with
  | stationGroup => exact yields_stationGroup hR hfind f e
  | station => exact yields_station hR hfind f e
  | channelGroup => exact yields_channelGroup hR hfind f e
  | channel => exact yields_channel hR hfind f e
  | response => exact yields_response hR hfind f e

end

/-- Populating does nothing to the stack but what the lookups it makes do. -/
theorem yields_entity_any {find : Finder} (hfind : ∀ k ids, Yields P (find k ids t) fun _ => True)
    (k : Kind) (f : Faceting) (e : Entity k) : Yields P (entity find t k f e) fun _ => True := by
  have any : Relates fun {k} (_ _ : Entity k) => True :=
    ⟨fun _ _ => trivial, fun _ => trivial, fun _ _ _ => trivial⟩
  have found : ∀ (k : Kind) (e : Entity k), Yields P (find k [e.id] t) fun es => ∀ x ∈ es, True :=
    fun k e => (hfind k [e.id]).mono fun _ _ _ _ => trivial
  exact (yields_entity any found k f e).mono fun _ _ => trivial

end StationCatalog.Populate
