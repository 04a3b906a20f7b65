import Mathlib.Data.List.Basic
import StationCatalog.Entity.Lemmas
import StationCatalog.Proofs.ComposedLookups
import StationCatalog.Proofs.Finds
import StationCatalog.Proofs.Yields

/-!
Entities as a faceting definition wants them. An entity that is wanted populated may have stayed a
reference, because a lookup found nothing better for it; which references stay is left open. What
faceting leaves meets its definition, and an entity that meets a definition is left as it is when it
is faceted again, as long as a lookup of a reference that stays finds that very reference. Where no
reference stays this takes no lookup.
-/

namespace StationCatalog

open Lookup

variable {k : Kind}

namespace Populate

/-- An entity as a definition wants it, given which references stay and what is wanted of the
children of a populated one. -/
structure Meets (Stays : {k : Kind} → Entity k → Prop) (children : Faceting → Entity k → Prop)
    (f : Faceting) (e : Entity k) : Prop where
  kind : f.kind = k
  populated : f.populated = true → e.isPopulated = true → children f e
  missing : f.populated = true → e.isPopulated = false → Stays e
  reduced : f.populated = false → e.toVersionReference = e

/-- Each of the children is as the definition wants it, where one is given for them. -/
def EachMeets (one : Faceting → Entity k → Prop) (f : Option Faceting) (es : List (Entity k)) :
    Prop := ∀ g ∈ f, ∀ e ∈ es, one g e

section

variable (Stays : {k : Kind} → Entity k → Prop)

def MeetsResponse : Faceting → Entity .response → Prop := Meets Stays fun _ _ => True

def MeetsChannel : Faceting → Entity .channel → Prop :=
  Meets Stays fun f e =>
    EachMeets (MeetsResponse Stays) (f.facet? Faceting.responseKey) e.response?.toList

def MeetsGroup : Faceting → Entity .channelGroup → Prop :=
  Meets Stays fun f e => e.channels ≠ [] ∧
    EachMeets (MeetsChannel Stays) (f.facet? Faceting.channelsKey) e.channels

end

/-- The channel groups and raw channels of a station are cut down to the names they share. -/
structure Matched (groupsPopulated : Bool) (gs : List (Entity .channelGroup))
    (cs : List (Entity .channel)) : Prop where
  groups : ∀ g ∈ gs, restrict (expectedNames groupsPopulated gs cs) g = some g
  channels : ∀ c ∈ cs, c.id ∈ expectedNames groupsPopulated gs cs

section

variable {groupsPopulated : Bool} {gs : List (Entity .channelGroup)} {cs : List (Entity .channel)}

theorem Matched.filterMap_groups (h : Matched groupsPopulated gs cs) :
    gs.filterMap (restrict (expectedNames groupsPopulated gs cs)) = gs := by
  rw [List.filterMap_congr h.groups, List.filterMap_some]

theorem Matched.filter_channels (h : Matched groupsPopulated gs cs) :
    (cs.filter fun c => (expectedNames groupsPopulated gs cs).any (· = c.id)) = cs :=
  List.filter_eq_self.2 fun c hc => EntityId.any_eq_iff.2 (h.channels c hc)

end

section

variable {names : List (EntityId .channel)} {g g' : Entity .channelGroup}

theorem mem_expectedNames {groupsPopulated : Bool} {gs : List (Entity .channelGroup)}
    {cs : List (Entity .channel)} {n : EntityId .channel} :
    n ∈ expectedNames groupsPopulated gs cs ↔ (∃ c ∈ cs, c.id = n) ∧
      (groupsPopulated = true → ∃ g ∈ gs, ∃ c ∈ g.channels, c.id = n) := by
  cases groupsPopulated with
  | false => simp only [expectedNames, Bool.false_eq_true, if_false, List.mem_map, false_imp_iff,
      and_true]
  | true => simp only [expectedNames, if_true, List.mem_filter, List.mem_map, List.any_eq_true,
      decide_eq_true_eq, true_imp_iff]

/-- A restricted group is a reference, or a populated group that keeps some channel. -/
theorem of_restrict (h : restrict names g = some g') :
    g'.isPopulated = g.isPopulated ∧ (g.isPopulated = false → g' = g) ∧
      (g.isPopulated = true → g'.channels ≠ []) ∧
        ∀ c, c ∈ g'.channels ↔ c ∈ g.channels ∧ c.id ∈ names := by
  have kept : ∀ c, c ∈ g.channels.filter (fun c => names.any (· = c.id)) ↔
      c ∈ g.channels ∧ c.id ∈ names := by
    intro c
    rw [List.mem_filter, EntityId.any_eq_iff]
  unfold Populate.restrict at h
  split at h
  next populated =>
    dsimp only at h
    split at h
    next => cases h
    next held =>
      obtain rfl := Option.some.inj h
      have channels := Entity.channels_withChannels populated
      refine ⟨g.isPopulated_withChannels _, fun reference => ?_, fun _ => ?_, ?_⟩
      · exact absurd (populated.symm.trans reference) Bool.noConfusion
      · rw [channels]
        exact fun none => held (List.isEmpty_iff.2 none)
      · rw [channels]
        exact kept
  next reference =>
    obtain rfl := Option.some.inj h
    have none : g.channels = [] := by
      by_contra held
      exact reference (Entity.isPopulated_of_channels_ne_nil held)
    refine ⟨rfl, fun _ => rfl, fun populated => absurd populated reference, fun c => ?_⟩
    rw [none]
    exact ⟨fun h => absurd h List.not_mem_nil, fun h => h.1⟩

theorem exists_restrict {c : Entity .channel} (hc : c ∈ g.channels) (hname : c.id ∈ names) :
    ∃ g', restrict names g = some g' := by
  have populated := Entity.isPopulated_of_channels_ne_nil (List.ne_nil_of_mem hc)
  have held : c ∈ g.channels.filter fun c => names.any (· = c.id) :=
    List.mem_filter.2 ⟨hc, EntityId.any_eq_iff.2 hname⟩
  simp only [restrict, populated, if_true, List.isEmpty_eq_false_iff.2 (List.ne_nil_of_mem held),
    Bool.false_eq_true, if_false]
  exact ⟨_, rfl⟩

theorem restrict_eq (held : g.isPopulated = true → g.channels ≠ [])
    (kept : ∀ c ∈ g.channels, c.id ∈ names) : restrict names g = some g := by
  have whole : (g.channels.filter fun c => names.any (· = c.id)) = g.channels :=
    List.filter_eq_self.2 fun c hc => EntityId.any_eq_iff.2 (kept c hc)
  cases populated : g.isPopulated with
  | false => simp only [restrict, populated, Bool.false_eq_true, if_false]
  | true =>
      simp only [restrict, populated, if_true, whole,
        List.isEmpty_eq_false_iff.2 (held populated), Bool.false_eq_true, if_false,
        Entity.withChannels_self]

theorem MeetsGroup.restrict {Stays : {k : Kind} → Entity k → Prop} {f : Faceting}
    (met : MeetsGroup Stays f g) (h : restrict names g = some g') : MeetsGroup Stays f g' := by
  obtain ⟨same, reference, held, kept⟩ := of_restrict h
  cases populated : g.isPopulated with
  | false => exact reference populated ▸ met
  | true =>
      refine ⟨met.kind, fun wanted _ => ⟨held populated, ?_⟩, fun _ missing => ?_, fun reduced => ?_⟩
      · exact fun d hd c hc => (met.populated wanted populated).2 d hd c ((kept c).1 hc).1
      · rw [same.trans populated] at missing
        cases missing
      · rw [← met.reduced reduced, Entity.isPopulated_toVersionReference] at populated
        cases populated

/-- Groups and channels cut down to the names they share share just those names. -/
theorem matched_restrict (groupsPopulated : Bool) (gs : List (Entity .channelGroup))
    (cs : List (Entity .channel)) :
    let names := expectedNames groupsPopulated gs cs
    Matched groupsPopulated (gs.filterMap (Populate.restrict names))
      (cs.filter fun c => names.any (· = c.id)) := by
  intro names
  have stays : ∀ n ∈ names, n ∈ expectedNames groupsPopulated
      (gs.filterMap (Populate.restrict names)) (cs.filter fun c => names.any (· = c.id)) := by
    intro n hn
    obtain ⟨⟨c, hc, same⟩, shared⟩ := mem_expectedNames.1 hn
    refine mem_expectedNames.2 ⟨⟨c, List.mem_filter.2 ⟨hc, ?_⟩, same⟩, fun wanted => ?_⟩
    · exact EntityId.any_eq_iff.2 (same ▸ hn)
    · obtain ⟨g, hg, d, hd, rfl⟩ := shared wanted
      obtain ⟨g', restricted⟩ := exists_restrict hd hn
      obtain ⟨-, -, -, kept⟩ := of_restrict restricted
      exact ⟨g', List.mem_filterMap.2 ⟨g, hg, restricted⟩, d, (kept d).2 ⟨hd, hn⟩, rfl⟩
  constructor
  · intro g' hg'
    obtain ⟨g, hg, restricted⟩ := List.mem_filterMap.1 hg'
    obtain ⟨same, -, held, kept⟩ := of_restrict restricted
    exact restrict_eq (fun populated => held (same ▸ populated))
      fun c hc => stays _ ((kept c).1 hc).2
  · intro c hc
    exact stays _ (EntityId.any_eq_iff.1 (List.mem_filter.1 hc).2)

end

section

variable (Stays : {k : Kind} → Entity k → Prop)

def MeetsStation : Faceting → Entity .station → Prop :=
  Meets Stays fun f e =>
    (e.groups ≠ [] ∧ EachMeets (MeetsGroup Stays) (f.facet? Faceting.groupsKey) e.groups) ∧
    (e.rawChannels ≠ [] ∧
      EachMeets (MeetsChannel Stays) (f.facet? Faceting.channelsKey) e.rawChannels) ∧
    Matched ((f.facet? Faceting.groupsKey).any (·.populated)) e.groups e.rawChannels

def MeetsStationGroup : Faceting → Entity .stationGroup → Prop :=
  Meets Stays fun f e => e.stations ≠ [] ∧
    EachMeets (MeetsStation Stays) (f.facet? Faceting.stationsKey) e.stations

/-- What faceting under a definition leaves of an entity. -/
def MeetsFacets : (k : Kind) → Faceting → Entity k → Prop
  | .stationGroup => MeetsStationGroup Stays
  | .station => MeetsStation Stays
  | .channelGroup => MeetsGroup Stays
  | .channel => MeetsChannel Stays
  | .response => MeetsResponse Stays

end

/-! ### What meets its definition is left as it is -/

section

variable {P : Stack → Prop} {find : Finder} {t : Instant}

theorem finds_collect_self {α : Type} {one : α → Lookup (Option α)} {as : List α}
    (h : ∀ a ∈ as, Finds P (one a) (· = some a)) : Finds P (collect one as) (· = as) := by
  induction as with
  | nil => exact .pure rfl
  | cons a as ih =>
      obtain ⟨first, rest⟩ := List.forall_mem_cons.1 h
      have found : Finds P (Option.toList <$> one a) (· = [a]) :=
        first.map fun _ same => congrArg Option.toList same
      refine found.bind fun _ hfound => Leads.bind (ih rest) fun _ hothers => .pure ?_
      rw [hfound, hothers, List.singleton_append]

theorem finds_facetAll {one : Faceting → Entity k → Lookup (Option (Entity k))}
    {C : Faceting → Entity k → Prop} {g : Option Faceting} {es : List (Entity k)}
    (h : EachMeets C g es) (hone : ∀ f e, C f e → Finds P (one f e) (· = some e)) :
    Finds P (facetAll one g es) (· = es) := by
  cases g with
  | none => exact .pure rfl
  | some g => exact finds_collect_self fun e he => hone g e (h g rfl e he)

variable {Stays : {k : Kind} → Entity k → Prop} {f : Faceting}
  (hfind : ∀ {k : Kind} (e : Entity k), Stays e → Finds P (find k [e.id] t) (·.head? = some e))

include hfind

theorem finds_facet {children : Faceting → Entity k → Lookup (Option (Entity k))}
    {C : Faceting → Entity k → Prop} {e : Entity k} (h : Meets Stays C f e)
    (hchildren : C f e → Finds P (children f e) (· = some e)) :
    Finds P (facet find t children f e) (· = some e) := by
  have right : ¬f.kind ≠ k := not_not_intro h.kind
  cases wanted : f.populated with
  | false =>
      simp only [facet, if_neg right, wanted, Bool.not_false, if_true, h.reduced wanted]
      exact .pure rfl
  | true =>
      simp only [facet, present, if_neg right, wanted, Bool.not_true, Bool.false_eq_true, if_false]
      cases populated : e.isPopulated with
      | true =>
          simp only [if_true, pure_bind, populated]
          exact hchildren (h.populated wanted populated)
      | false =>
          simp only [Bool.false_eq_true, if_false, bind_assoc, pure_bind]
          refine (hfind e (h.missing wanted populated)).bind fun found same => ?_
          simp only [same, populated, Bool.false_eq_true, if_false]
          exact .pure rfl

theorem finds_response {e : Entity .response} (h : MeetsResponse Stays f e) :
    Finds P (response find t f e) (· = some e) := finds_facet hfind h fun _ => .pure rfl

theorem finds_channel {e : Entity .channel} (h : MeetsChannel Stays f e) :
    Finds P (channel find t f e) (· = some e) := by
  refine finds_facet hfind h fun met => ?_
  split
  next r g hr hg =>
    have own : MeetsResponse Stays g r := met g hg r (by rw [hr]; exact List.mem_cons_self)
    refine (finds_response hfind own).bind fun found same => .pure ?_
    rw [same, Option.map_some, Entity.withResponse_self hr]
  next => exact .pure rfl

theorem finds_channelGroup {e : Entity .channelGroup} (h : MeetsGroup Stays f e) :
    Finds P (channelGroup find t f e) (· = some e) := by
  refine finds_facet hfind h fun ⟨held, met⟩ => ?_
  refine (finds_facetAll met fun _ _ => finds_channel hfind).bind fun channels same => ?_
  rw [same, List.isEmpty_eq_false_iff.2 held, Entity.withChannels_self]
  exact .pure rfl

theorem finds_station {e : Entity .station} (h : MeetsStation Stays f e) :
    Finds P (station find t f e) (· = some e) := by
  refine finds_facet hfind h fun ⟨⟨heldGroups, groups⟩, ⟨heldChannels, channels⟩, matched⟩ => ?_
  refine (finds_facetAll groups fun _ _ => finds_channelGroup hfind).bind fun gs sameGroups => ?_
  refine (finds_facetAll channels fun _ _ => finds_channel hfind).bind fun cs sameChannels => ?_
  dsimp only
  rw [sameGroups, sameChannels, matched.filterMap_groups, matched.filter_channels,
    List.isEmpty_eq_false_iff.2 heldGroups, List.isEmpty_eq_false_iff.2 heldChannels,
    Entity.withChildren_self]
  exact .pure rfl

theorem finds_stationGroup {e : Entity .stationGroup} (h : MeetsStationGroup Stays f e) :
    Finds P (stationGroup find t f e) (· = some e) := by
  refine finds_facet hfind h fun ⟨held, met⟩ => ?_
  refine (finds_facetAll met fun _ _ => finds_station hfind).bind fun stations same => ?_
  rw [same, List.isEmpty_eq_false_iff.2 held, Entity.withStations_self]
  exact .pure rfl

/-- An entity that meets a definition is left as it is, if each reference that stays is what a
lookup finds for it. -/
theorem finds_entity {e : Entity k} (h : MeetsFacets Stays k f e) :
    Finds P (entity find t k f e) (· = some e) := by
  cases k with
  | stationGroup => exact finds_stationGroup hfind h
  | station => exact finds_station hfind h
  | channelGroup => exact finds_channelGroup hfind h
  | channel => exact finds_channel hfind h
  | response => exact finds_response hfind h

end

/-- A lookup that finds the same from every stack, and leaves each stack as it is, is no lookup. -/
theorem eq_pure_of_finds {α : Type} {x : Lookup α} {a : α} (h : ∀ s, Finds (· = s) x (· = a)) :
    x = pure a := by
  refine funext fun s => ?_
  obtain ⟨_, found, rfl, same⟩ := h s s rfl
  exact Prod.ext found same

theorem collect_eq {α : Type} {one : α → Lookup (Option α)} {as : List α}
    (h : ∀ a ∈ as, one a = pure (some a)) : collect one as = pure as :=
  eq_pure_of_finds fun _ => finds_collect_self fun a ha => (h a ha).symm ▸ .pure rfl

/-- An entity that meets a definition, no reference staying, is left as it is, whatever could be
found. -/
theorem entity_eq {find : Finder} {t : Instant} {f : Faceting} {e : Entity k}
    (h : MeetsFacets (fun _ => False) k f e) : entity find t k f e = pure (some e) :=
  eq_pure_of_finds fun _ => finds_entity (fun _ never => never.elim) h

/-! ### What comes of faceting meets the definition -/

section

variable {P : Stack → Prop} {find : Finder} {t : Instant} {Stays : {k : Kind} → Entity k → Prop}

theorem yields_meets {children : Faceting → Entity k → Lookup (Option (Entity k))}
    {C : Faceting → Entity k → Prop}
    (hfind : ∀ ids, Yields P (find k ids t) fun es => ∀ e ∈ es, e.isPopulated = false → Stays e)
    (hchildren : ∀ f e, e.isPopulated = true →
      Yields P (children f e) fun o => ∀ x ∈ o, x.isPopulated = true ∧ C f x)
    (f : Faceting) (e : Entity k) :
    Yields P (facet find t children f e) fun o => ∀ x ∈ o, Meets Stays C f x := by
  have hpresent : Yields P (present find t e) fun o =>
      ∀ x ∈ o, x.isPopulated = false → Stays x := by
    unfold present
    split
    next populated => exact .some fun missing => absurd (populated.symm.trans missing) nofun
    next => exact (hfind [e.id]).bind fun found hfound => .pure fun x hx =>
      hfound x (List.mem_of_head? hx)
  by_cases hkind : f.kind = k
  · simp only [facet, ne_eq, hkind, not_true_eq_false, if_false]
    cases wanted : f.populated with
    | false =>
        have unwanted : ¬f.populated = true := Bool.eq_false_iff.1 wanted
        refine .some ⟨hkind, fun h => absurd h unwanted, fun h => absurd h unwanted, ?_⟩
        exact fun _ => e.toVersionReference_toVersionReference
    | true =>
        refine hpresent.bind fun found hfound => ?_
        cases found with
        | none => exact .none
        | some x =>
            have unreduced : ¬f.populated = false := by simp [wanted]
            cases populated : x.isPopulated with
            | true =>
                simp only [populated, if_true]
                refine (hchildren f x populated).mono fun o ho y hy => ?_
                obtain ⟨stays, met⟩ := ho y hy
                refine ⟨hkind, fun _ _ => met, fun _ missing => ?_, fun h => absurd h unreduced⟩
                rw [stays] at missing
                cases missing
            | false =>
                simp only [populated, Bool.false_eq_true, if_false]
                refine .some ⟨hkind, fun _ h => ?_, fun _ => hfound x rfl, fun h => absurd h unreduced⟩
                rw [populated] at h
                cases h
  · simp only [facet, ne_eq, hkind, not_false_eq_true, if_true, throw_bind]
    exact .throw _

theorem yields_eachMeets {one : Faceting → Entity k → Lookup (Option (Entity k))}
    {C : Faceting → Entity k → Prop} (hone : ∀ f e, Yields P (one f e) fun o => ∀ x ∈ o, C f x)
    (g : Option Faceting) (es : List (Entity k)) :
    Yields P (facetAll one g es) (EachMeets C g) := by
  cases g with
  | none => exact .pure nofun
  | some g =>
      refine (Yields.collect fun e _ => hone g e).mono fun xs hxs => ?_
      rintro _ ⟨⟩
      exact hxs

variable (hfind : ∀ k ids, Yields P (find k ids t) fun es =>
  ∀ e ∈ es, e.isPopulated = false → Stays e)

include hfind

theorem yields_meetsResponse (f : Faceting) (e : Entity .response) :
    Yields P (response find t f e) fun o => ∀ x ∈ o, MeetsResponse Stays f x :=
  yields_meets (hfind _) (fun _ _ populated => .some ⟨populated, trivial⟩) f e

theorem yields_meetsChannel (f : Faceting) (e : Entity .channel) :
    Yields P (channel find t f e) fun o => ∀ x ∈ o, MeetsChannel Stays f x := by
  refine yields_meets (hfind _) ?_ f e
  intro f e populated
  split
  next r g hr hg =>
    refine (yields_meetsResponse hfind g r).bind fun found hfound => ?_
    cases found with
    | none => exact .none
    | some x =>
        refine .some ⟨(e.isPopulated_withResponse x).trans populated, ?_⟩
        intro g' hg' x' hx'
        rw [Entity.response?_withResponse populated] at hx'
        obtain rfl := List.mem_singleton.1 hx'
        obtain rfl := Option.some.inj (hg.symm.trans hg')
        exact hfound x' rfl
  next unmatched =>
    refine .some ⟨populated, fun g hg r hr => ?_⟩
    exact (unmatched r g (Option.mem_toList.1 hr) hg).elim

theorem yields_meetsGroup (f : Faceting) (e : Entity .channelGroup) :
    Yields P (channelGroup find t f e) fun o => ∀ x ∈ o, MeetsGroup Stays f x := by
  refine yields_meets (hfind _) ?_ f e
  intro f e populated
  refine (yields_eachMeets (yields_meetsChannel hfind) _ _).bind fun channels met => ?_
  split
  next => exact .none
  next held =>
    refine .some ⟨(e.isPopulated_withChannels channels).trans populated, ?_⟩
    rw [Entity.channels_withChannels populated]
    exact ⟨fun none => held (List.isEmpty_iff.2 none), met⟩

theorem yields_meetsStation (f : Faceting) (e : Entity .station) :
    Yields P (station find t f e) fun o => ∀ x ∈ o, MeetsStation Stays f x := by
  refine yields_meets (hfind _) ?_ f e
  intro f e populated
  refine (yields_eachMeets (yields_meetsGroup hfind) _ _).bind fun groups metGroups =>
    (yields_eachMeets (yields_meetsChannel hfind) _ _).bind fun channels metChannels => ?_
  dsimp only
  split
  next => exact .none
  next held =>
    refine .some ⟨(e.isPopulated_withChildren _ _).trans populated, ?_⟩
    rw [Entity.groups_withChildren populated, Entity.rawChannels_withChildren populated]
    rw [Bool.or_eq_true, not_or, List.isEmpty_iff, List.isEmpty_iff] at held
    refine ⟨⟨held.2, fun g hg x hx => ?_⟩, ⟨held.1, fun g hg c hc => ?_⟩,
      matched_restrict _ groups channels⟩
    · obtain ⟨y, hy, restricted⟩ := List.mem_filterMap.1 hx
      exact (metGroups g hg y hy).restrict restricted
    · exact metChannels g hg c (List.mem_filter.1 hc).1

theorem yields_meetsStationGroup (f : Faceting) (e : Entity .stationGroup) :
    Yields P (stationGroup find t f e) fun o => ∀ x ∈ o, MeetsStationGroup Stays f x := by
  refine yields_meets (hfind _) ?_ f e
  intro f e populated
  refine (yields_eachMeets (yields_meetsStation hfind) _ _).bind fun stations met => ?_
  split
  next => exact .none
  next held =>
    refine .some ⟨(e.isPopulated_withStations stations).trans populated, ?_⟩
    rw [Entity.stations_withStations populated]
    exact ⟨fun none => held (List.isEmpty_iff.2 none), met⟩

/-- What faceting leaves of an entity meets the definition. -/
theorem yields_meetsFacets (k : Kind) (f : Faceting) (e : Entity k) :
    Yields P (entity find t k f e) fun o => ∀ x ∈ o, MeetsFacets Stays k f x := by
  cases k with
  | stationGroup => exact yields_meetsStationGroup hfind f e
  | station => exact yields_meetsStation hfind f e
  | channelGroup => exact yields_meetsGroup hfind f e
  | channel => exact yields_meetsChannel hfind f e
  | response => exact yields_meetsResponse hfind f e

end

end Populate

end StationCatalog
