import StationCatalog.Proofs.PointAnswers
import StationCatalog.Tier.Cached.Within

/-!
Cached stations over a time range. A station that is answered from the cache is resolved as of its
own start, which leaves it the channel groups that then hold one of its raw channels, and drops it
when there are none.
-/

namespace StationCatalog

open Lookup

/-- At an instant a channel group has a version that lists one of these channels, and the channel
has a version too. -/
def Repository.Holds (r : Repository) (t : Instant) (id : EntityId .channelGroup)
    (names : List (EntityId .channel)) : Prop :=
  ∃ g ∈ r.versions .channelGroup, g.id = id ∧ g.holdsAt t = true ∧
    ∃ c ∈ r.versions .channel, c.holdsAt t = true ∧ c.id ∈ g.channels.map (·.id) ∧ c.id ∈ names

/-- A station names a channel group that holds one of its raw channels when the station starts. -/
def Repository.Links (r : Repository) (v : Entity .station) (id : EntityId .channelGroup) : Prop :=
  id ∈ v.groups.map (·.id) ∧ ∃ t, v.start? = some t ∧ r.Holds t id (v.rawChannels.map (·.id))

/-- An answer for a version of a station: the same version with the same raw channels, and with
these of its channel groups. -/
structure Entity.StandsFor (x v : Entity .station) (groups : EntityId .channelGroup → Prop) :
    Prop where
  version : x.version = v.version
  rawChannels : x.rawChannels.map (·.id) = v.rawChannels.map (·.id)
  groups : ∀ id, id ∈ x.groups.map (·.id) ↔ groups id

/-- What is made of a cached station: nothing when it links no channel group, and else the station
with the channel groups it links. -/
def Repository.Resolves (r : Repository) (v : Entity .station) : Option (Entity .station) → Prop
  | none => ∀ id, ¬r.Links v id
  | some x => (∃ id, r.Links v id) ∧ x.StandsFor v (r.Links v)

namespace Cached

variable {r : Repository} {w : TimeRange} {P : Stack → Prop} {t : Instant}

theorem mem_channelAnswers {ids : List (EntityId .channel)} {id : EntityId .channel} :
    id ∈ (channelAnswers r t ids).map (·.id) ↔ id ∈ ids ∧ ∃ c, r.versionAt? id t = some c := by
  have own : ∀ (j : EntityId .channel) x,
      (r.versionAt? j t).bind (fun e => some e.toVersionReference) = some x → x.id = j := by
    intro j x h
    obtain ⟨e, he, h⟩ := Option.bind_eq_some_iff.1 h
    rw [← Option.some.inj h, Entity.id_toVersionReference, (Repository.versionAt?_some he).2.1]
  constructor
  · intro h
    obtain ⟨x, hx, rfl⟩ := List.mem_map.1 h
    obtain ⟨j, hj, h⟩ := (mem_distinctVersions_filterMap own).1 hx
    obtain ⟨e, he, -⟩ := Option.bind_eq_some_iff.1 h
    rw [own j x h]
    exact ⟨hj, e, he⟩
  · rintro ⟨hid, c, hc⟩
    have answer : (r.versionAt? id t).bind (fun e => some e.toVersionReference) =
        some c.toVersionReference := by rw [hc, Option.bind_some]
    exact List.mem_map.2
      ⟨_, (mem_distinctVersions_filterMap own).2 ⟨id, hid, answer⟩, own id _ answer⟩

theorem mem_restricted {names : List (EntityId .channel)} {gs : List (Entity .channelGroup)}
    {id : EntityId .channelGroup} :
    id ∈ (gs.filterMap (restrictGroup names)).map (·.id) ↔
      ∃ g ∈ gs, g.id = id ∧ ∃ j ∈ g.channels.map (·.id), j ∈ names := by
  have kept : ∀ {g x : Entity .channelGroup}, restrictGroup names g = some x →
      x.id = g.id ∧ ∃ j ∈ g.channels.map (·.id), j ∈ names := by
    intro g x h
    simp only [restrictGroup] at h
    split at h
    · cases h
    next some =>
      obtain ⟨c, hc⟩ := List.exists_mem_of_ne_nil _ (mt List.isEmpty_iff.2 some)
      obtain ⟨hc, hany⟩ := List.mem_filter.1 hc
      rw [← Option.some.inj h, Entity.id_withChannels]
      exact ⟨rfl, c.id, List.mem_map.2 ⟨c, hc, rfl⟩, EntityId.any_eq_iff.1 hany⟩
  constructor
  · intro h
    obtain ⟨x, hx, rfl⟩ := List.mem_map.1 h
    obtain ⟨g, hg, h⟩ := List.mem_filterMap.1 hx
    exact ⟨g, hg, (kept h).1.symm, (kept h).2⟩
  · rintro ⟨g, hg, rfl, j, hj, hname⟩
    obtain ⟨c, hc, rfl⟩ := List.mem_map.1 hj
    have member : c ∈ g.channels.filter fun c => names.any (· = c.id) :=
      List.mem_filter.2 ⟨hc, EntityId.any_eq_iff.2 hname⟩
    have some : restrictGroup names g = Option.some (g.withChannels
        ((g.channels.filter fun c => names.any (· = c.id)).map (·.toReference))) := by
      simp only [restrictGroup, List.isEmpty_iff, List.ne_nil_of_mem member, if_false]
    exact List.mem_map.2 ⟨_, List.mem_filterMap.2 ⟨g, hg, some⟩, Entity.id_withChannels g _⟩

/-- The channels of a channel group with the versions of its channels. -/
theorem groupAnswer_channels {g y : Entity .channelGroup} (populated : g.isPopulated = true)
    (h : groupAnswer r t g = some y) :
    y.channels = channelAnswers r t (g.channels.map (·.id)) := by
  simp only [groupAnswer] at h
  split at h
  · cases h
  · rw [← Option.some.inj h, Entity.channels_withChannels populated]

/-- The channel groups that are left of these when they are cut down to some channels. -/
theorem finds_groupsAt_restricted (hr : r.Consistent) (hG : Stack.Grounded r w .channelGroup P)
    (hC : Stack.Grounded r w .channel P) (hR : Stack.Served r w .response P)
    (children : r.ChildrenNamed) {ids : List (EntityId .channelGroup)} (named : Named ids)
    (names : List (EntityId .channel)) :
    Finds P (groupsAt ids t) fun found => ∀ id,
      id ∈ (found.filterMap (restrictGroup names)).map (·.id) ↔
        id ∈ ids ∧ r.Holds t id names := by
  apply (finds_groupsAt_demote hr hG hC hR children named).mono
  intro found hfound id
  have own : ∀ (j : EntityId .channelGroup) x, (r.versionAt? j t).bind
      (fun e => (groupAnswer r t e).map Entity.demote) = some x → x.id = j := by
    intro j x h
    obtain ⟨g, hg, h⟩ := Option.bind_eq_some_iff.1 h
    obtain ⟨y, hy, rfl⟩ := Option.map_eq_some_iff.1 h
    rw [Entity.id_demote, id_of_groupAnswer hy, (Repository.versionAt?_some hg).2.1]
  have listed : ∀ x, x ∈ found.map Entity.demote ↔ ∃ j ∈ ids, (r.versionAt? j t).bind
      (fun e => (groupAnswer r t e).map Entity.demote) = some x := by
    intro x
    rw [hfound]
    exact mem_distinctVersions_filterMap own
  rw [mem_restricted]
  constructor
  · rintro ⟨x, hx, rfl, j, hj, hname⟩
    obtain ⟨i, hi, h⟩ := (listed x.demote).1 (List.mem_map.2 ⟨x, hx, rfl⟩)
    have same : x.id = i := (Entity.id_demote x).symm.trans (own i _ h)
    obtain ⟨g, hg, h⟩ := Option.bind_eq_some_iff.1 h
    obtain ⟨y, hy, hyx⟩ := Option.map_eq_some_iff.1 h
    obtain ⟨stored, hid, holds⟩ := Repository.versionAt?_some hg
    rw [← Entity.channels_demote, ← hyx, Entity.channels_demote,
      groupAnswer_channels (hr.populated _ g stored) hy] at hj
    obtain ⟨hj, c, hc⟩ := mem_channelAnswers.1 hj
    obtain ⟨channel, rfl, channelHolds⟩ := Repository.versionAt?_some hc
    rw [same]
    exact ⟨hi, g, stored, hid, holds, c, channel, channelHolds, hj, hname⟩
  · rintro ⟨hid, g, stored, rfl, holds, c, channel, channelHolds, hj, hname⟩
    have answered : c.id ∈ (channelAnswers r t (g.channels.map (·.id))).map (·.id) :=
      mem_channelAnswers.2 ⟨hj, c, hr.versionAt?_eq channel channelHolds⟩
    obtain ⟨y, hy⟩ : ∃ y, groupAnswer r t g = some y := by
      obtain ⟨a, ha, -⟩ := List.mem_map.1 answered
      refine ⟨g.withChannels (channelAnswers r t (g.channels.map (·.id))), ?_⟩
      simp only [groupAnswer, List.isEmpty_iff, List.ne_nil_of_mem ha, if_false]
    have found : y.demote ∈ found.map Entity.demote := by
      refine (listed y.demote).2 ⟨g.id, hid, ?_⟩
      rw [hr.versionAt?_eq stored holds, Option.bind_some, hy, Option.map_some]
    obtain ⟨x, hx, hxy⟩ := List.mem_map.1 found
    refine ⟨x, hx, ?_, c.id, ?_, hname⟩
    · rw [← Entity.id_demote, hxy, Entity.id_demote, id_of_groupAnswer hy]
    · rw [← Entity.channels_demote, hxy, Entity.channels_demote,
        groupAnswer_channels (hr.populated _ g stored) hy]
      exact answered

theorem resolveCachedStation_eq {e : Entity .station} (populated : e.isPopulated = true)
    (hs : e.start? = some t) :
    resolveCachedStation e = (do
      let found ← groupsAt (e.groups.map (·.id)) t
      let groups := found.filterMap (restrictGroup (e.rawChannels.map (·.id)))
      if (e.rawChannels.map (·.toReference)).isEmpty || groups.isEmpty then return none
      return some (e.withChildren groups (e.rawChannels.map (·.toReference)))) := by
  match e with
  | .reference _ | .versionReference .. => exact absurd populated Bool.false_ne_true
  | .populated .. =>
      obtain rfl := Option.some.inj hs
      rfl

theorem standsFor_withChildren {v : Entity .station} (populated : v.isPopulated = true)
    (gs : List (Entity .channelGroup)) :
    (v.withChildren gs (v.rawChannels.map (·.toReference))).StandsFor v
      (· ∈ gs.map (·.id)) := by
  match v with
  | .reference _ | .versionReference .. => exact absurd populated Bool.false_ne_true
  | .populated _ _ (.station ..) => exact ⟨rfl, Entity.map_id_toReference _, fun _ => Iff.rfl⟩

/-- A cached station is resolved to the channel groups it links. -/
theorem finds_resolveCachedStation (hr : r.Consistent) (hG : Stack.Grounded r w .channelGroup P)
    (hC : Stack.Grounded r w .channel P) (hR : Stack.Served r w .response P)
    (children : r.ChildrenNamed) {v : Entity .station} (hv : v ∈ r.versions .station) :
    Finds P (resolveCachedStation v.demote) (r.Resolves v) := by
  have populated := hr.populated _ v hv
  obtain ⟨t, ht⟩ := hr.exists_start hv
  rw [resolveCachedStation_eq ((Entity.isPopulated_demote v).trans populated)
    ((Entity.start?_demote v).trans ht), Entity.groups_demote, Entity.rawChannels_demote,
    Entity.toReference_rawChannels_demote]
  have named := named_map_id (children.groups v hv)
  apply (finds_groupsAt_restricted hr hG hC hR children named (v.rawChannels.map (·.id))).bind
  intro found hfound
  have links : ∀ id, id ∈ (found.filterMap
      (restrictGroup (v.rawChannels.map (·.id)))).map (·.id) ↔ r.Links v id := by
    intro id
    rw [hfound]
    refine and_congr_right fun _ => ⟨fun holds => ⟨t, ht, holds⟩, ?_⟩
    rintro ⟨u, hu, holds⟩
    exact Option.some.inj (ht.symm.trans hu) ▸ holds
  dsimp only
  split
  next dropped =>
    refine .pure ?_
    intro id hlink
    obtain ⟨g, hg, -⟩ := List.mem_map.1 ((links id).2 hlink)
    obtain ⟨-, -, -, -, -, -, -, c, -, -, -, hc⟩ := hlink
    rw [Bool.or_eq_true, List.isEmpty_iff, List.isEmpty_iff, List.map_eq_nil_iff] at dropped
    rcases dropped with none | none
    · rw [none] at hc
      exact absurd hc List.not_mem_nil
    · exact List.ne_nil_of_mem hg none
  next kept =>
    rw [Entity.withChildren_demote]
    rw [Bool.or_eq_true, not_or] at kept
    obtain ⟨g, hg⟩ := List.exists_mem_of_ne_nil _ (mt List.isEmpty_iff.2 kept.2)
    have stands := standsFor_withChildren populated
      (found.filterMap (restrictGroup (v.rawChannels.map (·.id))))
    refine .pure ⟨⟨g.id, (links g.id).1 (List.mem_map.2 ⟨g, hg, rfl⟩)⟩, ?_⟩
    exact ⟨stands.version, stands.rawChannels, fun id => (stands.groups id).trans (links id)⟩

end Cached

end StationCatalog
