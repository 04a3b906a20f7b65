import StationCatalog.Proofs.PointAnswers

/-!
The children that a version names, and what is reached through them: by following children down from
station groups, over the stored versions that hold at some time of a range.
-/

namespace StationCatalog

open Lookup

variable {j k : Kind}

namespace Entity

/-- The identifiers of the children, kind by kind; a mere reference has none. -/
def children : {k : Kind} → Entity k → List ((k : Kind) × List (EntityId k))
  | .stationGroup, g => [⟨.station, g.stations.map (·.id)⟩]
  | .station, s => [⟨.channel, s.rawChannels.map (·.id)⟩, ⟨.channelGroup, s.groups.map (·.id)⟩]
  | .channelGroup, g => [⟨.channel, g.channels.map (·.id)⟩]
  | .channel, c => [⟨.response, (c.response?.map (·.id)).toList⟩]
  | .response, _ => []

/-- A version names an entity as a child. -/
def Names (e : Entity j) (id : EntityId k) : Prop := ∃ ids, ⟨k, ids⟩ ∈ e.children ∧ id ∈ ids

theorem children_of_isPopulated_eq_false {e : Entity k} (h : e.isPopulated = false) :
    ∀ l ∈ e.children, l.2 = [] := by
  cases e with
  | populated => cases h
  | reference | versionReference =>
      intro l hl
      cases k with
      | station =>
          rcases List.mem_pair.1 hl with rfl | rfl
          · rfl
          · rfl
      | stationGroup | channelGroup | channel => rw [List.mem_singleton.1 hl]; rfl
      | response => exact absurd hl List.not_mem_nil

/-- Cutting a version down leaves the names of its children. -/
@[simp] theorem children_demote (e : Entity k) : e.demote.children = e.children := by
  cases k with
  | stationGroup => simp only [children, stations_demote]
  | station => simp only [children, rawChannels_demote, groups_demote]
  | channelGroup => simp only [children, channels_demote]
  | channel => simp only [children, map_id_response?_demote]
  | response => rfl

theorem names_demote {e : Entity j} {id : EntityId k} : e.demote.Names id ↔ e.Names id := by
  simp only [Names, children_demote]

theorem rank_lt_of_names {e : Entity j} {id : EntityId k} (h : e.Names id) : j.rank < k.rank := by
  obtain ⟨ids, hids, -⟩ := h
  have below : ∀ l ∈ e.children, j.rank < l.1.rank := by
    intro l hl
    cases j with
    | station =>
        rcases List.mem_pair.1 hl with rfl | rfl
        · exact (by decide : Kind.station.rank < Kind.channel.rank)
        · exact (by decide : Kind.station.rank < Kind.channelGroup.rank)
    | stationGroup | channelGroup | channel =>
        rw [List.mem_singleton.1 hl]
        exact Nat.lt_succ_self _
    | response => exact absurd hl List.not_mem_nil
  exact below _ hids

/-- The children that filling the cache goes on to: all but the raw channels of stations. -/
def Seeds (e : Entity j) (id : EntityId k) : Prop := e.Names id ∧ ¬(j = .station ∧ k = .channel)

theorem rank_of_seeds {e : Entity j} {id : EntityId k} (h : e.Seeds id) :
    k.rank = j.rank + 1 := by
  obtain ⟨⟨ids, hids, -⟩, other⟩ := h
  cases j with
  | station =>
      rcases List.mem_pair.1 hids with same | same
      · exact absurd ⟨rfl, congrArg Sigma.fst same⟩ other
      · rw [show k = .channelGroup from congrArg Sigma.fst same]
        rfl
  | stationGroup | channelGroup | channel =>
      obtain ⟨rfl, -⟩ := Sigma.mk.inj (List.mem_singleton.1 hids)
      rfl
  | response => exact absurd hids List.not_mem_nil

theorem seeds_demote {e : Entity j} {id : EntityId k} : e.demote.Seeds id ↔ e.Seeds id := by
  simp only [Seeds, names_demote]

theorem seeds_stationGroup_iff {e : Entity .stationGroup} {id : EntityId .station} :
    e.Seeds id ↔ id ∈ e.stations.map (·.id) := by
  simp [Seeds, Names, children]

theorem seeds_station_iff {e : Entity .station} {id : EntityId .channelGroup} :
    e.Seeds id ↔ id ∈ e.groups.map (·.id) := by
  simp [Seeds, Names, children]

theorem seeds_channelGroup_iff {e : Entity .channelGroup} {id : EntityId .channel} :
    e.Seeds id ↔ id ∈ e.channels.map (·.id) := by
  simp [Seeds, Names, children]

theorem seeds_channel_iff {e : Entity .channel} {id : EntityId .response} :
    e.Seeds id ↔ id ∈ (e.response?.map (·.id)).toList := by
  simp [Seeds, Names, children]

end Entity

/-- An entity is reached from station groups, going from stored versions that hold at some time of
a range to children of theirs. -/
inductive Repository.Reaches (r : Repository) (child : (j k : Kind) → Entity j → EntityId k → Prop)
    (roots : List (EntityId .stationGroup)) (start stop : Instant) :
    (k : Kind) → EntityId k → Prop
  | root {id : EntityId .stationGroup} (among : id ∈ roots) :
      Reaches r child roots start stop .stationGroup id
  | child {j k : Kind} {v : Entity j} {id : EntityId k}
      (parent : Reaches r child roots start stop j v.id) (stored : v ∈ r.versions j)
      (holds : v.holdsWithin start stop = true) (named : child j k v id) :
      Reaches r child roots start stop k id

/-- What station groups reach by children of any sort. -/
abbrev Repository.Reached (r : Repository) (roots : List (EntityId .stationGroup))
    (start stop : Instant) : (k : Kind) → EntityId k → Prop :=
  r.Reaches (fun _ _ => Entity.Names) roots start stop

/-- What station groups reach without going from a station to its raw channels. -/
abbrev Repository.Filled (r : Repository) (roots : List (EntityId .stationGroup))
    (start stop : Instant) : (k : Kind) → EntityId k → Prop :=
  r.Reaches (fun _ _ => Entity.Seeds) roots start stop

namespace Repository

variable {r : Repository} {roots : List (EntityId .stationGroup)} {start stop : Instant}

/-- What is reached is a root, or a child of a stored version. -/
theorem Reached.of_child {A : (k : Kind) → EntityId k → Prop}
    (first : ∀ id ∈ roots, A .stationGroup id)
    (children : ∀ j, ∀ v ∈ r.versions j, ∀ l ∈ v.children, ∀ id ∈ l.2, A l.1 id) {id : EntityId k}
    (h : r.Reached roots start stop k id) : A k id := by
  cases h with
  | root among => exact first _ among
  | child _ stored _ named =>
      obtain ⟨ids, hids, hid⟩ := named
      exact children _ _ stored _ hids _ hid

theorem Filled.reached {id : EntityId k} (h : r.Filled roots start stop k id) :
    r.Reached roots start stop k id := by
  induction h with
  | root among => exact .root among
  | child parent stored holds named ih => exact .child ih stored holds named.1

theorem not_filled_nil {id : EntityId k} : ¬r.Filled [] start stop k id := by
  intro h
  induction h with
  | root among => exact absurd among List.not_mem_nil
  | child _ _ _ _ ih => exact ih

theorem filled_stationGroup_iff {id : EntityId .stationGroup} :
    r.Filled roots start stop .stationGroup id ↔ id ∈ roots := by
  refine ⟨fun h => ?_, .root⟩
  cases h with
  | root among => exact among
  | child _ _ _ named => exact absurd (Entity.rank_lt_of_names named.1) (Nat.not_lt_zero _)

end Repository

end StationCatalog
