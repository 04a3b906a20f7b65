import StationCatalog.Entity.Basic

/-!
What the operations on entities keep: identifiers always, starts unless a version is dropped, and
validity and presence unless data are dropped.
-/

namespace StationCatalog

namespace Entity

variable {k : Kind}

@[simp] theorem id_toReference (e : Entity k) : e.toReference.id = e.id := rfl

@[simp] theorem id_toVersionReference (e : Entity k) : e.toVersionReference.id = e.id := by
  cases e <;> rfl

@[simp] theorem start?_toVersionReference (e : Entity k) :
    e.toVersionReference.start? = e.start? := by
  cases e <;> rfl

/-- A reference to a version names the version it was made from. -/
theorem version_toVersionReference (e : Entity k) : e.toVersionReference.version = e.version := by
  cases e <;> rfl

@[simp] theorem toVersionReference_toVersionReference (e : Entity k) :
    e.toVersionReference.toVersionReference = e.toVersionReference := by
  cases e <;> rfl

@[simp] theorem isPopulated_toVersionReference (e : Entity k) :
    e.toVersionReference.isPopulated = false := by
  cases e <;> rfl

@[simp] theorem id_demote (e : Entity k) : e.demote.id = e.id := by cases e <;> rfl

@[simp] theorem start?_demote (e : Entity k) : e.demote.start? = e.start? := by cases e <;> rfl

@[simp] theorem isPopulated_demote (e : Entity k) : e.demote.isPopulated = e.isPopulated := by
  cases e <;> rfl

@[simp] theorem id_withStations (e : Entity .stationGroup) (es : List (Entity .station)) :
    (e.withStations es).id = e.id := by
  match e with
  | .reference _ | .versionReference .. | .populated _ _ (.stationGroup ..) => rfl

@[simp] theorem id_withChildren (e : Entity .station) (gs : List (Entity .channelGroup))
    (cs : List (Entity .channel)) : (e.withChildren gs cs).id = e.id := by
  match e with
  | .reference _ | .versionReference .. | .populated _ _ (.station ..) => rfl

@[simp] theorem id_withChannels (e : Entity .channelGroup) (es : List (Entity .channel)) :
    (e.withChannels es).id = e.id := by
  match e with
  | .reference _ | .versionReference .. | .populated _ _ (.channelGroup ..) => rfl

@[simp] theorem id_withResponse (e : Entity .channel) (r : Entity .response) :
    (e.withResponse r).id = e.id := by
  match e with
  | .reference _ | .versionReference .. | .populated _ _ (.channel ..) => rfl

@[simp] theorem start?_withStations (e : Entity .stationGroup) (es : List (Entity .station)) :
    (e.withStations es).start? = e.start? := by
  match e with
  | .reference _ | .versionReference .. | .populated _ _ (.stationGroup ..) => rfl

@[simp] theorem start?_withChildren (e : Entity .station) (gs : List (Entity .channelGroup))
    (cs : List (Entity .channel)) : (e.withChildren gs cs).start? = e.start? := by
  match e with
  | .reference _ | .versionReference .. | .populated _ _ (.station ..) => rfl

@[simp] theorem start?_withChannels (e : Entity .channelGroup) (es : List (Entity .channel)) :
    (e.withChannels es).start? = e.start? := by
  match e with
  | .reference _ | .versionReference .. | .populated _ _ (.channelGroup ..) => rfl

@[simp] theorem start?_withResponse (e : Entity .channel) (r : Entity .response) :
    (e.withResponse r).start? = e.start? := by
  match e with
  | .reference _ | .versionReference .. | .populated _ _ (.channel ..) => rfl

@[simp] theorem stop?_toVersionReference (e : Entity k) : e.toVersionReference.stop? = none := by
  cases e <;> rfl

@[simp] theorem stop?_withStations (e : Entity .stationGroup) (es : List (Entity .station)) :
    (e.withStations es).stop? = e.stop? := by
  match e with
  | .reference _ | .versionReference .. | .populated _ _ (.stationGroup ..) => rfl

@[simp] theorem stop?_withChildren (e : Entity .station) (gs : List (Entity .channelGroup))
    (cs : List (Entity .channel)) : (e.withChildren gs cs).stop? = e.stop? := by
  match e with
  | .reference _ | .versionReference .. | .populated _ _ (.station ..) => rfl

@[simp] theorem stop?_withChannels (e : Entity .channelGroup) (es : List (Entity .channel)) :
    (e.withChannels es).stop? = e.stop? := by
  match e with
  | .reference _ | .versionReference .. | .populated _ _ (.channelGroup ..) => rfl

@[simp] theorem stop?_withResponse (e : Entity .channel) (r : Entity .response) :
    (e.withResponse r).stop? = e.stop? := by
  match e with
  | .reference _ | .versionReference .. | .populated _ _ (.channel ..) => rfl

@[simp] theorem isPopulated_withStations (e : Entity .stationGroup) (es : List (Entity .station)) :
    (e.withStations es).isPopulated = e.isPopulated := by
  match e with
  | .reference _ | .versionReference .. | .populated _ _ (.stationGroup ..) => rfl

@[simp] theorem isPopulated_withChildren (e : Entity .station) (gs : List (Entity .channelGroup))
    (cs : List (Entity .channel)) : (e.withChildren gs cs).isPopulated = e.isPopulated := by
  match e with
  | .reference _ | .versionReference .. | .populated _ _ (.station ..) => rfl

@[simp] theorem isPopulated_withChannels (e : Entity .channelGroup) (es : List (Entity .channel)) :
    (e.withChannels es).isPopulated = e.isPopulated := by
  match e with
  | .reference _ | .versionReference .. | .populated _ _ (.channelGroup ..) => rfl

@[simp] theorem isPopulated_withResponse (e : Entity .channel) (r : Entity .response) :
    (e.withResponse r).isPopulated = e.isPopulated := by
  match e with
  | .reference _ | .versionReference .. | .populated _ _ (.channel ..) => rfl

theorem stations_withStations {e : Entity .stationGroup} (populated : e.isPopulated = true)
    (es : List (Entity .station)) : (e.withStations es).stations = es := by
  match e with
  | .reference _ | .versionReference .. => exact absurd populated Bool.false_ne_true
  | .populated _ _ (.stationGroup ..) => rfl

theorem groups_withChildren {e : Entity .station} (populated : e.isPopulated = true)
    (gs : List (Entity .channelGroup)) (cs : List (Entity .channel)) :
    (e.withChildren gs cs).groups = gs := by
  match e with
  | .reference _ | .versionReference .. => exact absurd populated Bool.false_ne_true
  | .populated _ _ (.station ..) => rfl

theorem rawChannels_withChildren {e : Entity .station} (populated : e.isPopulated = true)
    (gs : List (Entity .channelGroup)) (cs : List (Entity .channel)) :
    (e.withChildren gs cs).rawChannels = cs := by
  match e with
  | .reference _ | .versionReference .. => exact absurd populated Bool.false_ne_true
  | .populated _ _ (.station ..) => rfl

theorem channels_withChannels {e : Entity .channelGroup} (populated : e.isPopulated = true)
    (cs : List (Entity .channel)) : (e.withChannels cs).channels = cs := by
  match e with
  | .reference _ | .versionReference .. => exact absurd populated Bool.false_ne_true
  | .populated _ _ (.channelGroup ..) => rfl

theorem response?_withResponse {e : Entity .channel} (populated : e.isPopulated = true)
    (r : Entity .response) : (e.withResponse r).response? = some r := by
  match e with
  | .reference _ | .versionReference .. => exact absurd populated Bool.false_ne_true
  | .populated _ _ (.channel ..) => rfl

theorem withStations_self (e : Entity .stationGroup) : e.withStations e.stations = e := by
  match e with
  | .reference _ | .versionReference .. | .populated _ _ (.stationGroup ..) => rfl

theorem withChildren_self (e : Entity .station) : e.withChildren e.groups e.rawChannels = e := by
  match e with
  | .reference _ | .versionReference .. | .populated _ _ (.station ..) => rfl

theorem withChannels_self (e : Entity .channelGroup) : e.withChannels e.channels = e := by
  match e with
  | .reference _ | .versionReference .. | .populated _ _ (.channelGroup ..) => rfl

theorem withResponse_self {e : Entity .channel} {r : Entity .response}
    (h : e.response? = some r) : e.withResponse r = e := by
  match e with
  | .reference _ | .versionReference .. => rfl
  | .populated _ _ (.channel ..) => cases h; rfl

/-- Only a populated channel group refers to channels. -/
theorem isPopulated_of_channels_ne_nil {e : Entity .channelGroup} (h : e.channels ≠ []) :
    e.isPopulated = true := by
  match e with
  | .reference _ | .versionReference .. => exact absurd rfl h
  | .populated _ _ (.channelGroup ..) => rfl

@[simp] theorem ofAny?_mk (e : Entity k) : ofAny? k ⟨k, e⟩ = some e := dif_pos rfl

theorem eq_of_ofAny?_eq_some {a : AnyEntity} {e : Entity k} (h : ofAny? k a = some e) :
    a = ⟨k, e⟩ := by
  obtain ⟨j, x⟩ := a
  unfold ofAny? at h
  split at h
  next same =>
    obtain rfl : j = k := same
    exact congrArg (Sigma.mk j) (Option.some.inj h)
  next => cases h

end Entity

end StationCatalog
