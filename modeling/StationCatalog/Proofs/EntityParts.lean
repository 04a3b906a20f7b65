import StationCatalog.Entity.Equality

/-!
The parts of an entity: the children, the owning station and the response that its data hold. What
holds of references, and of a version if it holds of its parts, holds of every entity. An entity
whose numbers are all finite, its own and those of its parts, equals itself.
-/

namespace StationCatalog

variable {k : Kind}

/-! ### Parts -/

/-- The entities that data hold, in their order. -/
def EntityData.parts : {k : Kind} → EntityData k → List AnyEntity
  | _, .stationGroup _ stations => stations.map (Sigma.mk Kind.station)
  | _, .station _ _ _ groups channels =>
    groups.map (Sigma.mk Kind.channelGroup) ++ channels.map (Sigma.mk Kind.channel)
  | _, .channelGroup _ _ _ owner channels =>
    ⟨.station, owner⟩ :: channels.map (Sigma.mk Kind.channel)
  | _, .channel _ owner _ _ instrument =>
    ⟨.station, owner⟩ :: instrument.toList.map (Sigma.mk Kind.response)
  | _, .response .. => []

/-- The entities that an entity holds: those of its data, if it has any. -/
def Entity.parts : Entity k → List AnyEntity
  | .populated _ _ data => data.parts
  | _ => []

theorem sizeOf_lt_of_mem_map_mk {es : List (Entity k)} {p : AnyEntity}
    (h : p ∈ es.map (Sigma.mk k)) : sizeOf p.2 < sizeOf es := by
  obtain ⟨e, he, rfl⟩ := List.mem_map.1 h
  exact List.sizeOf_lt_of_mem he

theorem EntityData.sizeOf_lt_of_mem_parts {d : EntityData k} {p : AnyEntity} (h : p ∈ d.parts) :
    sizeOf p.2 < sizeOf d := by
  cases d with
  | stationGroup description stations =>
      have := sizeOf_lt_of_mem_map_mk h
      simp only [stationGroup.sizeOf_spec]
      omega
  | station type description location groups channels =>
      simp only [station.sizeOf_spec]
      rcases List.mem_append.1 h with hg | hc
      · have := sizeOf_lt_of_mem_map_mk hg
        omega
      · have := sizeOf_lt_of_mem_map_mk hc
        omega
  | channelGroup description location type owner channels =>
      simp only [channelGroup.sizeOf_spec]
      rcases List.mem_cons.1 h with rfl | hc
      · simp only
        omega
      · have := sizeOf_lt_of_mem_map_mk hc
        omega
  | channel description owner units sampleRate instrument =>
      simp only [channel.sizeOf_spec]
      rcases List.mem_cons.1 h with rfl | hr
      · simp only
        omega
      · obtain ⟨r, carried, rfl⟩ := List.mem_map.1 hr
        obtain rfl : instrument = some r := Option.mem_toList.1 carried
        simp only [Option.some.sizeOf_spec]
        omega
  | response calibration table => exact absurd h List.not_mem_nil

/-- What holds of an entity if it holds of its parts holds of every entity. -/
theorem Entity.induction_on_parts {P : {k : Kind} → Entity k → Prop}
    (step : ∀ {k : Kind} (e : Entity k), (∀ p ∈ e.parts, P p.2) → P e) :
    ∀ {k : Kind} (e : Entity k), P e
  | _, .reference id => step (.reference id) fun _ hp => absurd hp List.not_mem_nil
  | _, .versionReference id start =>
    step (.versionReference id start) fun _ hp => absurd hp List.not_mem_nil
  | _, .populated id validity data => by
    refine step (.populated id validity data) fun p hp => ?_
    have := EntityData.sizeOf_lt_of_mem_parts hp
    exact induction_on_parts step p.2
termination_by _ e => sizeOf e
decreasing_by
  simp only [Entity.populated.sizeOf_spec]
  omega

/-! ### Numbers -/

def Location.numbers (l : Location) : List Binary64 :=
  [l.latitudeDegrees, l.longitudeDegrees, l.depthKm, l.elevationKm]

def Calibration.numbers (c : Calibration) : List Binary64 :=
  [c.periodSeconds, c.factor, c.timeShiftSeconds]

/-- The numbers of data themselves, those of their parts aside. -/
def EntityData.numbers : {k : Kind} → EntityData k → List Binary64
  | _, .stationGroup .. => []
  | _, .station _ _ location _ _ => location.numbers
  | _, .channelGroup _ location _ _ _ => location.toList.flatMap Location.numbers
  | _, .channel _ _ _ sampleRate _ => [sampleRate]
  | _, .response calibration _ => calibration.numbers

def Entity.numbers : Entity k → List Binary64
  | .populated _ _ data => data.numbers
  | _ => []

/-- An entity has its own numbers and those of its parts, however deep. -/
inductive Entity.HasNumber (x : Binary64) : {k : Kind} → Entity k → Prop
  | own {k : Kind} {e : Entity k} (h : x ∈ e.numbers) : HasNumber x e
  | part {k : Kind} {e : Entity k} {p : AnyEntity} (h : p ∈ e.parts) (inner : HasNumber x p.2) :
    HasNumber x e

/-- The numbers of an entity are finite if its own and those of its parts are. -/
theorem Entity.finite_of_parts {e : Entity k} (own : ∀ x ∈ e.numbers, x.isFinite = true)
    (parts : ∀ p ∈ e.parts, ∀ x, p.2.HasNumber x → x.isFinite = true) :
    ∀ x, e.HasNumber x → x.isFinite = true
  | x, .own h => own x h
  | x, .part h inner => parts _ h x inner

/-! ### Equality -/

theorem Location.equals_self {l : Location} (finite : ∀ x ∈ l.numbers, x.isFinite = true) :
    l.equals l = true := by
  simp only [numbers, List.forall_mem_cons] at finite
  obtain ⟨latitude, longitude, depth, elevation, -⟩ := finite
  simp only [equals, Binary64.equals_self, latitude, longitude, depth, elevation, Bool.and_self]

theorem Calibration.equals_self {c : Calibration} (finite : ∀ x ∈ c.numbers, x.isFinite = true) :
    c.equals c = true := by
  simp only [numbers, List.forall_mem_cons] at finite
  obtain ⟨period, factor, shift, -⟩ := finite
  simp only [equals, Binary64.equals_self, period, factor, shift, Bool.and_self]

/-- Lists that are compared entity by entity equal themselves if their entities do. -/
theorem list_equal_self (equal : List (Entity k) → List (Entity k) → Bool)
    (nil : equal [] [] = true)
    (cons : ∀ e es, equal (e :: es) (e :: es) = (e.equals e && equal es es))
    {es : List (Entity k)} (h : ∀ e ∈ es, e.equals e = true) : equal es es = true := by
  induction es with
  | nil => exact nil
  | cons e es ih =>
      obtain ⟨he, hes⟩ := List.forall_mem_cons.1 h
      rw [cons, he, ih hes]
      rfl

theorem EntityData.equals_self {d : EntityData k} (finite : ∀ x ∈ d.numbers, x.isFinite = true)
    (parts : ∀ p ∈ d.parts, p.2.equals p.2 = true) : d.equals d = true := by
  cases d with
  | stationGroup description stations =>
      have children := list_equal_self equalStations rfl (fun _ _ => rfl)
        (List.forall_mem_map.1 parts)
      simp [equals, children]
  | station type description location groups channels =>
      obtain ⟨hgroups, hchannels⟩ := List.forall_mem_append.1 parts
      have bound := list_equal_self equalGroups rfl (fun _ _ => rfl) (List.forall_mem_map.1 hgroups)
      have raw := list_equal_self equalChannels rfl (fun _ _ => rfl)
        (List.forall_mem_map.1 hchannels)
      simp [equals, Location.equals_self finite, bound, raw]
  | channelGroup description location type owner channels =>
      obtain ⟨howner, hchannels⟩ := List.forall_mem_cons.1 parts
      have children := list_equal_self equalChannels rfl (fun _ _ => rfl)
        (List.forall_mem_map.1 hchannels)
      have place : Location.equalsOption location location = true := by
        cases location with
        | none => rfl
        | some l =>
            exact Location.equals_self fun x hx =>
              finite x (List.mem_flatMap_of_mem (List.mem_singleton_self l) hx)
      simp [equals, place, howner, children]
  | channel description owner units sampleRate instrument =>
      obtain ⟨howner, hresponse⟩ := List.forall_mem_cons.1 parts
      have carried : equalResponses instrument instrument = true := by
        cases instrument with
        | none => rfl
        | some r => exact hresponse _ (List.mem_singleton_self _)
      have rate := Binary64.equals_self (finite sampleRate (List.mem_singleton_self sampleRate))
      simp [equals, rate, howner, carried]
  | response calibration table => simp [equals, Calibration.equals_self finite]

/-- An entity whose numbers are all finite equals itself. -/
theorem Entity.equals_self (e : Entity k) :
    (∀ x, e.HasNumber x → x.isFinite = true) → e.equals e = true := by
  induction e using Entity.induction_on_parts with
  | step e ih =>
      intro finite
      have parts : ∀ p ∈ e.parts, p.2.equals p.2 = true := fun p hp =>
        ih p hp fun x hx => finite x (.part hp hx)
      cases e with
      | reference id => simp [equals]
      | versionReference id start => simp [equals]
      | populated id validity data =>
          simp [equals, EntityData.equals_self (fun x hx => finite x (.own hx)) parts]

end StationCatalog
