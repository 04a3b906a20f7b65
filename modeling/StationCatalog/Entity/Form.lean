import StationCatalog.Datum
import StationCatalog.Entity.Names

/-!
The exchanged form of an entity: a record of its identifier and its presence, which is the name of a
state or a record with the name of the state as its one field. Numbers stand there as literals,
instants and UUIDs as texts; how those are printed and parsed is a parameter of the form.
-/

namespace StationCatalog

/-- How the values of a type are printed, and parsed from what is printed. -/
structure Codec (α : Type) where
  print : α → String
  parse? : String → Option α

namespace Codec

variable {α : Type} (c : Codec α)

def toText (a : α) : Datum := .text (c.print a)

def ofText? (d : Datum) : Option α := d.text?.bind c.parse?

def toLiteral (a : α) : Datum := .number (c.print a)

def ofLiteral? (d : Datum) : Option α := d.number?.bind c.parse?

end Codec

/-- How the numbers, instants and UUIDs of entities are printed and parsed. -/
structure Codecs where
  number : Codec Binary64
  instant : Codec Instant
  uuid : Codec Uuid

/-- Names stand as they are; the identifier of a response is printed as the UUID it is. -/
def Codecs.id (c : Codecs) : (k : Kind) → Codec (EntityId k)
  | .response => ⟨fun i => c.uuid.print i.uuid, fun s => (c.uuid.parse? s).map .ofUuid⟩
  | .stationGroup | .station | .channelGroup | .channel => ⟨EntityId.text, EntityId.ofText? _⟩

def Datum.ofOption {α : Type} (f : α → Datum) : Option α → Datum
  | none => null
  | some a => f a

section

variable (c : Codecs)

def Location.toDatum (l : Location) : Datum :=
  .record [("latitude_degrees", c.number.toLiteral l.latitudeDegrees),
    ("longitude_degrees", c.number.toLiteral l.longitudeDegrees),
    ("depth_km", c.number.toLiteral l.depthKm),
    ("elevation_km", c.number.toLiteral l.elevationKm)]

def Location.ofDatum? (d : Datum) : Option Location := do
  let latitudeDegrees ← d.read? c.number.ofLiteral? "latitude_degrees"
  let longitudeDegrees ← d.read? c.number.ofLiteral? "longitude_degrees"
  let depthKm ← d.read? c.number.ofLiteral? "depth_km"
  let elevationKm ← d.read? c.number.ofLiteral? "elevation_km"
  return { latitudeDegrees, longitudeDegrees, depthKm, elevationKm }

def Calibration.toDatum (a : Calibration) : Datum :=
  .record [("calibration_period_sec", c.number.toLiteral a.periodSeconds),
    ("calibration_factor", c.number.toLiteral a.factor),
    ("calibration_time_shift_sec", c.number.toLiteral a.timeShiftSeconds)]

def Calibration.ofDatum? (d : Datum) : Option Calibration := do
  let periodSeconds ← d.read? c.number.ofLiteral? "calibration_period_sec"
  let factor ← d.read? c.number.ofLiteral? "calibration_factor"
  let timeShiftSeconds ← d.read? c.number.ofLiteral? "calibration_time_shift_sec"
  return { periodSeconds, factor, timeShiftSeconds }

def Kind.idField : Kind → String
  | .response => "id"
  | .stationGroup | .station | .channelGroup | .channel => "name"

mutual

/-- The exchanged form of an entity. -/
def Entity.toDatum : {k : Kind} → Entity k → Datum
  | k, .reference id =>
    .record [(k.idField, (c.id k).toText id), ("presence", .text "EntityReference")]
  | k, .versionReference id start =>
    .record [(k.idField, (c.id k).toText id), ("presence", .record [("VersionReference",
      .record [("effective_at", c.instant.toText start)])])]
  | k, .populated id validity data =>
    .record [(k.idField, (c.id k).toText id), ("presence", .record [("Populated",
      .record [("effective_at", c.instant.toText validity.start),
        ("effective_until", .ofOption c.instant.toText validity.stop), ("data", data.toDatum)])])]

def EntityData.toDatum : {k : Kind} → EntityData k → Datum
  | _, .stationGroup description stations =>
    .record [("description", .text description), ("stations", .list (stationData stations))]
  | _, .station type description location groups channels =>
    .record [("station_type", .text type.name), ("description", .text description),
      ("location", location.toDatum c), ("channel_groups", .list (groupData groups)),
      ("all_raw_channels", .list (channelData channels))]
  | _, .channelGroup description location type owner channels =>
    .record [("description", .text description),
      ("location", .ofOption (Location.toDatum c) location), ("group_type", .text type.name),
      ("station", owner.toDatum), ("channels", .list (channelData channels))]
  | _, .channel description owner units sampleRate response =>
    .record [("description", .text description), ("station", owner.toDatum),
      ("units", .text units.name), ("nominal_sample_rate_hz", c.number.toLiteral sampleRate),
      ("response", responseData response)]
  | _, .response calibration table =>
    .record [("calibration", calibration.toDatum c), ("fap_id", .ofOption c.uuid.toText table)]

def stationData : List (Entity .station) → List Datum
  | [] => []
  | e :: es => e.toDatum :: stationData es

def groupData : List (Entity .channelGroup) → List Datum
  | [] => []
  | e :: es => e.toDatum :: groupData es

def channelData : List (Entity .channel) → List Datum
  | [] => []
  | e :: es => e.toDatum :: channelData es

def responseData : Option (Entity .response) → Datum
  | none => .null
  | some e => e.toDatum

end

mutual

def Entity.ofDatum? (k : Kind) (d : Datum) : Option (Entity k) := do
  let id ← d.read? (c.id k).ofText? k.idField
  let ⟨presence, _⟩ ← d.field? "presence"
  match presence.variant? with
  | some ("EntityReference", ⟨.null, _⟩) => return .reference id
  | some ("VersionReference", ⟨v, _⟩) =>
    return .versionReference id (← v.read? c.instant.ofText? "effective_at")
  | some ("Populated", ⟨v, _⟩) =>
    let start ← v.read? c.instant.ofText? "effective_at"
    let stop ← v.readOptional? c.instant.ofText? "effective_until"
    let ⟨x, _⟩ ← v.field? "data"
    return .populated id ⟨start, stop⟩ (← EntityData.ofDatum? k x)
  | _ => none
termination_by sizeOf d
decreasing_by omega

def EntityData.ofDatum? : (k : Kind) → (d : Datum) → Option (EntityData k)
  | .stationGroup, d => do
    let description ← d.read? Datum.text? "description"
    let stations ← (← d.items? "stations").mapM fun ⟨x, _⟩ => Entity.ofDatum? .station x
    return .stationGroup description stations
  | .station, d => do
    let type ← d.read? (fun x => x.text?.bind StationType.ofName?) "station_type"
    let description ← d.read? Datum.text? "description"
    let location ← d.read? (Location.ofDatum? c) "location"
    let groups ← (← d.items? "channel_groups").mapM fun ⟨x, _⟩ => Entity.ofDatum? .channelGroup x
    let channels ← (← d.items? "all_raw_channels").mapM fun ⟨x, _⟩ => Entity.ofDatum? .channel x
    return .station type description location groups channels
  | .channelGroup, d => do
    let description ← d.read? Datum.text? "description"
    let location ← d.readOptional? (Location.ofDatum? c) "location"
    let type ← d.read? (fun x => x.text?.bind GroupType.ofName?) "group_type"
    let ⟨owner, _⟩ ← d.field? "station"
    let owner ← Entity.ofDatum? .station owner
    let channels ← (← d.items? "channels").mapM fun ⟨x, _⟩ => Entity.ofDatum? .channel x
    return .channelGroup description location type owner channels
  | .channel, d => do
    let description ← d.read? Datum.text? "description"
    let ⟨owner, _⟩ ← d.field? "station"
    let owner ← Entity.ofDatum? .station owner
    let units ← d.read? (fun x => x.text?.bind Units.ofName?) "units"
    let sampleRate ← d.read? c.number.ofLiteral? "nominal_sample_rate_hz"
    match d.field? "response" with
    | none | some ⟨.null, _⟩ => return .channel description owner units sampleRate none
    | some ⟨x, _⟩ =>
      let response ← Entity.ofDatum? .response x
      return .channel description owner units sampleRate (some response)
  | .response, d => do
    let calibration ← d.read? (Calibration.ofDatum? c) "calibration"
    let table ← d.readOptional? c.uuid.ofText? "fap_id"
    return .response calibration table
termination_by _ d => sizeOf d

end

end

end StationCatalog
