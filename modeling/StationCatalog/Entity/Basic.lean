import StationCatalog.Binary64
import StationCatalog.Entity.Id
import StationCatalog.Range.Basic

/-!
Versioned station definitions. An entity is a mere reference, a reference to one of its versions, or
a populated version with its validity and its data. Parents hold their children as entities, in any
of these states. A version is told by its entity and its start, and versions are listed by both.
-/

namespace StationCatalog

inductive StationType
  | seismic3Component
  | seismic1Component
  | seismicArray
  | hydroacoustic
  | hydroacousticArray
  | infrasound
  | infrasoundArray
  | weather
  | unknown
deriving DecidableEq

/-- What binds the channels of a group. -/
inductive GroupType
  | site
  | processing
  | physicalSite
deriving DecidableEq

inductive Units
  | nanometersPerSecond
  | nanometers
  | nanometersPerSecondSquared
  | pascals
  | micropascals
  | counts
  | unitless
deriving DecidableEq

structure Location where
  latitudeDegrees : Binary64
  longitudeDegrees : Binary64
  depthKm : Binary64
  elevationKm : Binary64
deriving DecidableEq

structure Calibration where
  periodSeconds : Binary64
  factor : Binary64
  timeShiftSeconds : Binary64
deriving DecidableEq

/-- When a version holds: from its start until the instant before its stop, or for ever. -/
structure Validity where
  start : Instant
  stop : Option Instant
deriving DecidableEq

def Validity.range (v : Validity) : TimeRange := .effective v.start v.stop

mutual

/-- An entity of a kind, in one of three states of presence. -/
inductive Entity : Kind → Type
  | reference {k : Kind} (id : EntityId k) : Entity k
  | versionReference {k : Kind} (id : EntityId k) (start : Instant) : Entity k
  | populated {k : Kind} (id : EntityId k) (validity : Validity) (data : EntityData k) : Entity k

inductive EntityData : Kind → Type
  | stationGroup (description : String) (stations : List (Entity .station)) :
    EntityData .stationGroup
  | station (type : StationType) (description : String) (location : Location)
    (groups : List (Entity .channelGroup)) (channels : List (Entity .channel)) :
    EntityData .station
  | channelGroup (description : String) (location : Option Location) (type : GroupType)
    (station : Entity .station) (channels : List (Entity .channel)) : EntityData .channelGroup
  | channel (description : String) (station : Entity .station) (units : Units)
    (sampleRate : Binary64) (response : Option (Entity .response)) : EntityData .channel
  | response (calibration : Calibration) (table : Option Uuid) : EntityData .response

end

abbrev AnyEntity := (k : Kind) × Entity k

namespace Entity

variable {k : Kind}

def id : Entity k → EntityId k
  | reference id | versionReference id _ | populated id _ _ => id

/-- The instant a version starts to hold; a mere reference names no version. -/
def start? : Entity k → Option Instant
  | reference _ => none
  | versionReference _ start => some start
  | populated _ validity _ => some validity.start

/-- The instant a version ceases to hold, known of populated versions alone. -/
def stop? : Entity k → Option Instant
  | populated _ validity _ => validity.stop
  | _ => none

def data? : Entity k → Option (EntityData k)
  | populated _ _ data => some data
  | _ => none

def isPopulated (e : Entity k) : Bool := e.data?.isSome

def toReference (e : Entity k) : Entity k := reference e.id

/-- The version without its data; a mere reference stays one. -/
def toVersionReference (e : Entity k) : Entity k :=
  match e.start? with
  | some start => versionReference e.id start
  | none => reference e.id

def stations : Entity .stationGroup → List (Entity .station)
  | populated _ _ (.stationGroup _ stations) => stations
  | _ => []

def groups : Entity .station → List (Entity .channelGroup)
  | populated _ _ (.station _ _ _ groups _) => groups
  | _ => []

def rawChannels : Entity .station → List (Entity .channel)
  | populated _ _ (.station _ _ _ _ channels) => channels
  | _ => []

def channels : Entity .channelGroup → List (Entity .channel)
  | populated _ _ (.channelGroup _ _ _ _ channels) => channels
  | _ => []

def response? : Entity .channel → Option (Entity .response)
  | populated _ _ (.channel _ _ _ _ response) => response
  | _ => none

/-- A station group with other stations; references have none to replace. -/
def withStations : Entity .stationGroup → List (Entity .station) → Entity .stationGroup
  | populated id validity (.stationGroup description _), stations =>
    populated id validity (.stationGroup description stations)
  | e, _ => e

def withChildren :
    Entity .station → List (Entity .channelGroup) → List (Entity .channel) → Entity .station
  | populated id validity (.station type description location _ _), groups, channels =>
    populated id validity (.station type description location groups channels)
  | e, _, _ => e

def withChannels : Entity .channelGroup → List (Entity .channel) → Entity .channelGroup
  | populated id validity (.channelGroup description location type owner _), channels =>
    populated id validity (.channelGroup description location type owner channels)
  | e, _ => e

def withResponse : Entity .channel → Entity .response → Entity .channel
  | populated id validity (.channel description owner units sampleRate _), response =>
    populated id validity (.channel description owner units sampleRate (some response))
  | e, _ => e

/-- The responses that channels carry; other entities carry none of their own. -/
def carriedResponses : {k : Kind} → List (Entity k) → List (Entity .response)
  | .channel, channels => channels.filterMap response?
  | .stationGroup, _ | .station, _ | .channelGroup, _ | .response, _ => []

/-- An entity seen as one of a kind that it may turn out to have. -/
def ofAny? (k : Kind) (e : AnyEntity) : Option (Entity k) :=
  if h : e.1 = k then some (h ▸ e.2) else none

end Entity

namespace EntityData

/-- The data with every child, and the owning station, cut down to a mere reference. -/
def demote : {k : Kind} → EntityData k → EntityData k
  | _, stationGroup description stations =>
    stationGroup description (stations.map Entity.toReference)
  | _, station type description location groups channels =>
    station type description location (groups.map Entity.toReference)
      (channels.map Entity.toReference)
  | _, channelGroup description location type owner channels =>
    channelGroup description location type owner.toReference (channels.map Entity.toReference)
  | _, channel description owner units sampleRate instrument =>
    channel description owner.toReference units sampleRate (instrument.map Entity.toReference)
  | _, response calibration table => response calibration table

end EntityData

/-- The form a version is cached in: its own data, its children mere references. -/
def Entity.demote {k : Kind} : Entity k → Entity k
  | .populated id validity data => .populated id validity data.demote
  | e => e

namespace Entity

variable {k : Kind}

/-- What identifies a version: the entity and the instant it starts to hold. -/
def version (e : Entity k) : EntityId k × Option Instant := (e.id, e.start?)

/-- By identifier, then by start; an entity without a start comes first. -/
def compareVersions (a b : Entity k) : Ordering :=
  (a.id.compare b.id).then (Ord.compare a.start? b.start?)

/-- Sorts entities by version and keeps the first of each version. -/
def distinctVersions (es : List (Entity k)) : List (Entity k) := Sorted.ofList compareVersions es

def areAscending : List (Entity k) → Bool
  | [] | [_] => true
  | a :: b :: rest => (a.compareVersions b).isLT && areAscending (b :: rest)

/-- A version holds at an instant from its start until the instant before its stop. -/
def holdsAt (e : Entity k) (t : Instant) : Bool := e.start?.any (· ≤ t) && e.stop?.all (t < ·)

/-- A version holds at some time from `start` to `stop`, both included. -/
def holdsWithin (e : Entity k) (start stop : Instant) : Bool :=
  e.start?.any (· ≤ stop) && e.stop?.all (start < ·)

end Entity

end StationCatalog
