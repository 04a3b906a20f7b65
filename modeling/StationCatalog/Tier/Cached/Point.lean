import StationCatalog.Tier.Populate
import StationCatalog.Tier.Source

/-!
Lookups at an instant through the version cache. In the window each identifier is answered from the
cache if it can be; the rest are fetched by one call, and what is fetched is cached on the way,
together with the responses that fetched channels carry. Cached and fetched entities alike get their
children as of the instant, which may show that an entity has none left and is to be dropped.
-/

namespace StationCatalog.Cached

open Lookup

variable {k : Kind}

/-- Caches fetched entities and the responses they carry. -/
def keep (window : TimeRange) (es : List (Entity k)) : Lookup Unit :=
  modify fun s => { s with
    versionCache := (s.versionCache.keep window es).keep window (Entity.carriedResponses es) }

/-- Fetches versions at an instant; they are cached if the instant is in the window. -/
def fetchAt (window : TimeRange) (k : Kind) (ids : List (EntityId k)) (t : Instant) :
    Lookup (List (Entity k)) := do
  let fetched ← Source.findAt k ids t
  if window.contains t then keep window fetched
  return fetched

/-- Fetches versions over a time range and caches them. -/
def fetchWithin (window : TimeRange) (k : Kind) (ids : List (EntityId k)) (start stop : Instant) :
    Lookup (List (Entity k)) := do
  let fetched ← Source.findWithin k ids start stop
  keep window fetched
  return fetched

/-- The cached version of an entity at an instant; asking for an entity without cached versions goes
uncounted. -/
def recallAt (k : Kind) (id : EntityId k) (t : Instant) : Lookup (Option (Entity k)) := do
  let s ← get
  if s.versionCache.hasKey (.ofId id) then
    let (found, cache) := s.versionCache.read k (.ofId id) t
    set { s with versionCache := cache }
    return found
  else return none

/-- The cached version of an entity at an instant, with its children resolved. -/
def answerAt (resolve : Entity k → Lookup (Option (Entity k))) (t : Instant) (id : EntityId k) :
    Lookup (Option (Entity k)) := do
  match ← recallAt k id t with
  | some e => resolve e
  | none => return none

/-- The lookup at an instant of entities of one kind, given how their children are resolved. -/
def pointLookup (resolve : Entity k → Lookup (Option (Entity k))) (ids : List (EntityId k))
    (t : Instant) : Lookup (List (Entity k)) := do
  requireIds ids
  let window := (← get).window
  let wanted := EntityId.distinct ids
  let answered ← if window.contains t then collect (answerAt resolve t) wanted else pure []
  let missing := wanted.filter fun id => !answered.any (·.id = id)
  let fetched ← if missing.isEmpty then pure []
    else fetchAt window k missing t >>= collect resolve
  return Entity.distinctVersions (answered ++ fetched)

def responsesAt (ids : List (EntityId .response)) (t : Instant) :
    Lookup (List (Entity .response)) :=
  pointLookup (fun e => return some e) ids t

/-- A channel carries its response as of the instant, or the one it came with if there is none. -/
def resolveChannel (t : Instant) (e : Entity .channel) : Lookup (Option (Entity .channel)) := do
  match e.response? with
  | none => return some e
  | some response =>
    match (← responsesAt [response.id] t).head? with
    | some found => return some (e.withResponse found)
    | none => return some e

def channelsAt (ids : List (EntityId .channel)) (t : Instant) : Lookup (List (Entity .channel)) :=
  pointLookup (resolveChannel t) ids t

/-- A channel group refers to the versions of its channels at the instant, of which there must be
some. -/
def resolveGroup (t : Instant) (e : Entity .channelGroup) :
    Lookup (Option (Entity .channelGroup)) := do
  if e.isPopulated then
    let channels ← channelsAt (e.channels.map (·.id)) t
    if channels.isEmpty then return none
    return some (e.withChannels (channels.map (·.toVersionReference)))
  else return some e

def groupsAt (ids : List (EntityId .channelGroup)) (t : Instant) :
    Lookup (List (Entity .channelGroup)) :=
  pointLookup (resolveGroup t) ids t

/-- A channel group refers to no version but those among `channels`. -/
def refersWithin (channels : List (Entity .channel)) (group : Entity .channelGroup) : Bool :=
  group.channels.all fun c => channels.any (·.version = c.version)

/-- A station refers to the versions of its raw channels at the instant and holds the channel groups
that refer to no others; it must have some of both. -/
def resolveStation (t : Instant) (e : Entity .station) : Lookup (Option (Entity .station)) := do
  if e.isPopulated then
    let channels := (← channelsAt (e.rawChannels.map (·.id)) t).map (·.toVersionReference)
    let groups := (← groupsAt (e.groups.map (·.id)) t).filter (refersWithin channels)
    if channels.isEmpty || groups.isEmpty then return none
    return some (e.withChildren groups channels)
  else return some e

def stationsAt (ids : List (EntityId .station)) (t : Instant) : Lookup (List (Entity .station)) :=
  pointLookup (resolveStation t) ids t

/-- A station group refers to the versions of its stations at the instant, of which there must be
some. -/
def resolveStationGroup (t : Instant) (e : Entity .stationGroup) :
    Lookup (Option (Entity .stationGroup)) := do
  if e.isPopulated then
    let stations ← stationsAt (e.stations.map (·.id)) t
    if stations.isEmpty then return none
    return some (e.withStations (stations.map (·.toVersionReference)))
  else return some e

def stationGroupsAt (ids : List (EntityId .stationGroup)) (t : Instant) :
    Lookup (List (Entity .stationGroup)) :=
  pointLookup (resolveStationGroup t) ids t

def findAt : (k : Kind) → List (EntityId k) → Instant → Lookup (List (Entity k))
  | .stationGroup => stationGroupsAt
  | .station => stationsAt
  | .channelGroup => groupsAt
  | .channel => channelsAt
  | .response => responsesAt

/-- A lookup at an instant, each entity it finds faceted. -/
def findFaceted (k : Kind) (ids : List (EntityId k)) (t : Instant) (f : Faceting) :
    Lookup (List (Entity k)) := do
  let found ← findAt k ids t
  return Entity.distinctVersions (← collect (Populate.entity findAt t k f) found)

end StationCatalog.Cached
