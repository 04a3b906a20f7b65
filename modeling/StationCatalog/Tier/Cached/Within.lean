import StationCatalog.Range.RangeSet
import StationCatalog.Tier.Cached.Point

/-!
Lookups over a time range through the version cache. What is cached answers for the ranges it holds;
each gap that is left is fetched by a call of its own, latest first. Of such lookups two things are
made: the times at which a station changes, and the filling of the cache anew, for which the window
is set, what was cached is forgotten, and everything that station groups reach over the window is
looked up, parents before children.
-/

namespace StationCatalog.Cached

open Lookup

variable {k : Kind}

/-- The cached versions of an entity, latest first. -/
def recallWithin (k : Kind) (id : EntityId k) : Lookup (List (TimeRange × Entity k)) := do
  match (← get).versionCache.rangeMap? k (.ofId id) with
  | some cached => return cached.entries.reverse
  | none => return []

/-- The parts of a range that no cached range covers, latest first. -/
def gaps (requested : TimeRange) (cached : List TimeRange) : List TimeRange :=
  (cached.foldl RangeSet.remove (.of requested)).descending

/-- Fetches a gap between two instants, both included; a gap without end cannot be asked for. -/
def fetchGap (window : TimeRange) (k : Kind) (id : EntityId k) (gap : TimeRange) :
    Lookup (List (Entity k)) :=
  match gap.lower.endpoint?, gap.upper.endpoint? with
  | some start, some stop => fetchWithin window k [id] start stop
  | _, _ => return []

/-- The versions of one entity over a time range: the cached ones, then those of each gap. -/
def versionsWithin (resolve : Entity k → Lookup (Option (Entity k))) (window : TimeRange)
    (start stop : Instant) (id : EntityId k) : Lookup (List (Entity k)) := do
  let requested := TimeRange.closed start stop
  let cached ← recallWithin k id
  let resolved ← collect (fun e => resolve e.2) (cached.filter (·.1.overlaps requested))
  let fetched ← gather (fetchGap window k id) (gaps requested (cached.map (·.1)))
  return resolved ++ fetched

/-- The lookup over a time range of entities of one kind, given how cached ones are resolved. -/
def rangeLookup (resolve : Entity k → Lookup (Option (Entity k))) (ids : List (EntityId k))
    (start stop : Instant) : Lookup (List (Entity k)) := do
  requireIds ids
  requireOrder start stop
  let window := (← get).window
  let found ← gather (versionsWithin resolve window start stop) (EntityId.distinct ids)
  return Entity.distinctVersions found

/-- A group keeps, as mere references, the channels whose names are among `names`; it is dropped if
it keeps none or carries no data. -/
def restrictGroup (names : List (EntityId .channel)) (group : Entity .channelGroup) :
    Option (Entity .channelGroup) :=
  let kept := group.channels.filter fun c => names.any (· = c.id)
  if kept.isEmpty then none else some (group.withChannels (kept.map (·.toReference)))

/-- A cached station takes its channel groups as of its own start, restricted to its raw channels,
and must have some of both. -/
def resolveCachedStation (e : Entity .station) : Lookup (Option (Entity .station)) := do
  match e with
  | .populated _ validity _ =>
    let found ← groupsAt (e.groups.map (·.id)) validity.start
    let groups := found.filterMap (restrictGroup (e.rawChannels.map (·.id)))
    let channels := e.rawChannels.map (·.toReference)
    if channels.isEmpty || groups.isEmpty then return none
    return some (e.withChildren groups channels)
  | e => return some e

def stationsWithin (ids : List (EntityId .station)) (start stop : Instant) :
    Lookup (List (Entity .station)) :=
  rangeLookup resolveCachedStation ids start stop

/-- Entities of a kind over a time range; only stations are resolved. -/
def findWithin : (k : Kind) → List (EntityId k) → Instant → Instant → Lookup (List (Entity k))
  | .station => stationsWithin
  | .stationGroup | .channelGroup | .channel | .response =>
    rangeLookup fun e => return some e

/-- Starts not after `stop`, latest first, each once. -/
def changeTimes (stop : Instant) (starts : List (Option Instant)) : List Instant :=
  Sorted.ofList (fun a b => compare b a) ((starts.filterMap fun t => t).filter (· ≤ stop))

/-- The starts of the versions of a station, of its channel groups and raw channels, and of the
responses of those channels. -/
def findChangeTimes (station : EntityId .station) (start stop : Instant) :
    Lookup (List Instant) := do
  requireNames "station.name" [station.text]
  requireOrder start stop
  let stations ← findWithin .station [station] start stop
  let groupIds := stations.flatMap fun s => s.groups.map (·.id)
  let channelIds := stations.flatMap fun s => s.rawChannels.map (·.id)
  let groups ← findWithin .channelGroup groupIds start stop
  let channels ← findWithin .channel channelIds start stop
  let responseIds := channels.filterMap fun c => c.response?.map (·.id)
  let responses ← findWithin .response responseIds start stop
  return changeTimes stop (stations.map (·.start?) ++ groups.map (·.start?)
    ++ channels.map (·.start?) ++ responses.map (·.start?))

def restart (window : TimeRange) : Lookup Unit :=
  modify fun s => { s with window := window, versionCache := s.versionCache.clear }

/-- Caches what station groups reach from one instant to a later one. -/
def warm (ids : List (EntityId .stationGroup)) (start stop : Instant) : Lookup Unit := do
  requireIds ids
  if stop ≤ start then throw (.validation (.invalidTimeRange start stop))
  restart (.closed start stop)
  let stationGroups ← findWithin .stationGroup ids start stop
  let stationIds := stationGroups.flatMap fun g => g.stations.map (·.id)
  let stations ← findWithin .station stationIds start stop
  let groupIds := stations.flatMap fun s => s.groups.map (·.id)
  let groups ← findWithin .channelGroup groupIds start stop
  let channelIds := groups.flatMap fun g => g.channels.map (·.id)
  let channels ← findWithin .channel channelIds start stop
  let responseIds := channels.filterMap fun c => c.response?.map (·.id)
  let _ ← findWithin .response responseIds start stop

end StationCatalog.Cached
