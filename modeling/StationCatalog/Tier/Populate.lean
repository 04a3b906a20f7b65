import StationCatalog.Stack

/-!
Faceting: an entity that is not wanted populated is cut down to its version; one that is gets
populated, by a lookup if need be, and then each collection of children that the definition names is
faceted in turn. A parent whose required children all drop out drops out itself.
-/

namespace StationCatalog

abbrev Finder := (k : Kind) → List (EntityId k) → Instant → Lookup (List (Entity k))

namespace Populate

open Lookup

variable {k : Kind}

/-- The refusal of a definition for entities of another kind. -/
def wrongKind (expected found : Kind) : CatalogError :=
  .validation (.invalidValue "faceting_definition.class_type"
    ("expected " ++ expected.name ++ " but found " ++ found.name))

/-- An entity with data: itself, or what a lookup finds for it. -/
def present (find : Finder) (t : Instant) (e : Entity k) : Lookup (Option (Entity k)) := do
  if e.isPopulated then return some e
  return (← find k [e.id] t).head?

/-- Facets one entity, given how the children of a populated one are faceted. -/
def facet (find : Finder) (t : Instant)
    (children : Faceting → Entity k → Lookup (Option (Entity k))) (f : Faceting) (e : Entity k) :
    Lookup (Option (Entity k)) := do
  if f.kind ≠ k then throw (wrongKind k f.kind)
  if !f.populated then return some e.toVersionReference
  match ← present find t e with
  | none => return none
  | some found => if found.isPopulated then children f found else return some found

/-- Facets children where a definition is given for them, and leaves them as they are where none
is. -/
def facetAll (one : Faceting → Entity k → Lookup (Option (Entity k))) (f : Option Faceting)
    (es : List (Entity k)) : Lookup (List (Entity k)) :=
  match f with
  | none => return es
  | some f => collect (one f) es

def response (find : Finder) (t : Instant) :
    Faceting → Entity .response → Lookup (Option (Entity .response)) :=
  facet find t fun _ e => return some e

/-- Facets a channel; it drops out with the response it has. -/
def channel (find : Finder) (t : Instant) :
    Faceting → Entity .channel → Lookup (Option (Entity .channel)) :=
  facet find t fun f e => do
    match e.response?, f.facet? Faceting.responseKey with
    | some r, some g => return (← response find t g r).map e.withResponse
    | _, _ => return some e

/-- Facets a channel group, which must keep a channel. -/
def channelGroup (find : Finder) (t : Instant) :
    Faceting → Entity .channelGroup → Lookup (Option (Entity .channelGroup)) :=
  facet find t fun f e => do
    let channels ← facetAll (channel find t) (f.facet? Faceting.channelsKey) e.channels
    if channels.isEmpty then return none
    return some (e.withChannels channels)

/-- The names of the raw channels a station may keep: all of them, or, where its channel groups are
wanted populated, those that some group holds. -/
def expectedNames (groupsPopulated : Bool) (groups : List (Entity .channelGroup))
    (channels : List (Entity .channel)) : List (EntityId .channel) :=
  let names := channels.map (·.id)
  if groupsPopulated then
    names.filter fun n => groups.any fun g => g.channels.any (·.id = n)
  else names

/-- A populated group keeps the channels with these names, and must keep one; a reference stays. -/
def restrict (names : List (EntityId .channel)) (group : Entity .channelGroup) :
    Option (Entity .channelGroup) :=
  if group.isPopulated then
    let kept := group.channels.filter fun c => names.any (· = c.id)
    if kept.isEmpty then none else some (group.withChannels kept)
  else some group

/-- Facets a station; its channel groups and raw channels are cut down to names they share, and it
must keep some of both. -/
def station (find : Finder) (t : Instant) :
    Faceting → Entity .station → Lookup (Option (Entity .station)) :=
  facet find t fun f e => do
    let groupFacet := f.facet? Faceting.groupsKey
    let groups ← facetAll (channelGroup find t) groupFacet e.groups
    let channels ← facetAll (channel find t) (f.facet? Faceting.channelsKey) e.rawChannels
    let names := expectedNames (groupFacet.any (·.populated)) groups channels
    let groups := groups.filterMap (restrict names)
    let channels := channels.filter fun c => names.any (· = c.id)
    if channels.isEmpty || groups.isEmpty then return none
    return some (e.withChildren groups channels)

/-- Facets a station group, which must keep a station. -/
def stationGroup (find : Finder) (t : Instant) :
    Faceting → Entity .stationGroup → Lookup (Option (Entity .stationGroup)) :=
  facet find t fun f e => do
    let stations ← facetAll (station find t) (f.facet? Faceting.stationsKey) e.stations
    if stations.isEmpty then return none
    return some (e.withStations stations)

def entity (find : Finder) (t : Instant) :
    (k : Kind) → Faceting → Entity k → Lookup (Option (Entity k))
  | .stationGroup => stationGroup find t
  | .station => station find t
  | .channelGroup => channelGroup find t
  | .channel => channel find t
  | .response => response find t

end Populate

end StationCatalog
