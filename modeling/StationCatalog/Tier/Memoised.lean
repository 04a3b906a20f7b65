import StationCatalog.Tier.Cached.Within

/-!
Lookups through the request cache: a request answered before is answered from memory, any other is
passed on and its answer remembered. Stores and window changes do not make it forget.
-/

namespace StationCatalog.Memoised

open Lookup

variable {k : Kind}

def retrieve (slot : Slot) (request : Request) : Lookup (Option (List slot.Result)) :=
  modifyGet fun s =>
    let (found, cache) := s.requestCache.retrieve slot request
    (found, { s with requestCache := cache })

/-- Passes a request on and remembers its results. -/
def learn (slot : Slot) (request : Request) (ask : Lookup (List slot.Result)) :
    Lookup (List slot.Result) := do
  let results ← ask
  modify fun s => { s with requestCache := s.requestCache.put slot request results }
  return results

/-- Answers a request from memory, or else passes it on. -/
def answer (slot : Slot) (request : Request) (ask : Lookup (List slot.Result)) :
    Lookup (List slot.Result) := do
  match ← retrieve slot request with
  | some results => return results
  | none => learn slot request ask

def findAt (k : Kind) (ids : List (EntityId k)) (t : Instant) : Lookup (List (Entity k)) := do
  requireIds ids
  answer (.entities k) (.ofIds ids (.at t) none) (Cached.findAt k ids t)

def findWithin (k : Kind) (ids : List (EntityId k)) (start stop : Instant) :
    Lookup (List (Entity k)) := do
  requireIds ids
  requireOrder start stop
  answer (.entities k) (.ofIds ids (.within start stop) none) (Cached.findWithin k ids start stop)

/-- Entities in the order they came, without versions seen before. -/
def dropRepeated (seen : List (EntityId k × Option Instant)) : List (Entity k) → List (Entity k)
  | [] => []
  | e :: es =>
    if seen.any (· = e.version) then dropRepeated seen es
    else e :: dropRepeated (e.version :: seen) es

/-- Entities of a kind at an instant, faceted; remembered ones are faceted again. -/
def findFaceted (k : Kind) (ids : List (EntityId k)) (t : Instant) (f : Faceting) :
    Lookup (List (Entity k)) := do
  requireIds ids
  let request := Request.ofIds ids (.at t) (some f)
  match ← retrieve (.entities k) request with
  | some results => return dropRepeated [] (← collect (Populate.entity findAt t k f) results)
  | none => learn (.entities k) request (Cached.findFaceted k ids t f)

def findChangeTimes (station : EntityId .station) (start stop : Instant) :
    Lookup (List Instant) := do
  requireNames "station.name" [station.text]
  requireOrder start stop
  answer .changeTimes (.ofIds [station] (.within start stop) none)
    (Cached.findChangeTimes station start stop)

end StationCatalog.Memoised
