import StationCatalog.Stack

/-!
The repository as a tier of its own: each lookup is noted, then refused if the repository is
failing, then answered from the stored versions.
-/

namespace StationCatalog.Source

variable {k : Kind}

def requireWorking : Lookup Unit := do
  match (← get).repository.failure with
  | some e => throw (.storage e)
  | none => return ()

/-- Notes a lookup and lets it through unless the repository is failing. -/
def receive (ids : List (EntityId k)) (time : RequestTime) : Lookup Unit := do
  modify fun s => { s with repository := s.repository.record ids time }
  requireWorking

def findAt (k : Kind) (ids : List (EntityId k)) (t : Instant) : Lookup (List (Entity k)) := do
  receive ids (.at t)
  return (← get).repository.versionsAt ids t

def findWithin (k : Kind) (ids : List (EntityId k)) (start stop : Instant) :
    Lookup (List (Entity k)) := do
  receive ids (.within start stop)
  return (← get).repository.versionsWithin ids start stop

/-- Stores entities, unless the repository is failing. -/
def store (k : Kind) (es : List (Entity k)) : Lookup Unit := do
  requireWorking
  modify fun s => { s with repository := s.repository.store es }

end StationCatalog.Source
