import StationCatalog.Cache
import StationCatalog.Repository

/-!
The stack: a repository, the two caches in front of it, and the operational window that says which
versions are worth caching. A lookup may change the stack, also when it fails.
-/

namespace StationCatalog

/-- A repository with its caches. -/
structure Stack where
  repository : Repository
  versionCache : VersionCache
  requestCache : RequestCache
  window : TimeRange

/-- The stack over a repository, nothing cached yet. -/
def Stack.over (repository : Repository) (window : TimeRange) : Stack :=
  ⟨repository, .empty, .empty, window⟩

def Stack.fresh (window : TimeRange) : Stack := .over .empty window

abbrev Lookup (α : Type) := ExceptT CatalogError (StateM Stack) α

namespace Lookup

variable {α β : Type}

/-- The result of a lookup, and the stack it leaves. -/
def perform (x : Lookup α) (s : Stack) : Except CatalogError α × Stack := (ExceptT.run x).run s

@[simp] theorem perform_pure (a : α) (s : Stack) :
    (pure a : Lookup α).perform s = (.ok a, s) := rfl

@[simp] theorem perform_throw (e : CatalogError) (s : Stack) :
    (throw e : Lookup α).perform s = (.error e, s) := rfl

@[simp] theorem perform_get (s : Stack) : (get : Lookup Stack).perform s = (.ok s, s) := rfl

@[simp] theorem perform_modify (f : Stack → Stack) (s : Stack) :
    (modify f : Lookup Unit).perform s = (.ok (), f s) := rfl

/-- A lookup goes on with the stack that the one before it left, unless that one failed. -/
theorem perform_bind (x : Lookup α) (f : α → Lookup β) (s : Stack) :
    (x >>= f).perform s =
      match x.perform s with
      | (.ok a, s') => (f a).perform s'
      | (.error e, s') => (.error e, s') := by
  simp only [perform, ExceptT.run_bind, StateT.run_bind]
  rcases h : StateT.run (ExceptT.run x) s with ⟨_ | a, s'⟩ <;> rfl

/-- All the results of a lookup of each element in turn. -/
def gather (f : α → Lookup (List β)) : List α → Lookup (List β)
  | [] => pure []
  | a :: as => do
    let found ← f a
    let rest ← gather f as
    return found ++ rest

def collect (f : α → Lookup (Option β)) (as : List α) : Lookup (List β) :=
  gather (fun a => Option.toList <$> f a) as

/-- What identifiers of a kind are called when one is refused; a UUID never is. -/
def namesField? : Kind → Option String
  | .stationGroup => some "station_group_names"
  | .station => some "station_names"
  | .channelGroup => some "channel_group_names"
  | .channel => some "channel_names"
  | .response => none

def requireNames (field : String) (names : List String) : Lookup Unit :=
  if names.any isBlank then throw (.validation (.requiredFieldMissing field)) else pure ()

def requireIds {k : Kind} (ids : List (EntityId k)) : Lookup Unit :=
  match namesField? k with
  | some field => requireNames field (ids.map (·.text))
  | none => pure ()

def requireOrder (start stop : Instant) : Lookup Unit :=
  if stop < start then throw (.validation (.invalidTimeRange start stop)) else pure ()

end Lookup

end StationCatalog
