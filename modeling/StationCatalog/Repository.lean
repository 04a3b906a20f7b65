import StationCatalog.Entity.Basic
import StationCatalog.Error
import StationCatalog.Request

/-!
The repository: every stored version of every entity, the calls it has received, and whether it is
failing. For each entity it keeps one version per start, the one stored last.
-/

namespace StationCatalog

/-- A lookup the repository has received, its identifiers as they were given. -/
structure Call where
  kind : Kind
  ids : List String
  time : RequestTime
deriving DecidableEq

/-- Stored versions of each kind, ascending by version; calls, oldest first; the failure, if any. -/
structure Repository where
  versions : (k : Kind) → List (Entity k)
  calls : List Call
  failure : Option StorageError

namespace Repository

variable {k : Kind}

def empty : Repository := ⟨fun _ => [], [], none⟩

/-- The stored versions of one entity, ascending by start. -/
def history (r : Repository) (id : EntityId k) : List (Entity k) :=
  (r.versions k).filter (·.id = id)

/-- Puts one version among others; an entity without a start is no version. -/
def storeVersion (versions : List (Entity k)) (e : Entity k) : List (Entity k) :=
  if e.start?.isSome then Sorted.insert Entity.compareVersions e versions else versions

def store (r : Repository) (es : List (Entity k)) : Repository :=
  let stored := es.foldl storeVersion (r.versions k)
  { r with versions := fun j => if h : k = j then h ▸ stored else r.versions j }

/-- A store changes the versions of its own kind alone. -/
theorem versions_store (r : Repository) (es : List (Entity k)) :
    (r.store es).versions k = es.foldl storeVersion (r.versions k) := by
  simp only [store, dif_pos]

theorem versions_store_of_ne (r : Repository) (es : List (Entity k)) {j : Kind} (h : k ≠ j) :
    (r.store es).versions j = r.versions j := by
  simp only [store, dif_neg h]

/-- For each identifier in turn, its first stored version that holds at an instant. -/
def versionsAt (r : Repository) (ids : List (EntityId k)) (t : Instant) : List (Entity k) :=
  ids.filterMap fun id => (r.history id).find? (·.holdsAt t)

/-- For each identifier in turn, its stored versions that hold at some time of a range. -/
def versionsWithin (r : Repository) (ids : List (EntityId k)) (start stop : Instant) :
    List (Entity k) :=
  ids.flatMap fun id => (r.history id).filter (·.holdsWithin start stop)

def record (r : Repository) (ids : List (EntityId k)) (time : RequestTime) : Repository :=
  { r with calls := r.calls ++ [⟨k, ids.map (·.text), time⟩] }

def callsFor (r : Repository) (kind : Kind) : List Call := r.calls.filter (·.kind = kind)

def versionCount (r : Repository) (kind : Kind) : Nat := (r.versions kind).length

end Repository

end StationCatalog
