import StationCatalog.Entity.Id
import StationCatalog.Faceting
import StationCatalog.Time.Text

/-!
Requests: which entities of a kind are asked for, at what time and under what faceting. Identifiers
are kept sorted and distinct, so requests for the same entities are equal.
-/

namespace StationCatalog

/-- The time asked about: an instant, or everything from one instant to another. -/
inductive RequestTime
  | at (t : Instant)
  | within (start stop : Instant)
deriving DecidableEq

structure Request where
  kind : Kind
  ids : List String
  time : RequestTime
  faceting : Option Faceting
deriving DecidableEq

namespace Request

/-- The request for entities at a time, whatever the order and repetition of their identifiers. -/
def ofIds {k : Kind} (ids : List (EntityId k)) (time : RequestTime)
    (faceting : Option Faceting) : Request where
  kind := k
  ids := (EntityId.distinct ids).map (·.text)
  time := time
  faceting := faceting

/-- The text of a request; of the faceting it tells only that there is one. -/
def text (r : Request) : String :=
  let time := match r.time with
    | .at t => t.text .offset
    | .within start stop => "[" ++ start.text .offset ++ ".." ++ stop.text .offset ++ "]"
  r.kind.name ++ "[" ++ ",".intercalate r.ids ++ "]@" ++ time
    ++ if r.faceting.isSome then "+faceted" else ""

end Request

end StationCatalog
