import StationCatalog.Kind
import StationCatalog.Time.Text

/-!
What can go wrong: the repository fails, an argument is refused, or the configuration is refused.
Errors are causes; `CatalogError.message` is their wording.
-/

namespace StationCatalog

/-- A failure of the repository; every tier hands it on unchanged. -/
inductive StorageError
  | notFound (kind : Kind) (id : String)
  | storeFailed (kind : Kind) (reason : String)
  | unavailable (reason : String)
  | lockPoisoned
deriving DecidableEq

/-- An argument refused before anything is read. -/
inductive ValidationError
  | requiredFieldMissing (field : String)
  | invalidValue (field reason : String)
  | invalidTimeRange (start stop : Instant)
deriving DecidableEq

inductive ConfigError
  | missingRequired (field : String)
  | invalidValue (field value reason : String)
deriving DecidableEq

inductive CatalogError
  | storage (e : StorageError)
  | validation (e : ValidationError)
  | config (e : ConfigError)
deriving DecidableEq

def StorageError.message : StorageError → String
  | notFound kind id => "Entity not found: " ++ kind.name ++ " with id " ++ id
  | storeFailed kind reason => "Store failed for " ++ kind.name ++ ": " ++ reason
  | unavailable reason => "Repository unavailable: " ++ reason
  | lockPoisoned => "Storage lock poisoned"

def ValidationError.message : ValidationError → String
  | requiredFieldMissing field => "Required field missing: " ++ field
  | invalidValue field reason => "Invalid value for " ++ field ++ ": " ++ reason
  | invalidTimeRange start stop =>
    "Invalid time range: end " ++ stop.text .spaced ++ " is before start " ++ start.text .spaced

def ConfigError.message : ConfigError → String
  | missingRequired field => "Missing required configuration field: " ++ field
  | invalidValue field value reason =>
    "Invalid value for " ++ field ++ ": " ++ value ++ " - " ++ reason

namespace CatalogError

def message : CatalogError → String
  | storage e => "Storage error: " ++ e.message
  | validation e => "Validation error: " ++ e.message
  | config e => "Config error: " ++ e.message

/-- The caller gave a missing or wrong value. -/
def isInvalidArgument : CatalogError → Bool
  | validation (.requiredFieldMissing _) | validation (.invalidValue ..) => true
  | _ => false

/-- The caller gave an inverted or empty time range. -/
def isInvalidState : CatalogError → Bool
  | validation (.invalidTimeRange ..) => true
  | _ => false

end CatalogError

end StationCatalog
