import StationCatalog.Kind
import StationCatalog.Sorted
import StationCatalog.Text.Uuid

/-!
Identifiers. Station groups, stations, channel groups and channels go by name, responses by UUID;
every identifier is its text, and identifiers are in the order of their texts. A name is blank when
it holds nothing but characters with the Unicode property White_Space.
-/

namespace StationCatalog

/-- The code points with the property White_Space, as ranges of first and last. -/
def whiteSpace : List (Nat × Nat) :=
  [(0x9, 0xd), (0x20, 0x20), (0x85, 0x85), (0xa0, 0xa0), (0x1680, 0x1680), (0x2000, 0x200a),
   (0x2028, 0x2029), (0x202f, 0x202f), (0x205f, 0x205f), (0x3000, 0x3000)]

def isBlankChar (c : Char) : Bool := whiteSpace.any fun r => r.1 ≤ c.toNat && c.toNat ≤ r.2

/-- A text with nothing to see in it. -/
def isBlank (s : String) : Bool := s.toList.all isBlankChar

/-- Whether a text names an entity of a kind: any text, save for responses. -/
def Kind.admits : Kind → String → Bool
  | response, s => Uuid.isCanonical s.toList
  | _, _ => true

/-- The identifier of an entity of a kind. -/
structure EntityId (k : Kind) where
  text : String
  admitted : k.admits text = true
deriving DecidableEq

namespace EntityId

variable {k : Kind}

@[ext] theorem ext {i j : EntityId k} (h : i.text = j.text) : i = j := by
  cases i; cases j; cases h; rfl

def ofUuid (u : Uuid) : EntityId .response := ⟨u.text, u.canonical⟩

def uuid (i : EntityId .response) : Uuid := ⟨i.text, i.admitted⟩

/-- Reads an identifier: a name as it stands, a UUID in any of its forms. -/
def ofText? : (k : Kind) → String → Option (EntityId k)
  | .response, s => (Uuid.ofText? s).map ofUuid
  | .stationGroup, s | .station, s | .channelGroup, s | .channel, s => some ⟨s, rfl⟩

def compare (i j : EntityId k) : Ordering := Ord.compare i.text j.text

def distinct (ids : List (EntityId k)) : List (EntityId k) := Sorted.ofList compare ids

end EntityId

end StationCatalog
