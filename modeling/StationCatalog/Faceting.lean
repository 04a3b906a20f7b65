import StationCatalog.Kind

/-!
Faceting definitions: for a kind, whether its entities are wanted populated, and how each named
collection of children is wanted. Children are kept in the order of their keys, so the order in
which they were added leaves no trace.
-/

namespace StationCatalog

mutual

/-- How entities of a kind are wanted. -/
inductive Faceting
  | mk (kind : Kind) (populated : Bool) (facets : Facets)
deriving DecidableEq

/-- How the children under each key are wanted, ascending by key. -/
inductive Facets
  | nil
  | cons (key : String) (definition : Faceting) (rest : Facets)
deriving DecidableEq

end

namespace Facets

def find? (key : String) : Facets → Option Faceting
  | nil => none
  | cons key' definition rest => if key' = key then some definition else rest.find? key

/-- Adds a definition under a key, in the place of one already there. -/
def insert (key : String) (definition : Faceting) : Facets → Facets
  | nil => cons key definition nil
  | cons key' definition' rest =>
    if key = key' then cons key definition rest
    else if key < key' then cons key definition (cons key' definition' rest)
    else cons key' definition' (rest.insert key definition)

/-- An insertion is seen under its own key and no other. -/
theorem find?_insert (fs : Facets) (key key' : String) (definition : Faceting) :
    (fs.insert key definition).find? key' =
      if key = key' then some definition else fs.find? key' := by
  match fs with
  | nil => rfl
  | cons other d rest =>
    have ih := find?_insert rest key key' definition
    simp only [insert]
    split
    next h => subst h; simp only [find?]; split <;> rfl
    next h =>
      split
      · rfl
      · simp only [find?, ih]
        by_cases ho : other = key'
        · simp only [ho, if_true, if_neg (ho ▸ h)]
        · simp only [if_neg ho]

def toList : Facets → List (String × Faceting)
  | nil => []
  | cons key definition rest => (key, definition) :: rest.toList

end Facets

namespace Faceting

def stationsKey : String := "stations"

def groupsKey : String := "channelGroups"

def channelsKey : String := "channels"

def responseKey : String := "response"

def kind : Faceting → Kind
  | mk kind _ _ => kind

/-- Whether entities are wanted populated, or else as references to versions. -/
def populated : Faceting → Bool
  | mk _ populated _ => populated

def facets : Faceting → Facets
  | mk _ _ facets => facets

def facet? (f : Faceting) (key : String) : Option Faceting := f.facets.find? key

def withFacet (f : Faceting) (key : String) (definition : Faceting) : Faceting :=
  mk f.kind f.populated (f.facets.insert key definition)

theorem facet?_withFacet (f : Faceting) (key key' : String) (definition : Faceting) :
    (f.withFacet key definition).facet? key' =
      if key = key' then some definition else f.facet? key' :=
  f.facets.find?_insert key key' definition

def leaf (kind : Kind) (populated : Bool) : Faceting := mk kind populated .nil

end Faceting

end StationCatalog
