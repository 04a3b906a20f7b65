/-!
Trees of plain data, as they are exchanged: texts, numbers, lists and records.
-/

namespace StationCatalog

/-- A tree of plain data. A number is the literal that stands for it. -/
inductive Datum
  | null
  | flag (b : Bool)
  | number (literal : String)
  | text (s : String)
  | list (items : List Datum)
  | record (fields : List (String × Datum))
deriving Inhabited

namespace Datum

def text? : Datum → Option String
  | text s => some s
  | _ => none

def number? : Datum → Option String
  | number s => some s
  | _ => none

theorem sizeOf_lt_record {fields : List (String × Datum)} {e : String × Datum} (h : e ∈ fields) :
    sizeOf e.2 < sizeOf (record fields) := by
  have := List.sizeOf_lt_of_mem h
  have : sizeOf e = 1 + sizeOf e.1 + sizeOf e.2 := by cases e; rfl
  simp only [record.sizeOf_spec]
  omega

theorem sizeOf_lt_list {items : List Datum} {x : Datum} (h : x ∈ items) :
    sizeOf x < sizeOf (list items) := by
  have := List.sizeOf_lt_of_mem h
  simp only [list.sizeOf_spec]
  omega

def field? (name : String) : (d : Datum) → Option { x : Datum // sizeOf x < sizeOf d }
  | record fields =>
    match h : fields.find? (·.1 = name) with
    | some e => some ⟨e.2, sizeOf_lt_record (List.mem_of_find?_eq_some h)⟩
    | none => none
  | _ => none

/-- The items of a list that a field holds. -/
def items? (name : String) (d : Datum) : Option (List { x : Datum // sizeOf x < sizeOf d }) := do
  match ← d.field? name with
  | ⟨list items, h⟩ =>
    return items.attach.map fun x => ⟨x.1, Nat.lt_trans (sizeOf_lt_list x.2) h⟩
  | _ => none

def read? {α : Type} (f : Datum → Option α) (name : String) (d : Datum) : Option α :=
  (d.field? name).bind fun x => f x.1

/-- What a field reads as, if it is there and not null. -/
def readOptional? {α : Type} (f : Datum → Option α) (name : String) (d : Datum) :
    Option (Option α) :=
  match d.field? name with
  | none | some ⟨null, _⟩ => some none
  | some x => (f x.1).map some

/-- A named variant with its content: a name alone has the content null, and a record has the name
as its one field. -/
def variant? : (d : Datum) → Option (String × { x : Datum // sizeOf x ≤ sizeOf d })
  | text s => some (s, ⟨null, by simp⟩)
  | record [(s, x)] =>
    some (s, ⟨x, Nat.le_of_lt (sizeOf_lt_record (List.mem_singleton_self (s, x)))⟩)
  | _ => none

end Datum

end StationCatalog
