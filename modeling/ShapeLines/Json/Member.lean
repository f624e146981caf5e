import ShapeLines.Json.Basic

/-!
# Reading records and their members

A record is read from an object by the names of its members, or from an array that gives their
values in a fixed order. A member may be needed or optional. An optional member that is missing has
a value of its own; one that is there has to be readable.
-/

namespace ShapeLines

namespace Json

/-- An enumerated name. It is written as a text; an object is read as the name of its only member
when the value of that is `null`. -/
def enumName? : Json → Option String
  | .str s => some s
  | .obj [(key, .null)] => some key
  | _ => none

def strings? : Json → Option (List String)
  | .arr elements => elements.mapM string?
  | _ => none

def optionalString? : Json → Option (Option String)
  | .null => some none
  | .str s => some (some s)
  | _ => none

def required? {α : Type} (members : List (String × Json)) (key : String) (read : Json → Option α) :
    Option α :=
  (Entries.get? key members).bind read

/-- The value of a member, or `absent` when it is not there. -/
def optional? {α : Type} (members : List (String × Json)) (key : String) (absent : α)
    (read : Json → Option α) : Option α :=
  match Entries.get? key members with
  | some v => read v
  | none => some absent

/-- Reads a record whose members have the given names in order. An array may end before the last of
them. -/
def record? {α : Type} (names : List String) (read : List (String × Json) → Option α) :
    Json → Option α
  | .obj members => read members
  | .arr values => if values.length ≤ names.length then read (names.zip values) else none
  | _ => none

end Json

end ShapeLines
