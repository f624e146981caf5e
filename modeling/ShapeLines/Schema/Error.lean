import ShapeLines.Shape.Basic

/-!
# Faults of JSON Schema documents

A fault names the place at which it was found. The root has an empty fullname; where a document is
read it is called `#`.
-/

namespace ShapeLines

inductive SchemaError where
  /-- The text is no JSON. -/
  | invalidJson
  | notAnObject (place : String)
  /-- One place is declared as things of two kinds. -/
  | kindConflict (place : String) (existing requested : Kind)
  | invalidRequired (place : String)
  | unknownType (place got : String)
  deriving DecidableEq

namespace SchemaError

def message : SchemaError → String
  | .invalidJson => "invalid JSON:"
  | .notAnObject place => "schema at '" ++ place ++ "' must be a JSON object"
  | .kindConflict place existing requested =>
    "'" ++ place ++ "' is declared as " ++ existing.name ++ " and cannot also be used as " ++
      requested.name
  | .invalidRequired place => "'required' at '" ++ place ++ "' must be an array of strings"
  | .unknownType place got => "unknown type '" ++ got ++ "' at '" ++ place ++ "'"

/-- The name of a place in a document that is read. -/
def location (fullname : String) : String :=
  if fullname = "" then "#" else fullname

end SchemaError

end ShapeLines
