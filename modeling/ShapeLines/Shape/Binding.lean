import ShapeLines.Fullname.Positional
import ShapeLines.Shape.Basic

/-!
# Implied bindings

A binding that a field leaves out is implied by the field's fullname: it is the positional path of
the fullname under the id of the shape.
-/

namespace ShapeLines

/-- The place `fullname` under `id` as a positional path. -/
def impliedBinding (id fullname : String) : String :=
  let path := Fullname.toPositional fullname
  if id = "" then path
  else if path = "" then id
  else id ++ "." ++ path

namespace Field

def fillBindings (id : String) (field : Field) : Field :=
  let implied := impliedBinding id field.fullname
  { field with
    src := if field.src = "" then implied else field.src
    dst := if field.dst = "" then implied else field.dst }

/-- The bindings of a field that is read from another document: its destination is the place itself,
its source the implied one. -/
def bindInPlace (id : String) (field : Field) : Field :=
  { field with dst := field.fullname }.fillBindings id

end Field

end ShapeLines
