import ShapeLines.Shape.Basic

/-!
# Coercions

A coercion chooses the modifier that is appended to the source of a field, if any. The choice may
depend on the direction of the shape and on the field.
-/

namespace ShapeLines

abbrev Coercion := Direction → Field → Option String

namespace Coercion

def toNumber : String := "@tonum"

def toBoolean : String := "@tobool"

def toText : String := "@tostring"

def none : Coercion := fun _ _ => .none

/-- The modifier for values of the given format. -/
def ofFormat? (format : String) : Option String :=
  match format with
  | "int" | "integer" | "float" | "number" => some toNumber
  | "bool" | "boolean" => some toBoolean
  | _ => .none

/-- Inbound values are read by their format; outbound values of type string become texts. -/
def byFormat : Coercion := fun direction field =>
  match direction with
  | .inbound => field.format.bind ofFormat?
  | .outbound => if field.type = .scalar .string then some toText else .none
  | .convert => .none

/-- Appends the chosen modifier to the source of a field. -/
def apply (c : Coercion) (direction : Direction) (field : Field) : String :=
  match c direction field with
  | some modifier => field.src ++ "." ++ modifier
  | .none => field.src

end Coercion

end ShapeLines
