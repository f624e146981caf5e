import ShapeLines.Json.Member

/-!
# The order of keys on a line

The keys of a line are written in an order that is given from outside as a list. Keys that the list
does not name follow in ascending order.
-/

namespace ShapeLines

structure KeyOrder where
  keys : List String
  deriving DecidableEq

namespace KeyOrder

/-- The order in which people write fields. -/
def canonical : KeyOrder :=
  ⟨["fullname", "src", "dst", "type", "format", "pattern", "enum", "required", "allowEmptyValue",
    "title", "description", "default", "comment", "example", "deprecated", "const", "multipleOf",
    "maximum", "exclusiveMaximum", "minimum", "exclusiveMinimum", "maxLength", "minLength",
    "maxItems", "minItems", "uniqueItems", "maxContains", "minContains", "maxProperties",
    "minProperties", "contentEncoding", "contentMediaType", "readOnly", "writeOnly"]⟩

/-- The first position of a key in the list, or the length of the list. -/
def rank (order : KeyOrder) (key : String) : Nat :=
  order.keys.idxOf key

def le (order : KeyOrder) (a b : String) : Bool :=
  order.rank a < order.rank b || (order.rank a == order.rank b && a ≤ b)

def toJson (order : KeyOrder) : Json :=
  Json.ofMembers [("keys", .arr (order.keys.map .str))]

def ofJson? : Json → Option KeyOrder :=
  Json.record? ["keys"] fun members =>
    (Json.required? members "keys" Json.strings?).map KeyOrder.mk

end KeyOrder

end ShapeLines
