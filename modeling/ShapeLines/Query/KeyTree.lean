import ShapeLines.Fullname.Positional
import ShapeLines.Json.Member
import ShapeLines.Query.Coercion

/-!
# Key trees

A query builds an object from a tree of keys. A leaf holds the source of a value, a group the keys
inside an object or, if it is an array, inside the elements of one. Keys stand in the order in which
they were first declared. A key that is declared as a leaf again gets the newer source; once it has
keys inside, it is a group, and a leaf declared for it says nothing.
-/

namespace ShapeLines

inductive KeyNode where
  | leaf (source : String)
  | group (isArray : Bool) (children : List (String × KeyNode))
  deriving Inhabited

structure KeyTree where
  isArray : Bool := false
  children : List (String × KeyNode) := []

namespace KeyTree

def put (key : String) (change : Option KeyNode → KeyNode) :
    List (String × KeyNode) → List (String × KeyNode)
  | [] => [(key, change none)]
  | (k, node) :: rest =>
    if key = k then (k, change (some node)) :: rest else (k, node) :: put key change rest

/-- The group that takes further keys at a node. -/
def openGroup (isArray : Bool) : Option KeyNode → KeyTree
  | some (.group wasArray children) => ⟨wasArray || isArray, children⟩
  | _ => ⟨isArray, []⟩

def toNode (t : KeyTree) : KeyNode := .group t.isArray t.children

/-- The node of a key after a leaf has been declared for it. -/
def leafOver (source : String) : Option KeyNode → KeyNode
  | some (.group isArray children) => .group isArray children
  | _ => .leaf source

/-- Declares a leaf at the end of a key path. A bare hop makes the group that has been reached an
array. -/
def insert (source : String) : List Segment → KeyTree → KeyTree
  | [], t => t
  | segment :: rest, t =>
    if segment.name = "" then insert source rest { t with isArray := true }
    else if rest.isEmpty then { t with children := put segment.name (leafOver source) t.children }
    else
      { t with
        children := put segment.name
          (fun node => (insert source rest (openGroup segment.isArray node)).toNode) t.children }

end KeyTree

structure KeyOptions where
  /-- A leading path that is taken off every destination. -/
  strip : Option String := none
  deriving DecidableEq

namespace KeyOptions

def stripping (id : String) : KeyOptions := ⟨some id⟩

/-- A destination without the leading path; one that does not start with the path and a dot stays.
-/
def stripped (options : KeyOptions) (destination : String) : String :=
  match options.strip with
  | some path =>
    match Text.after? (path.toList ++ ['.']) destination.toList with
    | some rest => String.ofList rest
    | none => destination
  | none => destination

def toJson (options : KeyOptions) : Json :=
  Json.ofMembers [("strip_prefix", (options.strip.map Json.str).getD .null)]

def ofJson? : Json → Option KeyOptions :=
  Json.record? ["strip_prefix"] fun members =>
    (Json.optional? members "strip_prefix" none Json.optionalString?).map KeyOptions.mk

end KeyOptions

namespace Field

/-- The key path of a field as a fullname: its destination, or the field's own fullname when it has
none. -/
def keyPath (options : KeyOptions) (field : Field) : String :=
  Fullname.ofPositional <|
    options.stripped (if field.dst = "" then field.fullname else field.dst)

end Field

namespace KeyTree

/-- Declares the key of a field. A field that is bound by a template has none. -/
def addField (direction : Direction) (coercion : Coercion) (options : KeyOptions) (t : KeyTree)
    (field : Field) : KeyTree :=
  if field.hasTemplate then t
  else t.insert (coercion.apply direction field) (Fullname.segments (field.keyPath options))

def ofFields (direction : Direction) (coercion : Coercion) (options : KeyOptions)
    (fields : List Field) : KeyTree :=
  fields.foldl (addField direction coercion options) {}

end KeyTree

end ShapeLines
