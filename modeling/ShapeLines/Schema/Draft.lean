import ShapeLines.Schema.Attribute
import ShapeLines.Schema.Document

/-!
# Building a schema from fields

Fields are declared one after the other. Each walks along its segments from the root, uses the nodes
that earlier fields made and makes those that are missing. A node keeps the kind it was made with,
save that a root that holds nothing yet may become an array; a field that needs another kind is a
conflict. A required field is listed in the object around it.

Nodes are found by the text of their place. A property whose name ends in `[]` has the same text as
the elements of the array beside it; the text then stands for whichever of the two was made last.
-/

namespace ShapeLines

inductive Hop where
  | property (name : String)
  | elements
  deriving DecidableEq

namespace Schema

/-- The node that a way down from here leads to. -/
def at? : List Hop → Schema → Option Schema
  | [], s => some s
  | .property name :: way, .object _ _ properties => (Entries.get? name properties).bind (at? way)
  | .elements :: way, .array _ (some items) => at? way items
  | _, _ => none

def modify (f : Schema → Schema) : List Hop → Schema → Schema
  | [], s => f s
  | .property name :: way, .object marks required properties =>
    .object marks required (Entries.adjust name (modify f way) properties)
  | .elements :: way, .array marks (some items) => .array marks (some (modify f way items))
  | _, s => s

def addProperty (name : String) (child : Schema) : Schema → Schema
  | .object marks required properties =>
    .object marks required (Entries.insert name child properties)
  | s => s

def setElements (items : Schema) : Schema → Schema
  | .array marks _ => .array marks (some items)
  | s => s

/-- Lists a name as required, once. -/
def require (name : String) : Schema → Schema
  | .object marks required properties =>
    .object marks (if required.contains name then required else required ++ [name]) properties
  | s => s

/-- Gives a node the type and the keywords of a field. The type of a container stays. -/
def complete (f : Field) : Schema → Schema
  | .scalar type marks =>
    let type := match f.type with
      | .scalar type => type
      | _ => type
    .scalar type { marks with keywords := Entries.update marks.keywords f.keywords }
  | .array marks items =>
    .array { marks with keywords := Entries.update marks.keywords f.keywords } items
  | .object marks required properties =>
    .object { marks with keywords := Entries.update marks.keywords f.keywords } required properties

end Schema

/-- A place that has been reached: the way to its node and the text of the place. -/
structure Spot where
  way : List Hop
  place : String
  deriving DecidableEq

def Spot.root : Spot := ⟨[], ""⟩

structure Draft where
  root : Schema
  /-- The way to the node that was made last for each text. -/
  ways : List (String × List Hop)

namespace Draft

def empty : Draft := ⟨.bare .object, [("", [])]⟩

/-- Requires the node of a spot to have the given kind. Only the root can change its kind, and only
while it holds nothing. -/
def ensureKind (d : Draft) (spot : Spot) (kind : Kind) : Except SchemaError Draft :=
  match d.root.at? spot.way with
  | none => .ok d
  | some node =>
    if node.kind = kind then .ok d
    else if spot.way = [] ∧ node.isLeaf ∧ kind ≠ .scalar then .ok { d with root := .bare kind }
    else .error (.kindConflict spot.place node.kind kind)

def enter (d : Draft) (spot : Spot) : Draft :=
  { d with ways := Entries.insert spot.place spot.way d.ways }

/-- The property `name` of the object at `parent`, made if it is missing. -/
def child (d : Draft) (parent : Spot) (name : String) (kind : Kind) :
    Except SchemaError (Draft × Spot) :=
  let place := Fullname.join parent.place name
  match Entries.get? place d.ways with
  | some way => do
    let spot : Spot := ⟨way, place⟩
    return (← d.ensureKind spot kind, spot)
  | none => do
    let d ← d.ensureKind parent .object
    let spot : Spot := ⟨parent.way ++ [.property name], place⟩
    let root := d.root.modify (Schema.addProperty name (.bare kind)) parent.way
    return ({ d with root }.enter spot, spot)

def element (d : Draft) (array : Spot) (kind : Kind) : Except SchemaError (Draft × Spot) :=
  let spot : Spot := ⟨array.way ++ [.elements], Fullname.element array.place⟩
  match d.root.at? spot.way with
  | some _ => do return (← d.ensureKind spot kind, spot)
  | none =>
    let root := d.root.modify (Schema.setElements (.bare kind)) array.way
    .ok ({ d with root }.enter spot, spot)

/-- The node that a segment names, before a hop into its elements. A bare `[]` names the place that
has been reached. The last segment of a required field is listed in the object around it. -/
def named (d : Draft) (parent : Spot) (f : Field) (segment : Segment) (isLast : Bool) :
    Except SchemaError (Draft × Spot) :=
  if segment.name = "" then .ok (d, parent)
  else do
    let kind : Kind :=
      if segment.isArray then .array else if isLast then f.type.kind else .object
    let (d, spot) ← d.child parent segment.name kind
    if isLast && f.required then
      return ({ d with root := d.root.modify (Schema.require segment.name) parent.way }, spot)
    else return (d, spot)

def descend (d : Draft) (parent : Spot) (f : Field) (segment : Segment) (isLast : Bool) :
    Except SchemaError (Draft × Spot) := do
  let (d, spot) ← d.named parent f segment isLast
  if segment.isArray then
    let d ← d.ensureKind spot .array
    d.element spot (if isLast then f.type.kind else .object)
  else return (d, spot)

def walk (d : Draft) (parent : Spot) (f : Field) : List Segment → Except SchemaError Draft
  | [] => .ok d
  | [segment] => do
    let (d, spot) ← d.descend parent f segment true
    return { d with root := d.root.modify (Schema.complete f) spot.way }
  | segment :: rest => do
    let (d, spot) ← d.descend parent f segment false
    d.walk spot f rest

/-- Declares a field. A field without segments says nothing. -/
def declare (d : Draft) (f : Field) : Except SchemaError Draft :=
  d.walk .root f f.segments

def ofFields (fields : List Field) : Except SchemaError Draft :=
  fields.foldlM declare empty

end Draft

def Schema.ofFields (version : String) (fields : List Field) : Except SchemaError Json :=
  (Draft.ofFields fields).map fun d => d.root.document version

def Shape.toSchema (s : Shape) : Except SchemaError Json :=
  Schema.ofFields s.header.version s.fields

end ShapeLines
