import ShapeLines.Json.Text
import ShapeLines.Fullname.Basic
import ShapeLines.Schema.Basic
import ShapeLines.Schema.Error
import ShapeLines.Schema.Keyword

/-!
# JSON Schema documents

A schema is written as a document with the members `type`, `properties`, `items` and `required`
beside the keywords of each node. In a document that is read the type may be missing: a node with
`properties` is an object, one with `items` an array, and any other a string. The first fault in
the order of the walk is reported, in which a node comes before what it holds. Members that the
type of a node gives no meaning are passed over, whatever they hold.
-/

namespace ShapeLines.Schema

mutual

def members : Schema → List (String × Json)
  | .scalar type marks =>
    Entries.insert "type" (.str (FieldType.scalar type).name) (flagged marks)
  | .array marks items =>
    itemsMember items (Entries.insert "type" (.str FieldType.array.name) (flagged marks))
  | .object marks required properties =>
    let node := Entries.insert "type" (.str FieldType.object.name) (flagged marks)
    let node :=
      if required.isEmpty then node
      else Entries.insert "required" (.arr (required.map .str)) node
    if properties.isEmpty then node
    else Entries.insert "properties" (.obj (propertyMembers properties)) node

def itemsMember : Option Schema → List (String × Json) → List (String × Json)
  | none, node => node
  | some items, node => Entries.insert "items" (.obj (members items)) node

def propertyMembers : List (String × Schema) → List (String × Json)
  | [] => []
  | (name, s) :: rest => (name, .obj (members s)) :: propertyMembers rest

def flagged (marks : Marks) : List (String × Json) :=
  if marks.flag then Entries.insert "required" (.bool true) marks.keywords else marks.keywords

end

/-- The document of a root node, which also carries the version. -/
def document (version : String) (root : Schema) : Json :=
  .obj (Entries.insert "$schema" (.str version) root.members)

def typeOf (place : String) (members : List (String × Json)) : Except SchemaError FieldType :=
  match Entries.get? "type" members with
  | some (.str name) =>
    match FieldType.ofShortName? name with
    | some type => .ok type
    | none => .error (.unknownType (SchemaError.location place) name)
  | some v => .error (.unknownType (SchemaError.location place) v.text)
  | none =>
    if (Entries.get? "properties" members).isSome then .ok .object
    else if (Entries.get? "items" members).isSome then .ok .array
    else .ok (.scalar .string)

/-- The names that an object lists as required. A truth value there is about the object itself and
lists none. -/
def requiredNames (place : String) (members : List (String × Json)) :
    Except SchemaError (List String) :=
  match Entries.get? "required" members with
  | none => .ok []
  | some (.bool _) => .ok []
  | some (.arr names) =>
    match names.mapM Json.string? with
    | some names => .ok names
    | none => .error (.invalidRequired (SchemaError.location place))
  | some _ => .error (.invalidRequired (SchemaError.location place))

def marksOf (members : List (String × Json)) : Marks where
  flag :=
    match Entries.get? "required" members with
    | some (.bool b) => b
    | _ => false
  keywords := members.filter fun m => !Keyword.isStructural m.1

mutual

def ofJson (place : String) : Json → Except SchemaError Schema
  | .obj members => do
    match ← typeOf place members with
    | .object =>
      let required ← requiredNames place members
      let properties ← propertiesMember place members
      return .object (marksOf members) required properties
    | .array => return .array (marksOf members) (← elementsMember place members)
    | .scalar type => return .scalar type (marksOf members)
  | _ => .error (.notAnObject (SchemaError.location place))

/-- The node that the first member `items` describes. -/
def elementsMember (place : String) : List (String × Json) → Except SchemaError (Option Schema)
  | [] => .ok none
  | (key, v) :: rest =>
    if key = "items" then (ofJson (Fullname.element place) v).map some
    else elementsMember place rest

def propertiesMember (place : String) :
    List (String × Json) → Except SchemaError (List (String × Schema))
  | [] => .ok []
  | (key, v) :: rest =>
    if key = "properties" then propertiesOf place v else propertiesMember place rest

def propertiesOf (place : String) : Json → Except SchemaError (List (String × Schema))
  | .obj members => eachProperty place members
  | _ => .error (.notAnObject (SchemaError.location place))

def eachProperty (place : String) :
    List (String × Json) → Except SchemaError (List (String × Schema))
  | [] => .ok []
  | (name, v) :: rest => do
    let s ← ofJson (Fullname.join place name) v
    let rest ← eachProperty place rest
    return (name, s) :: rest

end

/-- What a document says about itself, and its root node. -/
structure Described where
  version : String
  id : String
  root : Schema

def rootText? (key : String) : Json → Option String
  | .obj members => (Entries.get? key members).bind Json.string?
  | _ => none

/-- Reads a document. A version or id that is missing is the default one, and so is an empty id. -/
def Described.ofJson (v : Json) : Except SchemaError Described := do
  let root ← Schema.ofJson "" v
  let version := (rootText? "$schema" v).getD Header.defaultVersion
  let id := ((rootText? "$id" v).filter (· ≠ "")).getD Header.defaultId
  return { version, id, root }

end ShapeLines.Schema
