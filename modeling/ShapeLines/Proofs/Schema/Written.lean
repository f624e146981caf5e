import ShapeLines.Proofs.Schema.Neat

/-!
# The document of a neat schema

Every member of a written node is known: the form of the node gives `type`, `properties`, `items`
and `required`, and all other members are its keywords. Following a way in the document leads to the
written form of the node that the way leads to in the schema.
-/

namespace ShapeLines

namespace Entries

variable {α : Type}

theorem get?_filter_key (p : String → Bool) (key : String) (l : List (String × α)) :
    get? key (l.filter fun e => p e.1) = if p key then get? key l else none := by
  induction l with
  | nil => simp [get?]
  | cons e rest ih =>
    obtain ⟨k, v⟩ := e
    by_cases hk : key = k
    · subst hk
      cases hp : p key <;> simp [hp, get?, ih]
    · cases hp : p k <;> simp [hp, get?, hk, ih]

/-- Sets a value, if there is one. -/
def insertSome (key : String) : Option α → List (String × α) → List (String × α)
  | some value, l => insert key value l
  | none, l => l

theorem Ascending.insertSome {l : List (String × α)} (h : Ascending l) (key : String)
    (value : Option α) : Ascending (insertSome key value l) := by
  cases value with
  | none => exact h
  | some value => exact h.insert key value

theorem get?_insertSome (key other : String) (value : Option α) (l : List (String × α)) :
    get? other (insertSome key value l) =
      if other = key then value.or (get? other l) else get? other l := by
  cases value with
  | none => simp [insertSome]
  | some value => rw [insertSome, get?_insert, Option.some_or]

end Entries

namespace Json

def member? (key : String) : Json → Option Json
  | .obj members => Entries.get? key members
  | _ => none

/-- What stands one hop below a node of a document. -/
def hop? : Hop → Json → Option Json
  | .property name, v => (v.member? "properties").bind (member? name)
  | .elements, v => v.member? "items"

/-- The part of a document that a way leads to. -/
def at? : List Hop → Json → Option Json
  | [], v => some v
  | hop :: way, v => (v.hop? hop).bind (at? way)

end Json

namespace Schema

variable {s t : Schema} {w : List Hop}

/-- The members of a written node that do not belong to its form. -/
def attributes (node : List (String × Json)) : List (String × Json) :=
  node.filter fun m => !Keyword.isStructural m.1

theorem get?_attributes (key : String) (node : List (String × Json)) :
    Entries.get? key (attributes node) =
      if Keyword.isStructural key then none else Entries.get? key node := by
  unfold attributes
  rw [Entries.get?_filter_key (fun key => !Keyword.isStructural key)]
  cases Keyword.isStructural key <;> rfl

theorem ascending_attributes {node : List (String × Json)} (h : Entries.Ascending node) :
    Entries.Ascending (attributes node) :=
  h.filter _

def requiredMember? : Schema → Option Json
  | .object _ required _ => if required.isEmpty then none else some (.arr (required.map .str))
  | _ => none

def propertiesMember? : Schema → Option Json
  | .object _ _ properties =>
    if properties.isEmpty then none else some (.obj (propertyMembers properties))
  | _ => none

def itemsMember? : Schema → Option Json
  | .array _ (some items) => some (.obj items.members)
  | _ => none

theorem Marks.Tidy.get?_eq_none {marks : Marks} (tidy : marks.Tidy) {key : String}
    (structural : Keyword.isStructural key = true) : Entries.get? key marks.keywords = none := by
  rw [Entries.get?_eq_none_iff]
  intro e mem eq
  have plain := tidy.plain e mem
  rw [eq, structural] at plain
  contradiction

theorem flagged_of_tidy {marks : Marks} (tidy : marks.Tidy) : flagged marks = marks.keywords := by
  rw [flagged, tidy.flag]
  rfl

theorem members_eq (s : Schema) :
    s.members = Entries.insertSome "properties" s.propertiesMember?
      (Entries.insertSome "items" s.itemsMember?
        (Entries.insertSome "required" s.requiredMember?
          (Entries.insert "type" (.str s.type.name) (flagged s.marks)))) := by
  cases s with
  | scalar => rw [members]; rfl
  | array marks items => cases items <;> rw [members] <;> rfl
  | object marks required properties =>
    rw [members]
    cases required <;> cases properties <;> rfl

theorem ascending_members (tidy : s.marks.Tidy) : Entries.Ascending s.members := by
  rw [members_eq, flagged_of_tidy tidy]
  have typed := tidy.ascending.insert "type" (Json.str s.type.name)
  exact ((typed.insertSome _ _).insertSome _ _).insertSome _ _

theorem get?_members (tidy : s.marks.Tidy) (key : String) :
    Entries.get? key s.members =
      if key = "properties" then s.propertiesMember?
      else if key = "items" then s.itemsMember?
      else if key = "required" then s.requiredMember?
      else if key = "type" then some (.str s.type.name)
      else Entries.get? key s.marks.keywords := by
  have absent (key : String) (structural : Keyword.isStructural key = true) :
      Entries.get? key s.marks.keywords = none := tidy.get?_eq_none structural
  rw [members_eq, flagged_of_tidy tidy]
  simp only [Entries.get?_insertSome, Entries.get?_insert]
  split
  · next eq => simp [eq, absent "properties" (by decide)]
  · split
    · next eq => simp [eq, absent "items" (by decide)]
    · split
      · next eq => simp [eq, absent "required" (by decide)]
      · rfl

theorem attributes_members (tidy : s.marks.Tidy) : attributes s.members = s.marks.keywords := by
  apply (ascending_attributes (ascending_members tidy)).ext tidy.ascending
  intro key
  rw [get?_attributes, get?_members tidy]
  cases structural : Keyword.isStructural key with
  | true => rw [tidy.get?_eq_none structural, if_pos rfl]
  | false =>
    have other (name : String) (h : Keyword.isStructural name = true) : key ≠ name := by
      intro eq
      rw [eq, h] at structural
      contradiction
    simp [other "properties" (by decide), other "items" (by decide), other "required" (by decide),
      other "type" (by decide)]

theorem get?_propertyMembers (name : String) (properties : List (String × Schema)) :
    Entries.get? name (propertyMembers properties) =
      (Entries.get? name properties).map fun s => .obj s.members := by
  induction properties with
  | nil => rfl
  | cons e rest ih =>
    obtain ⟨key, s⟩ := e
    rw [propertyMembers, Entries.get?, Entries.get?]
    split
    · rfl
    · exact ih

theorem hop?_members (tidy : s.marks.Tidy) (hop : Hop) :
    Json.hop? hop (.obj s.members) = (s.at? [hop]).map fun t => .obj t.members := by
  cases hop with
  | property name =>
    rw [Json.hop?, Json.member?, get?_members tidy, if_pos rfl]
    cases s with
    | scalar => rfl
    | array => rfl
    | object marks required properties =>
      rw [at?_property, propertiesMember?]
      cases properties with
      | nil => rfl
      | cons e rest =>
        have found := get?_propertyMembers name (e :: rest)
        simp only [List.isEmpty_cons, Bool.false_eq_true, if_false, Option.bind_some, Json.member?,
          found]
        cases Entries.get? name (e :: rest) <;> simp
  | elements =>
    rw [Json.hop?, Json.member?, get?_members tidy, if_neg (by decide), if_pos rfl]
    cases s with
    | scalar => rfl
    | array marks items =>
      rw [at?_elements]
      cases items <;> simp [itemsMember?]
    | object => rfl

theorem at?_members (neat : Neat s) (w : List Hop) :
    Json.at? w (.obj s.members) = (s.at? w).map fun t => .obj t.members := by
  induction w generalizing s with
  | nil => simp [Json.at?]
  | cons hop w ih =>
    rw [Json.at?, at?_cons s hop w, hop?_members (neat.tidy [] s (at?_nil s))]
    cases found : s.at? [hop] with
    | none => rfl
    | some t => exact ih (neat.at? found)

/-- The root of a document has its version besides the members of a written node. -/
theorem at?_document (neat : Neat s) (version : String) (w : List Hop) :
    Json.at? w (document version s) = (s.at? w).map fun t =>
      if w = [] then document version s else .obj t.members := by
  have tidy := neat.tidy [] s (at?_nil s)
  cases w with
  | nil => simp [Json.at?]
  | cons hop w =>
    have sameHop : Json.hop? hop (document version s) = Json.hop? hop (.obj s.members) := by
      cases hop with
      | property name =>
        rw [document, Json.hop?, Json.hop?, Json.member?, Json.member?,
          Entries.get?_insert_of_ne (by decide)]
      | elements =>
        rw [document, Json.hop?, Json.hop?, Json.member?, Json.member?,
          Entries.get?_insert_of_ne (by decide)]
    have followed := at?_members neat (hop :: w)
    rw [Json.at?] at followed
    rw [Json.at?, sameHop, followed]
    simp

end Schema

end ShapeLines
