import ShapeLines.Proofs.Schema.Rebuilt

/-!
# Outlines

An outline is a document whose nodes have a form and say nothing else: a scalar has its type, an
array its elements, an object its properties and the names of those that are required. The fields
that an outline is flattened into make it again, up to the order of required names, unless an array
stands directly in an array. The elements of the inner one are then written with two `[]` in a row,
but a segment has one hop only: the first `[]` is read as part of a name.
-/

namespace ShapeLines

namespace Json

theorem RearrangedAt.rearranged {key : String} {v v' : Json} (same : RearrangedAt key v v')
    (ne : key ≠ "required") : v.Rearranged v' := by
  cases same with
  | value same => exact same
  | required => exact absurd rfl ne

theorem Rearranged.rel_member? {v v' : Json} (same : v.Rearranged v') (key : String) :
    Option.Rel (RearrangedAt key) (v.member? key) (v'.member? key) := by
  cases same with
  | refl =>
    cases v.member? key with
    | none => exact .none
    | some u => exact .some (.refl key u)
  | obj members => exact members.rel_get? key

end Json

namespace Schema

open Fullname (isUnmarked)

variable {nested : Bool} {s t : Schema} {doc v : Json} {w : List Hop}

/-- The members of an object with the given properties. What is empty is left out. -/
def objectMembers (properties : List (String × Json)) (required : List String) :
    List (String × Json) :=
  (if properties.isEmpty then [] else [("properties", .obj properties)]) ++
    (if required.isEmpty then [] else [("required", .arr (required.map .str))]) ++
    [("type", .str "object")]

/-- A node of an outline; `nested` tells whether an array may stand directly in an array. -/
inductive Outline (nested : Bool) : Json → Prop
  | scalar {type : String} (known : type ∈ ["string", "number", "integer", "boolean"]) :
    Outline nested (.obj [("type", .str type)])
  | array {items : Json} (node : Outline nested items)
    (apart : nested = true ∨ items.member? "items" = none) :
    Outline nested (.obj [("items", items), ("type", .str "array")])
  | object {properties : List (String × Json)} {required : List String}
    (ascending : Entries.Ascending properties)
    (named : ∀ e ∈ properties, e.1 ≠ "" ∧ isUnmarked e.1 = true)
    (nodes : ∀ e ∈ properties, Outline nested e.2)
    (distinct : required.Nodup)
    (listed : ∀ name ∈ required, name ∈ properties.map Prod.fst) :
    Outline nested (.obj (objectMembers properties required))

/-- An outline with an object and a version at its root. -/
def IsOutline (nested : Bool) (doc : Json) : Prop :=
  ∃ version node, doc = .obj (("$schema", .str version) :: node) ∧ Outline nested (.obj node) ∧
    Entries.get? "type" node = some (.str "object")

/-- A node without keywords. An object lists properties of its own, each once. -/
structure Formal (nested : Bool) (t : Schema) : Prop where
  marks : t.marks = {}
  ascending : ∀ marks required properties, t = .object marks required properties →
    Entries.Ascending properties
  named : ∀ name r, t.at? [.property name] = some r → name ≠ "" ∧ isUnmarked name = true
  nodup : t.label.required.Nodup
  listed : ∀ name ∈ t.label.required, ∃ r, t.at? [.property name] = some r
  apart : nested = true ∨ t.at? [.elements, .elements] = none

/-- What holds of a node and of all nodes below it. -/
theorem everywhere_iff {P : Schema → Prop} : (∀ w t, s.at? w = some t → P t) ↔
    P s ∧ ∀ hop r, s.at? [hop] = some r → ∀ w t, r.at? w = some t → P t := by
  constructor
  · intro all
    refine ⟨all [] s (at?_nil s), fun hop r found w t below => all (hop :: w) t ?_⟩
    rw [at?_cons, found]
    exact below
  · rintro ⟨here, below⟩ w t found
    cases w with
    | nil =>
      rw [at?_nil] at found
      cases found
      exact here
    | cons hop w =>
      rw [at?_cons] at found
      obtain ⟨r, at', found⟩ := Option.bind_eq_some_iff.mp found
      exact below hop r at' w t found

/-! ## The schema of an outline -/

theorem members_object (required : List String) (properties : List (String × Schema)) :
    members (.object {} required properties) =
      objectMembers (propertyMembers properties) required := by
  cases required <;> cases properties <;> rfl

theorem insert_version_members (version : Json) (required : List String)
    (properties : List (String × Schema)) :
    Entries.insert "$schema" version (members (.object {} required properties)) =
      ("$schema", version) :: members (.object {} required properties) := by
  rw [members_object]
  cases required <;> cases properties <;> rfl

theorem exists_properties {P : Schema → Prop} {properties : List (String × Json)}
    (nodes : ∀ e ∈ properties, ∃ s : Schema, e.2 = .obj s.members ∧ P s) :
    ∃ l : List (String × Schema), properties = propertyMembers l ∧ ∀ e ∈ l, P e.2 := by
  induction properties with
  | nil => exact ⟨[], rfl, by simp⟩
  | cons e properties ih =>
    obtain ⟨name, v⟩ := e
    obtain ⟨s, rfl, holds⟩ := nodes (name, v) List.mem_cons_self
    obtain ⟨l, rfl, all⟩ := ih fun e mem => nodes e (List.mem_cons_of_mem _ mem)
    exact ⟨(name, s) :: l, rfl, by simpa using ⟨holds, fun a b => all (a, b)⟩⟩

theorem formal_scalar (type : ScalarType) : Formal nested (.scalar type {}) where
  marks := rfl
  ascending := by simp
  named _ _ found := by simp [at?] at found
  nodup := List.nodup_nil
  listed _ mem := by simp [label] at mem
  apart := .inr rfl

theorem formal_array {items : Schema} (apart : nested = true ∨ items.at? [.elements] = none) :
    Formal nested (.array {} (some items)) where
  marks := rfl
  ascending := by simp
  named _ _ found := by simp [at?] at found
  nodup := List.nodup_nil
  listed _ mem := by simp [label] at mem
  apart := by rwa [at?_cons, at?_singleton_elements]

theorem formal_object {required : List String} {properties : List (String × Schema)}
    (ascending : Entries.Ascending properties)
    (named : ∀ e ∈ properties, e.1 ≠ "" ∧ isUnmarked e.1 = true) (distinct : required.Nodup)
    (listed : ∀ name ∈ required, name ∈ properties.map Prod.fst) :
    Formal nested (.object {} required properties) where
  marks := rfl
  ascending := by
    rintro marks names l ⟨⟩
    exact ascending
  named name r found := by
    rw [at?_singleton_property] at found
    exact named _ (Entries.mem_of_get? found)
  nodup := distinct
  listed name mem := by
    obtain ⟨⟨key, r⟩, inside, rfl⟩ := List.mem_map.mp (listed name mem)
    exact ⟨r, by rw [at?_singleton_property, ascending.get?_of_mem inside]⟩
  apart := .inr rfl

theorem neat_of_formal (formal : ∀ w t, s.at? w = some t → Formal nested t) : Neat s where
  tidy w t found := by
    rw [(formal w t found).marks]
    exact ⟨rfl, List.Pairwise.nil, by simp⟩
  ordered w marks required properties found :=
    (formal w _ found).ascending marks required properties rfl

/-- A node of an outline is what some schema is written as, all of whose nodes are formal. -/
theorem Outline.exists_members (outline : Outline nested v) :
    ∃ s : Schema, v = .obj s.members ∧ ∀ w t, s.at? w = some t → Formal nested t := by
  induction outline with
  | @scalar type known =>
    have isType : ∃ own : ScalarType, type = (FieldType.scalar own).name := by
      simp only [List.mem_cons, List.not_mem_nil, or_false] at known
      rcases known with rfl | rfl | rfl | rfl
      · exact ⟨.string, rfl⟩
      · exact ⟨.number, rfl⟩
      · exact ⟨.integer, rfl⟩
      · exact ⟨.boolean, rfl⟩
    obtain ⟨own, rfl⟩ := isType
    refine ⟨.scalar own {}, rfl, everywhere_iff.mpr ⟨formal_scalar own, fun hop r found => ?_⟩⟩
    cases hop <;> simp [at?] at found
  | array node apart ih =>
    obtain ⟨items, rfl, formal⟩ := ih
    have neat := neat_of_formal formal
    have apart' : nested = true ∨ items.at? [.elements] = none := apart.imp id fun none => by
      have below := hop?_members (neat.tidy [] items (at?_nil items)) .elements
      rw [Json.hop?, none] at below
      exact Option.map_eq_none_iff.mp below.symm
    refine ⟨.array {} (some items), rfl,
      everywhere_iff.mpr ⟨formal_array apart', fun hop r found => ?_⟩⟩
    cases hop with
    | property => simp [at?] at found
    | elements =>
      rw [at?_singleton_elements] at found
      cases found
      exact formal
  | object ascending named nodes distinct listed ih =>
    obtain ⟨properties, rfl, formal⟩ := exists_properties ih
    have keys := map_fst_propertyMembers properties
    have ascending' : Entries.Ascending properties := by
      refine List.pairwise_map.mp ?_
      rw [← keys]
      exact List.pairwise_map.mpr ascending
    have named' : ∀ e ∈ properties, e.1 ≠ "" ∧ isUnmarked e.1 = true := fun e mem => by
      have key : e.1 ∈ (propertyMembers properties).map Prod.fst :=
        keys ▸ List.mem_map_of_mem mem
      obtain ⟨member, inside, eq⟩ := List.mem_map.mp key
      rw [← eq]
      exact named member inside
    rw [keys] at listed
    refine ⟨.object {} _ properties, by rw [members_object],
      everywhere_iff.mpr ⟨formal_object ascending' named' distinct listed, fun hop r found => ?_⟩⟩
    cases hop with
    | elements => simp [at?] at found
    | property name =>
      rw [at?_singleton_property] at found
      exact formal _ (Entries.mem_of_get? found)

section

variable (formal : ∀ w t, s.at? w = some t → Formal nested t)
include formal

theorem named_of_formal (found : s.at? w = some t) : Way.Named w := by
  intro name mem
  obtain ⟨u, r, rfl⟩ := List.append_of_mem mem
  rw [at?_append] at found
  obtain ⟨p, at', found⟩ := Option.bind_eq_some_iff.mp found
  rw [at?_cons] at found
  obtain ⟨q, there, -⟩ := Option.bind_eq_some_iff.mp found
  exact (formal u p at').named name q there

/-- An object without properties has nothing to list. -/
theorem eq_bare_of_formal (object : s.type = .object) (leaf : s.isLeaf = true) :
    s = bare .object := by
  have own := formal [] s (at?_nil s)
  cases s with
  | scalar => contradiction
  | array => contradiction
  | object marks required properties =>
    have nothing : properties = [] := by simpa [isLeaf] using leaf
    have marks' : marks = {} := own.marks
    subst nothing marks'
    have unlisted : required = [] := List.eq_nil_iff_forall_not_mem.mpr fun name mem => by
      obtain ⟨r, found⟩ := own.listed name mem
      rw [at?_singleton_property] at found
      contradiction
    rw [unlisted]
    rfl

theorem apart_of_formal (flat : nested = false) (found : s.at? w = some t) :
    ¬ [Hop.elements, .elements] <:+: w := by
  rintro ⟨u, r, rfl⟩
  rw [List.append_assoc, at?_append] at found
  obtain ⟨p, at', found⟩ := Option.bind_eq_some_iff.mp found
  rw [at?_append] at found
  obtain ⟨q, twice, -⟩ := Option.bind_eq_some_iff.mp found
  rcases (formal u p at').apart with nested | none
  · rw [flat] at nested
    contradiction
  · rw [none] at twice
    contradiction

theorem rebuildable_of_formal (flat : nested = false) (object : s.type = .object) :
    Rebuildable s where
  neat := neat_of_formal formal
  regular w t found := ⟨named_of_formal formal found, apart_of_formal formal flat found⟩
  unmarked := by rw [(formal [] s (at?_nil s)).marks]
  fresh := eq_bare_of_formal formal object
  nodup w t found := (formal w t found).nodup
  listed w t found name mem := by
    obtain ⟨r, there⟩ := (formal w t found).listed name mem
    exact ⟨r, by rw [at?_append, found]; exact there⟩
  steady w t found fullname required := by
    rw [(formal w t found).marks]
    rfl

end

/-- A document with a schema that its own fields can make again is written again. -/
theorem Rebuildable.exists_rearranged (sound : Rebuildable s) (version : String) :
    ∃ shape doc', Shape.ofSchemaJson (s.document version) = .ok shape ∧
      shape.toSchema = .ok doc' ∧ (s.document version).Rearranged doc' := by
  obtain ⟨d', rebuilt⟩ := sound.ofFields_boundFields Header.defaultId
  have again := sound.drafted_boundFields rebuilt
  refine ⟨_, d'.root.document version, ofSchemaJson_document sound.neat version, ?_, ?_⟩
  · unfold Shape.toSchema Schema.ofFields
    have same : (Shape.ofDescribed ⟨version, Header.defaultId, s⟩).fields =
        boundFields Header.defaultId s := rfl
    rw [same, rebuilt]
    rfl
  · exact rearranged_document sound.neat again.neat (sound.alike again) version

/-- An outline in which no array stands directly in an array is made again by the fields that it is
flattened into, up to the order of required names. -/
theorem toSchema_of_outline (outline : IsOutline false doc) :
    ∃ s doc', Shape.ofSchemaJson doc = .ok s ∧ s.toSchema = .ok doc' ∧ doc.Rearranged doc' := by
  obtain ⟨version, node, rfl, outline, object⟩ := outline
  obtain ⟨s, eq, formal⟩ := outline.exists_members
  cases eq
  have neat := neat_of_formal formal
  have isObject : s.type = .object := by
    rw [get?_members (neat.tidy [] s (at?_nil s))] at object
    have name : s.type.name = "object" := by simpa using object
    have named := FieldType.ofShortName?_name s.type
    rw [name] at named
    exact (Option.some.inj named).symm
  have document : .obj (("$schema", .str version) :: s.members) = s.document version := by
    have marks := (formal [] s (at?_nil s)).marks
    cases s with
    | scalar => contradiction
    | array => contradiction
    | object own required properties =>
      have own' : own = {} := marks
      rw [own', Schema.document, insert_version_members]
  rw [document]
  exact (rebuildable_of_formal formal rfl isObject).exists_rearranged version

/-- A node for a list of texts. -/
def textsNode : Json :=
  .obj [("items", .obj [("type", .str "string")]), ("type", .str "array")]

/-- A table with a head and rows of cells. -/
def tableDocument : Json :=
  .obj (("$schema", .str "v1") :: objectMembers
    [("head", .obj (objectMembers [] [])),
     ("rows", .obj
      [("items", .obj (objectMembers [("cells", textsNode)] [])), ("type", .str "array")])]
    ["rows"])

/-- A table whose rows are arrays themselves. -/
def gridDocument : Json :=
  .obj (("$schema", .str "v1") :: objectMembers
    [("a", .obj [("items", textsNode), ("type", .str "array")])] [])

theorem outline_textsNode (nested : Bool) : Outline nested textsNode :=
  .array (.scalar (by decide)) (.inr rfl)

theorem toSchema_of_outline_table : IsOutline false tableDocument ∧ ∃ s doc',
    Shape.ofSchemaJson tableDocument = .ok s ∧ s.toSchema = .ok doc' ∧
      tableDocument.Rearranged doc' := by
  have row : Outline false (.obj (objectMembers [("cells", textsNode)] [])) :=
    .object (List.pairwise_singleton _ _) (by decide) (by simpa using outline_textsNode false)
      List.nodup_nil (by simp)
  have head : Outline false (.obj (objectMembers [] [])) :=
    .object List.Pairwise.nil (by simp) (by simp) List.nodup_nil (by simp)
  have outline : IsOutline false tableDocument := by
    refine ⟨"v1", _, rfl, .object (by decide) (by decide) ?_ (by decide) (by decide), rfl⟩
    simpa using ⟨head, .array row (.inr rfl)⟩
  exact ⟨outline, toSchema_of_outline outline⟩

/-- The fields of such a table. -/
def gridShape : Shape where
  header := { id := "example", version := "v1", direction := .inbound }
  fields := [{ fullname := "a[][]", src := "example.a.#.#", dst := "a[][]" }]

/-- The elements of the rows come back as the elements of a property of another name. -/
theorem toSchema_gridShape : IsOutline true gridDocument ∧
    Shape.ofSchemaJson gridDocument = .ok gridShape ∧
    ∃ doc', gridShape.toSchema = .ok doc' ∧ ¬ gridDocument.Rearranged doc' := by
  have outline : IsOutline true gridDocument := by
    refine ⟨"v1", _, rfl, .object ?_ (by decide) ?_ List.nodup_nil (by simp), rfl⟩
    · exact List.pairwise_singleton _ _
    · simpa using .array (outline_textsNode true) (.inl rfl)
  have read : Shape.ofSchemaJson gridDocument = .ok gridShape := by rfl
  have written : gridShape.toSchema =
      .ok (.obj (("$schema", .str "v1") :: objectMembers [("a[]", textsNode)] [])) := by cbv
  refine ⟨outline, read, _, written, fun same => ?_⟩
  cases same.rel_member? "properties" with
  | some properties =>
    have lost := isSome_eq_of_rel ((properties.rearranged (by decide)).rel_member? "a")
    exact absurd lost (by decide)

end Schema

end ShapeLines
