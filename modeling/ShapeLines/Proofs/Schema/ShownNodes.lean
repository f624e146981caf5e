import ShapeLines.Proofs.Schema.Reached

/-!
# The fields of a document that is read

The fields of a shape that is read from a document are the shown nodes of the document. No two of
them have one fullname, each fullname is read as the way to the node that the field describes, and
no node that says something of its own is left out.
-/

namespace ShapeLines

namespace Schema

variable {doc : Json} {shape : Shape} {s t : Schema} {way : List Hop}
  {node : List (String × Json)} {place : String} {required : Bool} {f g : Field}

mutual

/-- The node and all nodes below it. -/
def nodes : Schema → List Schema
  | .scalar type marks => [.scalar type marks]
  | .array marks items => .array marks items :: elementNodes items
  | .object marks names properties => .object marks names properties :: propertyNodes properties

def elementNodes : Option Schema → List Schema
  | none => []
  | some items => nodes items

def propertyNodes : List (String × Schema) → List Schema
  | [] => []
  | (_, s) :: rest => nodes s ++ propertyNodes rest

end

theorem self_mem_nodes (s : Schema) : s ∈ s.nodes := by
  cases s <;> simp [nodes]

theorem mem_propertyNodes {properties : List (String × Schema)} {name : String}
    (found : Entries.get? name properties = some s) (mem : t ∈ s.nodes) :
    t ∈ propertyNodes properties := by
  induction properties with
  | nil => contradiction
  | cons e rest ih =>
    obtain ⟨key, r⟩ := e
    rw [Entries.get?] at found
    rw [propertyNodes, List.mem_append]
    split at found
    · cases found
      exact .inl mem
    · exact .inr (ih found)

theorem mem_nodes_of_at? (found : s.at? way = some t) : t ∈ s.nodes := by
  induction way generalizing s with
  | nil =>
    rw [at?_nil] at found
    cases found
    exact self_mem_nodes _
  | cons hop way ih =>
    rw [at?_cons] at found
    obtain ⟨r, below, found⟩ := Option.bind_eq_some_iff.mp found
    have inside := ih found
    cases s with
    | scalar => cases hop <;> contradiction
    | array marks items =>
      cases hop with
      | property => cases items <;> contradiction
      | elements =>
        rw [at?_singleton_elements] at below
        subst below
        simp [nodes, elementNodes, inside]
    | object marks names properties =>
      cases hop with
      | elements => contradiction
      | property name =>
        rw [at?_singleton_property] at below
        simp [nodes, mem_propertyNodes below inside]

def propertyNames : Schema → List String
  | .object _ _ properties => properties.map Prod.fst
  | _ => []

/-- The names of a document are known to be plain from the schema that is read. -/
theorem plainNames_of_nodes (ok : ofJson "" doc = .ok s)
    (plain : ∀ t ∈ s.nodes, ∀ name ∈ t.propertyNames,
      name ≠ "" ∧ Fullname.isUnmarked name = true) : PlainNames doc := by
  intro way node properties reached object member e mem
  obtain ⟨t, found, read⟩ := reached.at? ok
  apply plain t (mem_nodes_of_at? found)
  rcases ofJson_cases read with ⟨type, nodeType, -⟩ | ⟨items, nodeType, -⟩ |
    ⟨names, schemas, -, -, each, rfl⟩
  · rw [object] at nodeType
    cases nodeType
  · rw [object] at nodeType
    cases nodeType
  · rw [propertyNames, map_fst_eachProperty (eachProperty_of_member each member)]
    exact List.mem_map_of_mem mem

/-- The shape has the shown nodes of the schema as its fields. -/
structure ReadAs (doc : Json) (shape : Shape) (s : Schema) : Prop where
  read : ofJson "" doc = .ok s
  named : ∀ w t, s.at? w = some t → Way.Named w
  mem_fields : ∀ f, f ∈ shape.fields ↔ ∃ w t, s.at? w = some t ∧
    t.isShown (carried false w s) = true ∧ w ≠ [] ∧
    f = (shownField w (carried false w s) t).bindInPlace shape.header.id
  distinct : (shape.fields.map Field.fullname).Nodup

theorem exists_ofJson_of_ok (ok : Shape.ofSchemaJson doc = .ok shape) :
    ∃ s, ofJson "" doc = .ok s ∧
      shape.fields = (s.fields "" false).map (Field.bindInPlace shape.header.id) := by
  unfold Shape.ofSchemaJson Described.ofJson at ok
  cases read : ofJson "" doc with
  | error e => simp [read, bind, Except.bind, Except.map] at ok
  | ok s =>
    rw [read] at ok
    cases ok
    exact ⟨s, rfl, rfl⟩

theorem readAs_of_ok (canonical : doc.Canonical) (plain : PlainNames doc)
    (ok : Shape.ofSchemaJson doc = .ok shape) : ∃ s, ReadAs doc shape s := by
  obtain ⟨s, read, fields⟩ := exists_ofJson_of_ok ok
  have ordered := ordered_of_ofJson canonical read
  have named : ∀ w t, s.at? w = some t → Way.Named w := by
    intro w t found
    obtain ⟨node, reached, -⟩ := exists_reached_of_at? read found
    exact plain.named reached
  have shown {g : Field} : g ∈ s.fields "" false ↔ ∃ w t, s.at? w = some t ∧
      t.isShown (carried false w s) = true ∧ w ≠ [] ∧ g = shownField w (carried false w s) t :=
    mem_fields (u := []) ordered named
  refine ⟨s, read, named, fun f => ?_, ?_⟩
  · rw [fields, List.mem_map]
    constructor
    · intro ⟨g, mem, eq⟩
      obtain ⟨w, t, found, isShown, ne, rfl⟩ := shown.mp mem
      exact ⟨w, t, found, isShown, ne, eq.symm⟩
    · intro ⟨w, t, found, isShown, ne, eq⟩
      exact ⟨_, shown.mpr ⟨w, t, found, isShown, ne, rfl⟩, eq.symm⟩
  · have distinct := fields_pairwise (u := []) ordered named false
    rw [Way.place_nil] at distinct
    rw [fields, List.map_map]
    exact List.pairwise_map.mpr distinct

namespace ReadAs

theorem hops_fullname (readAs : ReadAs doc shape s) (found : s.at? way = some t)
    (required : Bool) (id : String) :
    Fullname.hops ((shownField way required t).bindInPlace id).fullname = way := by
  have fullname : ((shownField way required t).bindInPlace id).fullname = Way.place way :=
    fullname_shownField way required t
  rw [fullname, Way.hops_place (readAs.named way t found)]

/-- A field is known by the way that its fullname is read as. -/
theorem eq_of_hops (readAs : ReadAs doc shape s) (hf : f ∈ shape.fields) (hg : g ∈ shape.fields)
    (eq : Fullname.hops f.fullname = Fullname.hops g.fullname) : f = g := by
  obtain ⟨v, p, foundF, -, -, rfl⟩ := (readAs.mem_fields f).mp hf
  obtain ⟨w, q, foundG, -, -, rfl⟩ := (readAs.mem_fields g).mp hg
  rw [readAs.hops_fullname foundF, readAs.hops_fullname foundG] at eq
  subst eq
  rw [foundF] at foundG
  cases foundG
  rfl

theorem eq_of_fullname (readAs : ReadAs doc shape s) (hf : f ∈ shape.fields)
    (hg : g ∈ shape.fields) (eq : f.fullname = g.fullname) : f = g :=
  readAs.eq_of_hops hf hg (congrArg Fullname.hops eq)

end ReadAs

/-- The node says something that no field below it can say: it is a scalar, has keywords, or holds
nothing. -/
def Speaks (node : List (String × Json)) : Prop :=
  (∃ type, nodeType? node = some (.scalar type)) ∨ attributes node ≠ [] ∨
    (nodeType? node = some .object ∧ (Entries.get? "properties" node = none ∨
      Entries.get? "properties" node = some (.obj []))) ∨
    (nodeType? node = some .array ∧ Entries.get? "items" node = none)

theorem isShown_of_speaks (speaks : Speaks node) (ok : ofJson place (.obj node) = .ok t)
    (required : Bool) : t.isShown required = true := by
  rcases ofJson_cases ok with ⟨type, nodeType, rfl⟩ | ⟨items, nodeType, elements, rfl⟩ |
    ⟨names, properties, nodeType, -, each, rfl⟩
  · rfl
  · rcases speaks with ⟨type, scalar⟩ | own | ⟨object, -⟩ | ⟨-, none⟩
    · simp [nodeType] at scalar
    · have keywords : (marksOf node).keywords ≠ [] := own
      simp [isShown, keywords]
    · simp [nodeType] at object
    · rw [elementsMember_eq, none] at elements
      cases elements
      rfl
  · rcases speaks with ⟨type, scalar⟩ | own | ⟨-, none | empty⟩ | ⟨array, -⟩
    · simp [nodeType] at scalar
    · have keywords : (marksOf node).keywords ≠ [] := own
      simp [isShown, keywords]
    · rw [propertiesMember_eq, none] at each
      cases each
      simp [isShown]
    · cases eachProperty_of_member each empty
      simp [isShown]
    · simp [nodeType] at array

/-- The field of a shown node has the type of the node and what its keywords give. -/
theorem takenFrom_shownField (ascending : Entries.Ascending node)
    (ok : ofJson place (.obj node) = .ok t) (way : List Hop) (required : Bool) (id : String) :
    nodeType? node = some ((shownField way required t).bindInPlace id).type ∧
      Field.TakenFrom (attributes node) ((shownField way required t).bindInPlace id) := by
  have keywords : t.marks.keywords = attributes node := by rw [marks_of_ofJson ok]; rfl
  constructor
  · rw [nodeType?_of_ofJson ok]
    exact congrArg some (Field.type_ofKeywords ..).symm
  · have taken := Field.takenFrom_ofKeywords (Way.place way) t.type (required || t.marks.flag)
      (ascending_attributes ascending)
    rw [← keywords] at taken ⊢
    exact ⟨taken.format, taken.constValues, taken.defaultText, taken.exampleText,
      taken.examplesText, taken.enumValues, taken.enumNames, taken.extra⟩

/-- The fields of a document that is read have different fullnames, each describes the node that its
fullname leads to, and every node that says something of its own has exactly one field. -/
theorem ofSchemaJson_nodes (canonical : doc.Canonical) (plain : PlainNames doc)
    (ok : Shape.ofSchemaJson doc = .ok shape) :
    (shape.fields.map Field.fullname).Nodup ∧
    (∀ f ∈ shape.fields, Fullname.hops f.fullname ≠ [] ∧
      ∃ node, Reached doc (Fullname.hops f.fullname) node ∧
        nodeType? node = some f.type ∧ Field.TakenFrom (attributes node) f) ∧
    ∀ way node, way ≠ [] → Reached doc way node → Speaks node →
      ∃! f, f ∈ shape.fields ∧ Fullname.hops f.fullname = way := by
  obtain ⟨s, readAs⟩ := readAs_of_ok canonical plain ok
  refine ⟨readAs.distinct, fun f mem => ?_, fun way node ne reached speaks => ?_⟩
  · obtain ⟨way, t, found, -, ne, rfl⟩ := (readAs.mem_fields f).mp mem
    obtain ⟨node, reached, read⟩ := exists_reached_of_at? readAs.read found
    rw [readAs.hops_fullname found]
    exact ⟨ne, node, reached, takenFrom_shownField (reached.ascending canonical) read ..⟩
  · obtain ⟨t, found, read⟩ := reached.at? readAs.read
    have mem := (readAs.mem_fields _).mpr ⟨way, t, found, isShown_of_speaks speaks read _, ne, rfl⟩
    have leads := readAs.hops_fullname found (carried false way s) shape.header.id
    refine ⟨_, ⟨mem, leads⟩, fun g ⟨memG, leadsG⟩ => ?_⟩
    exact readAs.eq_of_hops memG mem (leadsG.trans leads.symm)

/-- Types that are implied, elements that are arrays themselves, and a name that is listed without a
property. -/
def storeDocument : Json :=
  .obj [("$schema", .str "v1"),
    ("properties", .obj [
      ("matrix", .obj [
        ("items", .obj [
          ("items", .obj [("type", .str "number")]),
          ("maxItems", .num (.int 3 (by decide)))])]),
      ("owner", .obj [("properties", .obj [
        ("name", .obj [("title", .str "Name")])])]),
      ("tags", .obj [("type", .str "array")])]),
    ("required", .arr [.str "matrix", .str "ghost"])]

theorem canonical_storeDocument : storeDocument.Canonical := by
  simp only [storeDocument, Json.Canonical, Json.CanonicalMembers, Json.CanonicalElements, and_true,
    true_and]
  decide

theorem plainNames_storeDocument : PlainNames storeDocument := by
  cases read : ofJson "" storeDocument with
  | error e => exact absurd read nofun
  | ok s =>
    refine plainNames_of_nodes read ?_
    cases read
    decide

theorem ofSchemaJson_nodes_store : ∃ shape, Shape.ofSchemaJson storeDocument = .ok shape ∧
    (shape.fields.map Field.fullname).Nodup ∧
    ∃! f, f ∈ shape.fields ∧
      Fullname.hops f.fullname = [.property "matrix", .elements, .elements] := by
  obtain ⟨shape, ok⟩ : ∃ shape, Shape.ofSchemaJson storeDocument = .ok shape := ⟨_, rfl⟩
  obtain ⟨distinct, -, shown⟩ :=
    ofSchemaJson_nodes canonical_storeDocument plainNames_storeDocument ok
  have reached : Reached storeDocument [.property "matrix", .elements, .elements]
      [("type", .str "number")] :=
    .elements (.elements (.property (.root rfl) rfl rfl rfl) rfl rfl) rfl rfl
  exact ⟨shape, ok, distinct, shown _ _ (by simp) reached (.inl ⟨.number, rfl⟩)⟩

end Schema

end ShapeLines
