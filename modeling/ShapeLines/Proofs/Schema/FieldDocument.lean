import ShapeLines.Proofs.Schema.Read

/-!
# The document of fields with different fullnames

The document of fields is determined by them. Following the way of a field leads to a node with the
type and the keywords of that field; every node lies on the way of a field; and what a node says
beyond that is how the ways through it go on and which required fields end right below it.
-/

namespace ShapeLines.Schema

open Draft (Declares LabelOf namesAt declares_ofFields neat_ofFields)

variable {fields : List Field} {version : String} {d : Draft} {doc : Json}

/-- What fields say of the node that a way leads to in their document. -/
structure NodeOf (fields : List Field) (way : List Hop) (node : List (String × Json)) : Prop where
  type_of_end : ∀ f ∈ fields, f.way = way →
    Entries.get? "type" node = some (.str f.type.name)
  attributes_of_end : ∀ f ∈ fields, f.way = way → attributes node = Entries.ofList f.keywords
  /-- A node at which no field ends has nothing of its own. -/
  attributes_of_away : (∀ f ∈ fields, f.way ≠ way) → attributes node = []
  type_of_property : ∀ f ∈ fields, ∀ name rest, f.way = way ++ Hop.property name :: rest →
    Entries.get? "type" node = some (.str "object")
  type_of_elements : ∀ f ∈ fields, ∀ rest, f.way = way ++ Hop.elements :: rest →
    Entries.get? "type" node = some (.str "array")
  type_of_nothing : fields = [] → Entries.get? "type" node = some (.str "object")
  required : Entries.get? "required" node =
    if namesAt fields way = [] then none
    else some (.arr ((namesAt fields way).map .str))
  properties : ∀ v, Entries.get? "properties" node = some v →
    ∃ members, v = .obj members ∧ members ≠ []
  properties_iff : (Entries.get? "properties" node).isSome ↔
    ∃ f ∈ fields, ∃ name rest, f.way = way ++ Hop.property name :: rest
  items_iff : (Entries.get? "items" node).isSome ↔
    ∃ f ∈ fields, ∃ rest, f.way = way ++ Hop.elements :: rest

theorem isSome_propertiesMember?_iff (s : Schema) :
    s.propertiesMember?.isSome ↔ ∃ name, (s.at? [.property name]).isSome := by
  cases s with
  | scalar => simp [propertiesMember?, at?]
  | array => simp [propertiesMember?, at?]
  | object marks required properties =>
    cases properties with
    | nil => simp [propertiesMember?, at?_property, Entries.get?]
    | cons e rest =>
      simp only [propertiesMember?, List.isEmpty_cons, Bool.false_eq_true, if_false,
        Option.isSome_some, true_iff]
      exact ⟨e.1, by simp [at?_property, Entries.get?]⟩

theorem isSome_itemsMember?_iff (s : Schema) :
    s.itemsMember?.isSome ↔ (s.at? [.elements]).isSome := by
  cases s with
  | scalar => simp [itemsMember?, at?]
  | array marks items => cases items <;> simp [itemsMember?, at?_elements]
  | object => simp [itemsMember?, at?]

theorem exists_of_propertiesMember? {s : Schema} {v : Json} (h : s.propertiesMember? = some v) :
    ∃ members, v = .obj members ∧ members ≠ [] := by
  cases s with
  | scalar => contradiction
  | array => contradiction
  | object marks required properties =>
    cases properties with
    | nil => contradiction
    | cons e rest =>
      cases h
      exact ⟨_, rfl, by rw [propertyMembers]; exact List.cons_ne_nil _ _⟩

theorem requiredMember?_label (s : Schema) :
    s.requiredMember? =
      if s.label.required = [] then none else some (.arr (s.label.required.map .str)) := by
  cases s with
  | scalar => rfl
  | array => rfl
  | object marks required properties => cases required <;> rfl

theorem name_of_object {s : Schema} (object : s.kind = .object) : s.type.name = "object" := by
  cases s <;> first | contradiction | rfl

theorem name_of_array {s : Schema} (array : s.kind = .array) : s.type.name = "array" := by
  cases s <;> first | contradiction | rfl

theorem root_of_declares_nil (declares : Declares [] d) : d.root = .bare .object := by
  apply declares.sound.fresh
  cases leaf : d.root.isLeaf with
  | true => rfl
  | false =>
    have isSome : (d.labels []).isSome := by
      rw [Draft.labels_of_held leaf, labelAt?_nil]
      rfl
    simpa using (declares.isSome_iff []).mp isSome

/-- A node that is made by fields is written as they say. -/
theorem nodeOf_members (declares : Declares fields d) (neat : Neat d.root)
    (distinct : (fields.map Field.way).Nodup) {way : List Hop} {t : Schema}
    (found : d.root.at? way = some t) : NodeOf fields way t.members := by
  have tidy := neat.tidy way t found
  have label := declares.labelOf found
  have type : Entries.get? "type" t.members = some (.str t.type.name) := by
    rw [get?_members tidy]
    rfl
  have attributes := attributes_members tidy
  rw [← marks_label] at attributes
  constructor
  case type_of_end =>
    intro f mem here
    rw [type, ← type_label, label.type_of_mem distinct mem here]
  case attributes_of_end =>
    intro f mem here
    rw [attributes, label.keywords_of_mem distinct mem here]
  case attributes_of_away =>
    intro away
    rw [attributes, label.keywords_of_away away]
  case type_of_property =>
    intro f mem name rest eq
    have kind := label.kind f mem _ eq.symm
    rw [kind_label] at kind
    rw [type, name_of_object kind]
  case type_of_elements =>
    intro f mem rest eq
    have kind := label.kind f mem _ eq.symm
    rw [kind_label] at kind
    rw [type, name_of_array kind]
  case type_of_nothing =>
    intro nil
    subst nil
    cases way with
    | nil =>
      rw [at?_nil, root_of_declares_nil declares] at found
      cases found
      exact type
    | cons hop way =>
      have isSome := (declares.isSome_at?_iff (List.cons_ne_nil hop way)).mp (by rw [found]; rfl)
      simp at isSome
  case required =>
    rw [get?_members tidy, ← label.required]
    exact requiredMember?_label t
  case properties =>
    intro v member
    rw [get?_members tidy, if_pos rfl] at member
    exact exists_of_propertiesMember? member
  case properties_iff =>
    rw [get?_members tidy, if_pos rfl, isSome_propertiesMember?_iff]
    simp only [declares.isSome_at?_hop_iff found]
    exact ⟨fun ⟨name, f, mem, rest, eq⟩ => ⟨f, mem, name, rest, eq⟩,
      fun ⟨f, mem, name, rest, eq⟩ => ⟨name, f, mem, rest, eq⟩⟩
  case items_iff =>
    rw [get?_members tidy, if_neg (by decide), if_pos rfl, isSome_itemsMember?_iff,
      declares.isSome_at?_hop_iff found]

/-- The version that the root carries changes nothing of what the fields say of it. -/
theorem NodeOf.insert_version {way : List Hop} {members : List (String × Json)}
    (node : NodeOf fields way members) (ascending : Entries.Ascending members) :
    NodeOf fields way (Entries.insert "$schema" (.str version) members) := by
  have other (key : String) (ne : key ≠ "$schema") :
      Entries.get? key (Entries.insert "$schema" (.str version) members) =
        Entries.get? key members := Entries.get?_insert_of_ne ne _ _
  have type := other "type" (by decide)
  have required := other "required" (by decide)
  have properties := other "properties" (by decide)
  have items := other "items" (by decide)
  have attributes := attributes_insert_version ascending version
  constructor
  case type_of_end => rw [type]; exact node.type_of_end
  case attributes_of_end => rw [attributes]; exact node.attributes_of_end
  case attributes_of_away => rw [attributes]; exact node.attributes_of_away
  case type_of_property => rw [type]; exact node.type_of_property
  case type_of_elements => rw [type]; exact node.type_of_elements
  case type_of_nothing => rw [type]; exact node.type_of_nothing
  case required => rw [required]; exact node.required
  case properties => rw [properties]; exact node.properties
  case properties_iff => rw [properties]; exact node.properties_iff
  case items_iff => rw [items]; exact node.items_iff

/-- The document of fields with different plain fullnames. -/
theorem ofFields_document (plain : ∀ f ∈ fields, Fullname.IsPlain f.fullname)
    (distinct : (fields.map Field.fullname).Nodup)
    (ok : Schema.ofFields version fields = .ok doc) :
    (∀ f ∈ fields, (doc.at? f.way).isSome) ∧
      ∀ way v, doc.at? way = some v →
        (way = [] ∨ ∃ f ∈ fields, way <+: f.way) ∧
        ∃ node, v = .obj node ∧ NodeOf fields way node ∧
          Entries.get? "$schema" node = if way = [] then some (.str version) else none := by
  obtain ⟨d, drafted, rfl⟩ := draft_of_ok ok
  have placed : ∀ f ∈ fields, f.Placed := fun f mem => Field.placed_of_isPlain (plain f mem)
  have declares := declares_ofFields placed drafted
  have neat := neat_ofFields placed drafted
  have distinctWays := Field.nodup_way plain distinct
  constructor
  · intro f mem
    have ne := Field.way_ne_nil (placed f mem).plain (placed f mem).nonempty
    rw [at?_document neat, Option.isSome_map]
    exact (declares.isSome_at?_iff ne).mpr ⟨f, mem, List.prefix_rfl⟩
  · intro way v found
    rw [at?_document neat] at found
    obtain ⟨t, at', rfl⟩ := Option.map_eq_some_iff.mp found
    have node := nodeOf_members declares neat distinctWays at'
    have tidy := neat.tidy way t at'
    by_cases root : way = []
    · subst root
      rw [at?_nil] at at'
      cases at'
      refine ⟨.inl rfl, _, rfl, node.insert_version (ascending_members tidy), ?_⟩
      simp
    · refine ⟨.inr ((declares.isSome_at?_iff root).mp (by rw [at']; rfl)), t.members,
        if_neg root, node, ?_⟩
      rw [if_neg root, get?_members tidy]
      exact tidy.get?_eq_none (by decide)

/-- An array that is declared with keywords of its own, after and before what it holds. -/
def orderFields : List Field :=
  [{ fullname := "id", type := .scalar .integer, required := true },
   { fullname := "items[].price", type := .scalar .number },
   { fullname := "items", type := .array, required := true,
     extra := KeyMap.ofList [("maxItems", "3")] },
   { fullname := "items[]", type := .object, required := true }]

theorem ofFields_document_order :
    ∃ doc, Schema.ofFields "v1" orderFields = .ok doc ∧
      (∀ f ∈ orderFields, (doc.at? f.way).isSome) ∧
      ∃ node, doc = .obj node ∧
        Entries.get? "required" node = some (.arr [.str "id", .str "items"]) := by
  have plain : ∀ f ∈ orderFields, Fullname.IsPlain f.fullname := by decide
  have distinct : (orderFields.map Field.fullname).Nodup := by decide
  obtain ⟨doc, ok⟩ : ∃ doc, Schema.ofFields "v1" orderFields = .ok doc := ⟨_, rfl⟩
  obtain ⟨reached, nodes⟩ := ofFields_document plain distinct ok
  obtain ⟨-, node, eq, said, -⟩ := nodes [] doc rfl
  have names : namesAt orderFields [] = ["id", "items"] := by decide
  refine ⟨doc, ok, reached, node, eq, ?_⟩
  rw [said.required, names]
  rfl

end ShapeLines.Schema
