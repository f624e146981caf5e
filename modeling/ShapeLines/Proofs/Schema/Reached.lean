import ShapeLines.Proofs.Schema.Flattened
import ShapeLines.Proofs.Schema.Reading

/-!
# The nodes of a document that is read

Reading goes from the root of a document through the properties of its objects and the elements of
its arrays. The nodes that are reached in this way are the nodes of the schema that is read, each
with the type, the keywords and the listed names of its members. Anything else in the document, such
as the `properties` of a scalar, is passed over.
-/

namespace ShapeLines

namespace Json

theorem Canonical.ascending {members : List (String × Json)}
    (canonical : Canonical (.obj members)) : Entries.Ascending members := by
  rw [Canonical] at canonical
  exact canonical.1

theorem canonical_of_get? {members : List (String × Json)} (canonical : CanonicalMembers members)
    {key : String} {v : Json} (found : Entries.get? key members = some v) : Canonical v := by
  induction members with
  | nil => contradiction
  | cons e rest ih =>
    obtain ⟨k, w⟩ := e
    rw [CanonicalMembers] at canonical
    rw [Entries.get?] at found
    split at found
    · cases found
      exact canonical.1
    · exact ih canonical.2 found

theorem Canonical.get? {members : List (String × Json)} (canonical : Canonical (.obj members))
    {key : String} {v : Json} (found : Entries.get? key members = some v) : Canonical v := by
  rw [Canonical] at canonical
  exact canonical_of_get? canonical.2 found

end Json

namespace Schema

variable {place : String} {node : List (String × Json)} {doc v : Json} {s t : Schema}
  {way : List Hop} {name : String}

/-- The type of a node of a document, which may be implied by what the node holds. -/
def nodeType? (node : List (String × Json)) : Option FieldType :=
  (typeOf "" node).toOption

/-- The object lists the name as required. -/
def ListsName (node : List (String × Json)) (name : String) : Prop :=
  ∃ names, Entries.get? "required" node = some (.arr names) ∧ Json.str name ∈ names

/-- The way leads from the root of the document to the node. -/
inductive Reached (doc : Json) : List Hop → List (String × Json) → Prop
  | root {node : List (String × Json)} : doc = .obj node → Reached doc [] node
  | property {way : List Hop} {node properties child : List (String × Json)} {name : String} :
      Reached doc way node → nodeType? node = some .object →
      Entries.get? "properties" node = some (.obj properties) →
      Entries.get? name properties = some (.obj child) →
      Reached doc (way ++ [.property name]) child
  | elements {way : List Hop} {node child : List (String × Json)} :
      Reached doc way node → nodeType? node = some .array →
      Entries.get? "items" node = some (.obj child) → Reached doc (way ++ [.elements]) child

/-- Every property of an object in the document has a name without dots and brackets. -/
def PlainNames (doc : Json) : Prop :=
  ∀ way node properties, Reached doc way node → nodeType? node = some .object →
    Entries.get? "properties" node = some (.obj properties) →
    ∀ e ∈ properties, e.1 ≠ "" ∧ Fullname.isUnmarked e.1 = true

theorem PlainNames.named (plain : PlainNames doc) (reached : Reached doc way node) :
    Way.Named way := by
  induction reached with
  | root => exact Way.named_nil
  | property before object properties found ih =>
    intro name mem
    rcases List.mem_append.mp mem with mem | last
    · exact ih name mem
    · cases List.mem_singleton.mp last
      exact plain _ _ _ before object properties _ (Entries.mem_of_get? found)
  | elements before array items ih =>
    intro name mem
    rcases List.mem_append.mp mem with mem | last
    · exact ih name mem
    · exact nomatch List.mem_singleton.mp last

theorem typeOf_eq_ok_iff {type : FieldType} :
    typeOf place node = .ok type ↔ nodeType? node = some type := by
  unfold nodeType? typeOf
  cases Entries.get? "type" node with
  | none =>
    dsimp only
    split
    · simp [Except.toOption]
    · split <;> simp [Except.toOption]
  | some v =>
    cases v with
    | str name =>
      dsimp only
      cases FieldType.ofShortName? name <;> simp [Except.toOption]
    | _ => simp [Except.toOption]

theorem exists_members_of_ofJson (ok : ofJson place v = .ok s) : ∃ node, v = .obj node := by
  cases v with
  | obj node => exact ⟨node, rfl⟩
  | _ => simp [ofJson] at ok

/-- What is read from a node: its form is that of its type, its marks are its own. -/
theorem ofJson_cases (ok : ofJson place (.obj node) = .ok s) :
    (∃ type, nodeType? node = some (.scalar type) ∧ s = .scalar type (marksOf node)) ∨
    (∃ items, nodeType? node = some .array ∧ elementsMember place node = .ok items ∧
      s = .array (marksOf node) items) ∨
    ∃ required properties, nodeType? node = some .object ∧
      requiredNames place node = .ok required ∧
      Schema.propertiesMember place node = .ok properties ∧
      s = .object (marksOf node) required properties := by
  rw [ofJson] at ok
  cases typed : typeOf place node with
  | error e => simp [typed, bind, Except.bind] at ok
  | ok type =>
    rw [typed] at ok
    have nodeType := typeOf_eq_ok_iff.mp typed
    cases type with
    | scalar type =>
      cases ok
      exact .inl ⟨type, nodeType, rfl⟩
    | array =>
      right; left
      cases elements : elementsMember place node with
      | error e => simp [elements, bind, Except.bind] at ok
      | ok items =>
        simp only [elements, bind, Except.bind] at ok
        cases ok
        exact ⟨items, nodeType, rfl, rfl⟩
    | object =>
      right; right
      cases names : requiredNames place node with
      | error e => simp [names, bind, Except.bind] at ok
      | ok required =>
        cases each : Schema.propertiesMember place node with
        | error e => simp [names, each, bind, Except.bind] at ok
        | ok properties =>
          simp only [names, each, bind, Except.bind] at ok
          cases ok
          exact ⟨required, properties, nodeType, rfl, rfl, rfl⟩

theorem nodeType?_of_ofJson (ok : ofJson place (.obj node) = .ok s) :
    nodeType? node = some s.type := by
  rcases ofJson_cases ok with ⟨type, nodeType, rfl⟩ | ⟨items, nodeType, -, rfl⟩ |
    ⟨required, properties, nodeType, -, -, rfl⟩ <;> exact nodeType

theorem marks_of_ofJson (ok : ofJson place (.obj node) = .ok s) : s.marks = marksOf node := by
  rcases ofJson_cases ok with ⟨type, -, rfl⟩ | ⟨items, -, -, rfl⟩ |
    ⟨required, properties, -, -, -, rfl⟩ <;> rfl

theorem eq_map_of_mapM_string? {values : List Json} {names : List String}
    (ok : values.mapM Json.string? = some names) : values = names.map .str := by
  induction values generalizing names with
  | nil =>
    cases ok
    rfl
  | cons v rest ih =>
    rw [List.mapM_cons] at ok
    obtain ⟨name, text, ok⟩ := Option.bind_eq_some_iff.mp ok
    obtain ⟨others, mapped, eq⟩ := Option.bind_eq_some_iff.mp ok
    cases eq
    have str : v = .str name := by
      cases v with
      | str text' =>
        cases text
        rfl
      | _ => contradiction
    rw [List.map_cons, str, ih mapped]

theorem mem_requiredNames {names : List String} (ok : requiredNames place node = .ok names) :
    name ∈ names ↔ ListsName node name := by
  unfold requiredNames at ok
  unfold ListsName
  split at ok
  · next none =>
    cases ok
    simp [none]
  · next b flag =>
    cases ok
    simp [flag]
  · next values listed =>
    cases mapped : values.mapM Json.string? with
    | none => simp [mapped] at ok
    | some others =>
      rw [mapped] at ok
      cases ok
      rw [eq_map_of_mapM_string? mapped] at listed
      simp [listed]
  · contradiction

/-- The names that an object that is read lists. -/
theorem mem_required_of_ofJson (ok : ofJson place (.obj node) = .ok s) (object : s.kind = .object) :
    name ∈ s.label.required ↔ ListsName node name := by
  rcases ofJson_cases ok with ⟨type, -, rfl⟩ | ⟨items, -, -, rfl⟩ |
    ⟨required, properties, -, names, -, rfl⟩
  · contradiction
  · contradiction
  · exact mem_requiredNames names

theorem forall₂_eachProperty {members : List (String × Json)} {properties : List (String × Schema)}
    (ok : eachProperty place members = .ok properties) :
    List.Forall₂ (fun m e => m.1 = e.1 ∧ ofJson (Fullname.join place m.1) m.2 = .ok e.2)
      members properties := by
  induction members generalizing properties with
  | nil =>
    rw [eachProperty] at ok
    cases ok
    exact .nil
  | cons m rest ih =>
    obtain ⟨key, v⟩ := m
    rw [eachProperty] at ok
    cases read : ofJson (Fullname.join place key) v with
    | error e => simp [read, bind, Except.bind] at ok
    | ok child =>
      cases others : eachProperty place rest with
      | error e => simp [read, others, bind, Except.bind] at ok
      | ok tail =>
        simp only [read, others, bind, Except.bind] at ok
        cases ok
        exact .cons ⟨rfl, read⟩ (ih others)

theorem get?_eachProperty {members : List (String × Json)} {properties : List (String × Schema)}
    (ok : eachProperty place members = .ok properties) (t : Schema) :
    Entries.get? name properties = some t ↔ ∃ child, Entries.get? name members = some (.obj child) ∧
      ofJson (Fullname.join place name) (.obj child) = .ok t := by
  have related := forall₂_eachProperty ok
  clear ok
  induction related with
  | nil => simp [Entries.get?]
  | @cons m e members properties both _ ih =>
    obtain ⟨key, v⟩ := m
    obtain ⟨key', r⟩ := e
    obtain ⟨rfl, read⟩ := both
    simp only [Entries.get?] at ih ⊢
    by_cases eq : name = key
    · subst eq
      obtain ⟨child, rfl⟩ := exists_members_of_ofJson read
      simp only [if_true, Option.some.injEq, Json.obj.injEq, exists_eq_left', read, Except.ok.injEq]
    · simp only [if_neg eq, ih]

theorem exists_eachProperty {members : List (String × Json)} {properties : List (String × Schema)}
    (ok : eachProperty place members = .ok properties)
    (found : Entries.get? name members = some v) :
    ∃ t, ofJson (Fullname.join place name) v = .ok t := by
  have related := forall₂_eachProperty ok
  clear ok
  induction related with
  | nil => contradiction
  | @cons m e members properties both _ ih =>
    rw [Entries.get?] at found
    split at found
    · next eq =>
      cases found
      exact ⟨e.2, eq ▸ both.2⟩
    · exact ih found

theorem map_fst_eachProperty {members : List (String × Json)} {properties : List (String × Schema)}
    (ok : eachProperty place members = .ok properties) :
    properties.map Prod.fst = members.map Prod.fst := by
  have related := forall₂_eachProperty ok
  clear ok
  induction related with
  | nil => rfl
  | cons both _ ih => rw [List.map_cons, List.map_cons, ih, both.1]

theorem propertiesMember_cases {properties : List (String × Schema)}
    (ok : Schema.propertiesMember place node = .ok properties) :
    (Entries.get? "properties" node = none ∧ properties = []) ∨
      ∃ members, Entries.get? "properties" node = some (.obj members) ∧
        eachProperty place members = .ok properties := by
  rw [propertiesMember_eq] at ok
  cases member : Entries.get? "properties" node with
  | none =>
    rw [member] at ok
    cases ok
    exact .inl ⟨rfl, rfl⟩
  | some v =>
    rw [member] at ok
    cases v with
    | obj members => exact .inr ⟨members, rfl, ok⟩
    | _ => simp [propertiesOf] at ok

theorem eachProperty_of_member {members : List (String × Json)}
    {properties : List (String × Schema)}
    (ok : Schema.propertiesMember place node = .ok properties)
    (member : Entries.get? "properties" node = some (.obj members)) :
    eachProperty place members = .ok properties := by
  rw [propertiesMember_eq, member] at ok
  exact ok

theorem elementsMember_cases {items : Option Schema} (ok : elementsMember place node = .ok items) :
    (Entries.get? "items" node = none ∧ items = none) ∨
      ∃ child t, Entries.get? "items" node = some (.obj child) ∧
        ofJson (Fullname.element place) (.obj child) = .ok t ∧ items = some t := by
  rw [elementsMember_eq] at ok
  cases member : Entries.get? "items" node with
  | none =>
    rw [member] at ok
    cases ok
    exact .inl ⟨rfl, rfl⟩
  | some v =>
    rw [member] at ok
    cases read : ofJson (Fullname.element place) v with
    | error e => simp [read, Except.map] at ok
    | ok t =>
      obtain ⟨child, rfl⟩ := exists_members_of_ofJson read
      simp only [read, Except.map, Except.ok.injEq] at ok
      exact .inr ⟨child, t, rfl, read, ok.symm⟩

theorem at?_property_of_ofJson (ok : ofJson place (.obj node) = .ok s) :
    s.at? [.property name] = some t ↔ nodeType? node = some .object ∧ ∃ properties child,
      Entries.get? "properties" node = some (.obj properties) ∧
      Entries.get? name properties = some (.obj child) ∧
      ofJson (Fullname.join place name) (.obj child) = .ok t := by
  rcases ofJson_cases ok with ⟨type, nodeType, rfl⟩ | ⟨items, nodeType, -, rfl⟩ |
    ⟨required, properties, nodeType, -, each, rfl⟩
  · simp [at?, nodeType]
  · cases items <;> simp [at?, nodeType]
  · rw [at?_singleton_property]
    rcases propertiesMember_cases each with ⟨member, rfl⟩ | ⟨members, member, read⟩
    · simp [member, Entries.get?]
    · simp [member, get?_eachProperty read, nodeType]

theorem at?_elements_of_ofJson (ok : ofJson place (.obj node) = .ok s) :
    s.at? [.elements] = some t ↔ nodeType? node = some .array ∧ ∃ child,
      Entries.get? "items" node = some (.obj child) ∧
      ofJson (Fullname.element place) (.obj child) = .ok t := by
  rcases ofJson_cases ok with ⟨type, nodeType, rfl⟩ | ⟨items, nodeType, elements, rfl⟩ |
    ⟨required, properties, nodeType, -, -, rfl⟩
  · simp [at?, nodeType]
  · rw [at?_singleton_elements]
    rcases elementsMember_cases elements with ⟨member, rfl⟩ | ⟨child, r, member, read, rfl⟩
    · simp [member]
    · simp [member, read, nodeType]
  · simp [at?, nodeType]

/-- A property that could not be read would stop the reading of its object. -/
theorem exists_at?_property (ok : ofJson place (.obj node) = .ok s)
    (object : nodeType? node = some .object) {properties child : List (String × Json)}
    (member : Entries.get? "properties" node = some (.obj properties))
    (found : Entries.get? name properties = some (.obj child)) :
    ∃ t, s.at? [.property name] = some t ∧
      ofJson (Fullname.join place name) (.obj child) = .ok t := by
  rcases ofJson_cases ok with ⟨type, nodeType, -⟩ | ⟨items, nodeType, -⟩ |
    ⟨required, schemas, -, -, each, rfl⟩
  · rw [object] at nodeType
    cases nodeType
  · rw [object] at nodeType
    cases nodeType
  · obtain ⟨t, read⟩ := exists_eachProperty (eachProperty_of_member each member) found
    have below := (at?_property_of_ofJson ok).mpr ⟨object, properties, child, member, found, read⟩
    exact ⟨t, below, read⟩

theorem exists_at?_elements (ok : ofJson place (.obj node) = .ok s)
    (array : nodeType? node = some .array) {child : List (String × Json)}
    (member : Entries.get? "items" node = some (.obj child)) :
    ∃ t, s.at? [.elements] = some t ∧ ofJson (Fullname.element place) (.obj child) = .ok t := by
  rcases ofJson_cases ok with ⟨type, nodeType, -⟩ | ⟨items, -, each, rfl⟩ |
    ⟨required, schemas, nodeType, -⟩
  · rw [array] at nodeType
    cases nodeType
  · rcases elementsMember_cases each with ⟨none, -⟩ | ⟨child', t, member', read, -⟩
    · rw [member] at none
      contradiction
    · rw [member] at member'
      cases member'
      exact ⟨t, (at?_elements_of_ofJson ok).mpr ⟨array, child, member, read⟩, read⟩
  · rw [array] at nodeType
    cases nodeType

/-- The nodes that are reached are those of the schema that is read. -/
theorem Reached.at? (ok : ofJson "" doc = .ok s) (reached : Reached doc way node) :
    ∃ t, s.at? way = some t ∧ ofJson (Way.place way) (.obj node) = .ok t := by
  induction reached with
  | root eq =>
    subst eq
    exact ⟨s, at?_nil s, ok⟩
  | property _ object member found ih =>
    obtain ⟨p, at', read⟩ := ih
    obtain ⟨t, below, readChild⟩ := exists_at?_property read object member found
    refine ⟨t, ?_, ?_⟩
    · rw [at?_append, at', Option.bind_some, below]
    · rw [Way.place_append_singleton]
      exact readChild
  | elements _ array member ih =>
    obtain ⟨p, at', read⟩ := ih
    obtain ⟨t, below, readChild⟩ := exists_at?_elements read array member
    refine ⟨t, ?_, ?_⟩
    · rw [at?_append, at', Option.bind_some, below]
    · rw [Way.place_append_singleton]
      exact readChild

/-- Every node of the schema that is read has been reached in the document. -/
theorem exists_reached_of_at? (ok : ofJson "" doc = .ok s) (found : s.at? way = some t) :
    ∃ node, Reached doc way node ∧ ofJson (Way.place way) (.obj node) = .ok t := by
  induction way using List.reverseRecOn generalizing t with
  | nil =>
    rw [at?_nil] at found
    cases found
    obtain ⟨node, rfl⟩ := exists_members_of_ofJson ok
    exact ⟨node, .root rfl, ok⟩
  | append_singleton way hop ih =>
    rw [at?_append] at found
    obtain ⟨p, at', below⟩ := Option.bind_eq_some_iff.mp found
    obtain ⟨node, reached, read⟩ := ih at'
    rw [Way.place_append_singleton]
    cases hop with
    | property name =>
      obtain ⟨object, properties, child, member, found', readChild⟩ :=
        (at?_property_of_ofJson read).mp below
      exact ⟨child, .property reached object member found', readChild⟩
    | elements =>
      obtain ⟨array, child, member, readChild⟩ := (at?_elements_of_ofJson read).mp below
      exact ⟨child, .elements reached array member, readChild⟩

theorem ordered_of_ofJson (canonical : v.Canonical) (ok : ofJson place v = .ok s) : Ordered s := by
  induction s using hopInduction generalizing place v with
  | step s ih =>
    obtain ⟨node, rfl⟩ := exists_members_of_ofJson ok
    refine ordered_iff.mpr ⟨fun marks required properties eq => ?_, fun hop t found => ?_⟩
    · subst eq
      rcases ofJson_cases ok with ⟨type, -, eq⟩ | ⟨items, -, -, eq⟩ |
        ⟨required', properties', -, -, each, eq⟩
      · contradiction
      · contradiction
      · cases eq
        rcases propertiesMember_cases each with ⟨-, rfl⟩ | ⟨members, member, read⟩
        · exact List.Pairwise.nil
        · rw [Entries.ascending_iff_map, map_fst_eachProperty read, ← Entries.ascending_iff_map]
          exact (canonical.get? member).ascending
    · cases hop with
      | property name =>
        obtain ⟨-, properties, child, member, found', read⟩ := (at?_property_of_ofJson ok).mp found
        exact ih (.property name) t found ((canonical.get? member).get? found') read
      | elements =>
        obtain ⟨-, child, member, read⟩ := (at?_elements_of_ofJson ok).mp found
        exact ih .elements t found (canonical.get? member) read

theorem Reached.ascending (canonical : doc.Canonical) (reached : Reached doc way node) :
    Entries.Ascending node := by
  suffices inside : Json.Canonical (.obj node) from inside.ascending
  induction reached with
  | root eq => exact eq ▸ canonical
  | property _ _ member found ih => exact (ih.get? member).get? found
  | elements _ _ member ih => exact ih.get? member

end Schema

end ShapeLines
