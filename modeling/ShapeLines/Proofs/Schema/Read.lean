import ShapeLines.Proofs.Results
import ShapeLines.Proofs.Schema.Written
import ShapeLines.Schema.Flatten

/-!
# Reading a written schema

A neat schema is read back from its document, and so is the version that the document carries.
-/

namespace ShapeLines.Schema

variable {s t : Schema} {members : List (String × Json)}

theorem sizeOf_lt_of_get? {name : String} {properties : List (String × Schema)}
    (found : Entries.get? name properties = some t) : sizeOf t < sizeOf properties := by
  have mem := Entries.mem_of_get? found
  have lt := List.sizeOf_lt_of_mem mem
  simp at lt
  omega

theorem sizeOf_lt_of_at? {hop : Hop} (found : s.at? [hop] = some t) : sizeOf t < sizeOf s := by
  cases s with
  | scalar => cases hop <;> simp [at?] at found
  | array marks items =>
    cases hop with
    | property => simp [at?] at found
    | elements =>
      rw [at?_elements] at found
      cases items with
      | none => simp at found
      | some items =>
        have same : items = t := by simpa using found
        subst same
        simp
        omega
  | object marks required properties =>
    cases hop with
    | elements => simp [at?] at found
    | property name =>
      rw [at?_property] at found
      cases there : Entries.get? name properties with
      | none => simp [there] at found
      | some r =>
        have same : r = t := by simpa [there] using found
        subst same
        have lt := sizeOf_lt_of_get? there
        simp
        omega

/-- What holds of a node if it holds of all nodes one hop below holds of all nodes. -/
theorem hopInduction {P : Schema → Prop}
    (step : ∀ s, (∀ hop t, s.at? [hop] = some t → P t) → P s) (s : Schema) : P s :=
  step s fun _ t _ => hopInduction step t
termination_by sizeOf s
decreasing_by exact sizeOf_lt_of_at? ‹_›

theorem elementsMember_eq (place : String) (members : List (String × Json)) :
    elementsMember place members =
      match Entries.get? "items" members with
      | some v => (ofJson (Fullname.element place) v).map some
      | none => .ok none := by
  induction members with
  | nil => simp [elementsMember, Entries.get?]
  | cons e rest ih =>
    obtain ⟨key, v⟩ := e
    rw [elementsMember, Entries.get?]
    by_cases eq : key = "items"
    · simp [eq]
    · rw [if_neg eq, if_neg (Ne.symm eq), ih]

theorem propertiesMember_eq (place : String) (members : List (String × Json)) :
    Schema.propertiesMember place members =
      match Entries.get? "properties" members with
      | some v => propertiesOf place v
      | none => .ok [] := by
  induction members with
  | nil => simp [Schema.propertiesMember, Entries.get?]
  | cons e rest ih =>
    obtain ⟨key, v⟩ := e
    rw [Schema.propertiesMember, Entries.get?]
    by_cases eq : key = "properties"
    · simp [eq]
    · rw [if_neg eq, if_neg (Ne.symm eq), ih]

theorem eachProperty_propertyMembers {properties : List (String × Schema)}
    (reads : ∀ e ∈ properties, ∀ place, ofJson place (.obj e.2.members) = .ok e.2)
    (place : String) : eachProperty place (propertyMembers properties) = .ok properties := by
  induction properties with
  | nil => simp [propertyMembers, eachProperty]
  | cons e rest ih =>
    obtain ⟨name, s⟩ := e
    have first := reads (name, s) List.mem_cons_self (Fullname.join place name)
    have others := ih fun e mem => reads e (List.mem_cons_of_mem _ mem)
    rw [propertyMembers, eachProperty, first, others]
    rfl

/-- Members that a node is read from. -/
structure Reads (s : Schema) (members : List (String × Json)) : Prop where
  type : Entries.get? "type" members = some (.str s.type.name)
  required : Entries.get? "required" members = s.requiredMember?
  properties : Entries.get? "properties" members = s.propertiesMember?
  items : Entries.get? "items" members = s.itemsMember?
  keywords : attributes members = s.marks.keywords

theorem marksOf_eq (reads : Reads s members) (flag : s.marks.flag = false) :
    marksOf members = s.marks := by
  have noFlag : (marksOf members).flag = s.marks.flag := by
    unfold marksOf
    dsimp only
    rw [reads.required, flag]
    cases s with
    | scalar => rfl
    | array => rfl
    | object marks required properties => cases required <;> rfl
  have keywords : (marksOf members).keywords = s.marks.keywords := reads.keywords
  calc
    marksOf members = ⟨(marksOf members).flag, (marksOf members).keywords⟩ := rfl
    _ = s.marks := by rw [noFlag, keywords]

theorem requiredNames_eq {marks : Marks} {required : List String}
    {properties : List (String × Schema)}
    (reads : Reads (.object marks required properties) members) (place : String) :
    requiredNames place members = .ok required := by
  unfold requiredNames
  rw [reads.required]
  cases required with
  | nil => rfl
  | cons name rest =>
    have mapped : ((name :: rest).map Json.str).mapM Json.string? = some (name :: rest) := by
      refine Results.mapM_map_of_inverse ?_ (name :: rest)
      exact fun _ => rfl
    simp only [requiredMember?, List.isEmpty_cons, Bool.false_eq_true, if_false, mapped]

theorem ofJson_of_reads (neat : Neat s) (reads : Reads s members)
    (below : ∀ hop t, s.at? [hop] = some t → ∀ place, ofJson place (.obj t.members) = .ok t)
    (place : String) : ofJson place (.obj members) = .ok s := by
  have flag := (neat.tidy [] s (at?_nil s)).flag
  have marks := marksOf_eq reads flag
  have type : typeOf place members = .ok s.type := by
    unfold typeOf
    rw [reads.type]
    simp only [FieldType.ofShortName?_name]
  rw [ofJson, type]
  simp only [bind, Except.bind]
  cases s with
  | scalar type own =>
    rw [marks]
    rfl
  | array own items =>
    have elements : elementsMember place members = .ok items := by
      rw [elementsMember_eq, reads.items]
      cases items with
      | none => rfl
      | some items =>
        have read := below .elements items (by simp [at?_elements])
        simp only [itemsMember?, read]
        rfl
    simp only [Schema.type, elements, marks]
    rfl
  | object own required properties =>
    have listed := requiredNames_eq reads place
    have each : Schema.propertiesMember place members = .ok properties := by
      rw [propertiesMember_eq, reads.properties]
      cases properties with
      | nil => rfl
      | cons e rest =>
        simp only [propertiesMember?, List.isEmpty_cons, Bool.false_eq_true, if_false,
          propertiesOf]
        apply eachProperty_propertyMembers
        intro e' mem
        have found := neat.ordered.ascending.get?_of_mem mem
        exact below (.property e'.1) e'.2 (by simp [at?_property, found])
    simp only [Schema.type, listed, each, marks]
    rfl

theorem reads_members (tidy : s.marks.Tidy) : Reads s s.members where
  type := by rw [get?_members tidy]; rfl
  required := by rw [get?_members tidy]; rfl
  properties := by rw [get?_members tidy]; rfl
  items := by rw [get?_members tidy]; rfl
  keywords := attributes_members tidy

theorem ofJson_members (neat : Neat s) (place : String) :
    ofJson place (.obj s.members) = .ok s := by
  induction s using hopInduction generalizing place with
  | step s ih =>
    refine ofJson_of_reads neat (reads_members (neat.tidy [] s (at?_nil s))) ?_ place
    exact fun hop t found place => ih hop t found (neat.at? found) place

theorem attributes_insert_version {node : List (String × Json)}
    (ascending : Entries.Ascending node) (version : String) :
    attributes (Entries.insert "$schema" (.str version) node) = attributes node := by
  refine (ascending_attributes (ascending.insert _ _)).ext (ascending_attributes ascending)
    fun key => ?_
  rw [get?_attributes, get?_attributes, Entries.get?_insert]
  by_cases eq : key = "$schema"
  · subst eq
    rfl
  · rw [if_neg eq]

theorem Reads.insert_version (reads : Reads s members) (ascending : Entries.Ascending members)
    (version : String) : Reads s (Entries.insert "$schema" (.str version) members) where
  type := by rw [Entries.get?_insert_of_ne (by decide), reads.type]
  required := by rw [Entries.get?_insert_of_ne (by decide), reads.required]
  properties := by rw [Entries.get?_insert_of_ne (by decide), reads.properties]
  items := by rw [Entries.get?_insert_of_ne (by decide), reads.items]
  keywords := by rw [attributes_insert_version ascending, reads.keywords]

theorem described_document (neat : Neat s) (version : String) :
    Described.ofJson (document version s) = .ok ⟨version, Header.defaultId, s⟩ := by
  have tidy := neat.tidy [] s (at?_nil s)
  have reads := (reads_members tidy).insert_version (ascending_members tidy) version
  have root : ofJson "" (document version s) = .ok s :=
    ofJson_of_reads neat reads (fun _ t found place => ofJson_members (neat.at? found) place) ""
  have noId : Entries.get? "$id" s.members = none := by
    rw [get?_members tidy]
    exact tidy.get?_eq_none (by decide)
  have id : rootText? "$id" (document version s) = none := by
    rw [document, rootText?, Entries.get?_insert_of_ne (by decide), noId]
    rfl
  have versionText : rootText? "$schema" (document version s) = some version := by
    rw [document, rootText?, Entries.get?_insert_self]
    rfl
  unfold Described.ofJson
  rw [root, id, versionText]
  rfl

/-- The document of a draft is read as the fields of its root. -/
theorem ofSchemaJson_document (neat : Neat s) (version : String) :
    Shape.ofSchemaJson (document version s) =
      .ok (Shape.ofDescribed ⟨version, Header.defaultId, s⟩) := by
  rw [Shape.ofSchemaJson, described_document neat version]
  rfl

end ShapeLines.Schema
