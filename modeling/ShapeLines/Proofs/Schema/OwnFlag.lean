import ShapeLines.Proofs.Schema.RequiredPlacement

/-!
# Nodes that say of themselves that they are required

A truth value under `required` is about the node itself. It is looked at where the field of the node
is made, but not where it is decided whether there is such a field: only a flag from the object
around makes a field of an object that has properties, and only such a flag goes through an array
without keywords to its elements. The flag of a node is therefore lost if nothing else gives the
node a field.
-/

namespace ShapeLines.Schema

variable {doc : Json} {shape : Shape} {s t : Schema} {u v w way : List Hop}
  {node child : List (String × Json)} {place name : String} {f : Field} {k : Nat}

/-- An array that has elements and no keywords: its elements stand for it. -/
def IsBareArray (node : List (String × Json)) : Prop :=
  nodeType? node = some .array ∧ (∃ items, Entries.get? "items" node = some items) ∧
    attributes node = []

/-- The node at the way is handed a flag: its object lists it, or it stands for the array around it
and that array is handed a flag. -/
inductive Handed (doc : Json) : List Hop → Prop
  | listed {way : List Hop} {name : String} {child : List (String × Json)} :
      Requires doc way name child → Handed doc (way ++ [.property name])
  | elements {way : List Hop} {node : List (String × Json)} :
      Handed doc way → Reached doc way node → IsBareArray node → Handed doc (way ++ [.elements])

/-- A required field is written for the node: under its fullname, or, for an array without keywords,
under that of what it holds. -/
def IsWrittenRequired (shape : Shape) (way : List Hop) (node : List (String × Json)) : Prop :=
  ∃ f ∈ shape.fields, f.required = true ∧ (f.fullname = Way.place way ∨
    IsBareArray node ∧ ∃ k, f.fullname = Fullname.element^[k + 1] (Way.place way))

theorem speaks_of_isShown (ok : ofJson place (.obj node) = .ok t) (shown : t.isShown false = true) :
    Speaks node := by
  rcases ofJson_cases ok with ⟨type, nodeType, rfl⟩ | ⟨items, nodeType, elements, rfl⟩ |
    ⟨names, properties, nodeType, -, each, rfl⟩
  · exact .inl ⟨type, nodeType⟩
  · by_cases own : attributes node = []
    · rcases elementsMember_cases elements with ⟨none, -⟩ | ⟨child, t, -, -, rfl⟩
      · exact .inr (.inr (.inr ⟨nodeType, none⟩))
      · have keywords : (marksOf node).keywords = [] := own
        simp [isShown, keywords] at shown
    · exact .inr (.inl own)
  · by_cases own : attributes node = []
    · have keywords : (marksOf node).keywords = [] := own
      have nothing : properties = [] := by simpa [isShown, keywords] using shown
      rcases propertiesMember_cases each with ⟨none, -⟩ | ⟨members, member, read⟩
      · exact .inr (.inr (.inl ⟨nodeType, .inl none⟩))
      · have names := map_fst_eachProperty read
        rw [nothing] at names
        cases members with
        | nil => exact .inr (.inr (.inl ⟨nodeType, .inr member⟩))
        | cons m rest => contradiction
    · exact .inr (.inl own)

theorem exists_elements_of_isBareArray (ok : ofJson place (.obj node) = .ok t)
    (bare : IsBareArray node) :
    ∃ r, t.at? [.elements] = some r ∧ t.marks.keywords = [] := by
  obtain ⟨nodeType, ⟨items, member⟩, own⟩ := bare
  rcases ofJson_cases ok with ⟨type, nodeType', -⟩ | ⟨items', -, elements, rfl⟩ |
    ⟨names, properties, nodeType', -⟩
  · rw [nodeType] at nodeType'
    cases nodeType'
  · rcases elementsMember_cases elements with ⟨none, -⟩ | ⟨child, r, -, -, rfl⟩
    · rw [member] at none
      contradiction
    · exact ⟨r, at?_singleton_elements _ _, own⟩
  · rw [nodeType] at nodeType'
    cases nodeType'

theorem isBareArray_of_elements (ok : ofJson place (.obj node) = .ok t)
    (elements : (t.at? [.elements]).isSome) (keywords : t.marks.keywords = []) :
    IsBareArray node := by
  obtain ⟨r, below⟩ := Option.isSome_iff_exists.mp elements
  obtain ⟨nodeType, child, member, -⟩ := (at?_elements_of_ofJson ok).mp below
  rw [marks_of_ofJson ok] at keywords
  exact ⟨nodeType, ⟨_, member⟩, keywords⟩

theorem isBareArray_of_bareDepth (ok : ofJson place (.obj node) = .ok t) (ne : t.bareDepth ≠ 0) :
    IsBareArray node := by
  have hidden : t.isShown true = false := by
    by_contra shown
    exact ne (bareDepth_of_isShown (by simpa using shown))
  obtain ⟨r, elements⟩ := elements_of_not_shown hidden
  exact isBareArray_of_elements ok (by simp [elements]) (keywords_of_not_shown hidden)

theorem carried_of_replicate (found : s.at? (w ++ List.replicate k .elements) = some t)
    (flag : carried false (w ++ List.replicate k .elements) s = true) :
    carried false w s = true := by
  induction k generalizing t with
  | zero => simpa using flag
  | succ k ih =>
    rw [List.replicate_succ', ← List.append_assoc] at found flag
    obtain ⟨p, array, eq⟩ := carried_elements found false
    rw [flag] at eq
    exact ih array (Bool.and_eq_true_iff.mp eq.symm).1

namespace ReadAs

/-- The flag that is carried down to a node is the one that it is handed. -/
theorem carried_iff_handed (readAs : ReadAs doc shape s) (found : s.at? way = some t) :
    carried false way s = true ↔ Handed doc way := by
  induction way using List.reverseRecOn generalizing t with
  | nil =>
    constructor
    · intro flag
      contradiction
    · intro handed
      generalize eq : ([] : List Hop) = w at handed
      cases handed <;> simp at eq
  | append_singleton way hop ih =>
    cases hop with
    | property name =>
      rw [← readAs.requires_iff found]
      constructor
      · intro ⟨child, requires⟩
        exact .listed requires
      · intro handed
        generalize eq : way ++ [Hop.property name] = w at handed
        cases handed with
        | listed requires =>
          obtain ⟨rfl, same⟩ := List.append_inj' eq rfl
          cases same
          exact ⟨_, requires⟩
        | elements => simp at eq
    | elements =>
      obtain ⟨p, array, eq⟩ := carried_elements found false
      rw [eq, Bool.and_eq_true, ih array, List.isEmpty_iff]
      constructor
      · intro ⟨handed, keywords⟩
        obtain ⟨node, reached, read⟩ := exists_reached_of_at? readAs.read array
        rw [at?_append, array, Option.bind_some] at found
        exact .elements handed reached (isBareArray_of_elements read (by simp [found]) keywords)
      · intro handed
        generalize eq : way ++ [Hop.elements] = w at handed
        cases handed with
        | listed => simp at eq
        | elements handed reached bare =>
          obtain ⟨rfl, -⟩ := List.append_inj' eq rfl
          obtain ⟨p', array', read⟩ := reached.at? readAs.read
          rw [array] at array'
          cases array'
          obtain ⟨r, -, keywords⟩ := exists_elements_of_isBareArray read bare
          exact ⟨handed, keywords⟩

theorem exists_field (readAs : ReadAs doc shape s) (found : s.at? way = some t)
    (shown : t.isShown (carried false way s) = true) (ne : way ≠ []) :
    ∃ f ∈ shape.fields, f.required = (carried false way s || t.marks.flag) ∧
      f.fullname = Way.place way :=
  ⟨_, (readAs.mem_fields _).mpr ⟨way, t, found, shown, ne, rfl⟩, Field.required_ofKeywords ..,
    fullname_shownField ..⟩

/-- A required field of what a node holds, up to some arrays, has its flag from around the node or
from where it is shown. -/
theorem handed_or_flag (readAs : ReadAs doc shape s) (found : s.at? way = some t)
    (mem : f ∈ shape.fields) (required : f.required = true)
    (eq : f.fullname = Way.place (way ++ List.replicate k .elements)) :
    Handed doc way ∨ ∃ r, s.at? (way ++ List.replicate k .elements) = some r ∧
      r.isShown false = true ∧ r.marks.flag = true := by
  obtain ⟨w, r, foundW, shown, -, rfl⟩ := (readAs.mem_fields f).mp mem
  have named : Way.Named (way ++ List.replicate k .elements) := by
    intro name onWay
    exact readAs.named way t found name (by simpa using onWay)
  have leads : Way.place w = Way.place (way ++ List.replicate k .elements) :=
    (fullname_shownField w (carried false w s) r).symm.trans eq
  obtain rfl := Way.place_inj (readAs.named w r foundW) named leads
  cases flag : carried false (way ++ List.replicate k .elements) s with
  | true =>
    exact .inl ((readAs.carried_iff_handed found).mp (carried_of_replicate foundW flag))
  | false =>
    rw [flag] at shown
    have own : (carried false (way ++ List.replicate k .elements) s || r.marks.flag) = true :=
      (Field.required_ofKeywords ..).symm.trans required
    rw [flag, Bool.false_or] at own
    exact .inr ⟨r, foundW, shown, own⟩

/-- A node that is handed a flag is shown, or one of the elements that stand for it is. -/
theorem isWrittenRequired_of_handed (readAs : ReadAs doc shape s) (reached : Reached doc way node)
    (ne : way ≠ []) (handed : Handed doc way) : IsWrittenRequired shape way node := by
  obtain ⟨t, found, read⟩ := reached.at? readAs.read
  have flag := (readAs.carried_iff_handed found).mpr handed
  obtain ⟨r, foundR, handedR, shown⟩ := exists_isShown_of_carried found flag
  obtain ⟨f, mem, required, fullname⟩ :=
    readAs.exists_field foundR (by rw [handedR, shown]) (by simp [ne])
  refine ⟨f, mem, by rw [required, handedR, Bool.true_or], ?_⟩
  rw [place_append_replicate] at fullname
  cases depth : t.bareDepth with
  | zero => exact .inl (by rw [fullname, depth]; rfl)
  | succ k =>
    have bare := isBareArray_of_bareDepth read (by omega)
    exact .inr ⟨bare, k, by rw [fullname, depth]⟩

theorem exists_field_of_speaks (readAs : ReadAs doc shape s) (reached : Reached doc way node)
    (ne : way ≠ []) (speaks : Speaks node) (flags : FlagsItself node) :
    ∃ f ∈ shape.fields, f.required = true ∧ f.fullname = Way.place way := by
  obtain ⟨t, found, read⟩ := reached.at? readAs.read
  obtain ⟨f, mem, required, fullname⟩ :=
    readAs.exists_field found (isShown_of_speaks speaks read _) ne
  have own := (readAs.flag_eq reached found).mpr flags
  exact ⟨f, mem, by rw [required, own, Bool.or_true], fullname⟩

end ReadAs

/-- A node that says of itself that it is required is written as required in three cases: it is
handed a flag, it says something else that no field below can say, or it is an array without
keywords and what it holds keeps a flag of its own. -/
theorem ofSchemaJson_ownFlag (canonical : doc.Canonical) (plain : PlainNames doc)
    (ok : Shape.ofSchemaJson doc = .ok shape) (ne : way ≠ []) (reached : Reached doc way node)
    (flags : FlagsItself node) :
    IsWrittenRequired shape way node ↔ Handed doc way ∨ Speaks node ∨ IsBareArray node ∧
      ∃ k below, Reached doc (way ++ List.replicate (k + 1) .elements) below ∧
        Speaks below ∧ FlagsItself below := by
  obtain ⟨s, readAs⟩ := readAs_of_ok canonical plain ok
  obtain ⟨t, found, read⟩ := reached.at? readAs.read
  constructor
  · rintro ⟨f, mem, required, here | ⟨bare, k, within⟩⟩
    · rcases readAs.handed_or_flag (k := 0) found mem required (by simpa using here) with
        handed | ⟨r, foundR, shown, -⟩
      · exact .inl handed
      · rw [List.replicate_zero, List.append_nil, found] at foundR
        cases foundR
        exact .inr (.inl (speaks_of_isShown read shown))
    · rw [← place_append_replicate] at within
      rcases readAs.handed_or_flag found mem required within with handed | ⟨r, foundR, shown, own⟩
      · exact .inl handed
      · obtain ⟨below, reachedR, readR⟩ := exists_reached_of_at? readAs.read foundR
        exact .inr (.inr ⟨bare, k, below, reachedR, speaks_of_isShown readR shown,
          (readAs.flag_eq reachedR foundR).mp own⟩)
  · rintro (handed | speaks | ⟨bare, k, below, reachedR, speaks, flagsR⟩)
    · exact readAs.isWrittenRequired_of_handed reached ne handed
    · obtain ⟨f, mem, required, fullname⟩ := readAs.exists_field_of_speaks reached ne speaks flags
      exact ⟨f, mem, required, .inl fullname⟩
    · obtain ⟨f, mem, required, fullname⟩ :=
        readAs.exists_field_of_speaks reachedR (by simp) speaks flagsR
      rw [place_append_replicate] at fullname
      exact ⟨f, mem, required, .inr ⟨bare, k, fullname⟩⟩

/-- An object with a property, an array without keywords, and an object with a title, each of which
says of itself that it is required. -/
def flaggedDocument : Json :=
  .obj [("properties", .obj [
    ("buyer", .obj [
      ("properties", .obj [("name", .obj [])]),
      ("required", .bool true)]),
    ("seller", .obj [
      ("properties", .obj [("name", .obj [])]),
      ("required", .bool true),
      ("title", .str "Seller")]),
    ("tags", .obj [
      ("items", .obj []),
      ("required", .bool true)])])]

theorem canonical_flaggedDocument : flaggedDocument.Canonical := by
  simp only [flaggedDocument, Json.Canonical, Json.CanonicalMembers, and_true]
  decide

theorem plainNames_flaggedDocument : PlainNames flaggedDocument := by
  cases read : ofJson "" flaggedDocument with
  | error e => exact absurd read nofun
  | ok s =>
    refine plainNames_of_nodes read ?_
    cases read
    decide

theorem ofSchemaJson_ownFlag_seller : ∃ shape node, Shape.ofSchemaJson flaggedDocument = .ok shape ∧
    Reached flaggedDocument [.property "seller"] node ∧ FlagsItself node ∧
    IsWrittenRequired shape [.property "seller"] node := by
  obtain ⟨shape, ok⟩ : ∃ shape, Shape.ofSchemaJson flaggedDocument = .ok shape := ⟨_, rfl⟩
  obtain ⟨node, found⟩ : ∃ node, node = [("properties", Json.obj [("name", .obj [])]),
    ("required", .bool true), ("title", .str "Seller")] := ⟨_, rfl⟩
  have reached : Reached flaggedDocument [.property "seller"] node :=
    .property (.root rfl) rfl rfl (by rw [found]; rfl)
  have flags : FlagsItself node := by rw [found]; rfl
  have speaks : Speaks node := .inr (.inl (by rw [found]; decide))
  exact ⟨shape, node, ok, reached, flags,
    (ofSchemaJson_ownFlag canonical_flaggedDocument plainNames_flaggedDocument ok (by simp) reached
      flags).mpr (.inr (.inl speaks))⟩

/-- The flags of the other two are lost: `buyer` has no field, and `tags[]` is not required. -/
theorem not_isWrittenRequired_flagged : ∃ shape, Shape.ofSchemaJson flaggedDocument = .ok shape ∧
    (∃ node, Reached flaggedDocument [.property "buyer"] node ∧ FlagsItself node ∧
      ¬ IsWrittenRequired shape [.property "buyer"] node) ∧
    ∃ node, Reached flaggedDocument [.property "tags"] node ∧ FlagsItself node ∧
      ¬ IsWrittenRequired shape [.property "tags"] node := by
  obtain ⟨shape, ok, only⟩ : ∃ shape, Shape.ofSchemaJson flaggedDocument = .ok shape ∧
      ∀ f ∈ shape.fields, f.required = true → f.fullname = "seller" := ⟨_, rfl, by decide⟩
  have named {name : String} (plain : name ≠ "" ∧ Fullname.isUnmarked name = true) (k : Nat) :
      Way.Named ([.property name] ++ List.replicate k .elements) := by
    intro other onWay
    have same : other = name := by simpa using onWay
    rwa [same]
  have lost {name : String} (plain : name ≠ "" ∧ Fullname.isUnmarked name = true)
      (apart : name ≠ "seller") (node : List (String × Json)) :
      ¬ IsWrittenRequired shape [.property name] node := by
    have elsewhere (k : Nat) :
        Way.place ([.property name] ++ List.replicate k .elements) ≠ "seller" := by
      intro same
      have ways := Way.place_inj (named plain k)
        (named (by decide) 0) same
      simp [apart] at ways
    rintro ⟨f, mem, required, here | ⟨-, k, within⟩⟩
    · exact elsewhere 0 (here.symm.trans (only f mem required))
    · rw [← place_append_replicate] at within
      exact elsewhere (k + 1) (within.symm.trans (only f mem required))
  exact ⟨shape, ok,
    ⟨_, .property (.root rfl) rfl rfl rfl, rfl, lost (by decide) (by decide) _⟩,
    ⟨_, .property (.root rfl) rfl rfl rfl, rfl, lost (by decide) (by decide) _⟩⟩

end ShapeLines.Schema
