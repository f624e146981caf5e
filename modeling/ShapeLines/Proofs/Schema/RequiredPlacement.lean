import Mathlib.Logic.Function.Iterate
import ShapeLines.Proofs.Schema.ShownNodes

/-!
# Which fields of a document are required

An object lists its required properties. A property that is listed has one field that carries the
flag: the property itself, or what is left when the arrays without keywords that it starts with have
been written as their elements. No other field is required, unless a node says so of itself, and a
name that is listed without a property has no field at all.
-/

namespace ShapeLines.Schema

variable {doc : Json} {shape : Shape} {s t p : Schema} {way u v w : List Hop}
  {node child : List (String × Json)} {place name : String} {f g : Field}

mutual

/-- How many arrays that have elements and no keywords stand one in the other, from a node on. -/
def bareArrays : Json → Nat
  | .obj node =>
    if nodeType? node = some .array ∧ (attributes node).isEmpty then bareElements node else 0
  | _ => 0

/-- The same for an array without keywords, whose elements are its first member `items`. -/
def bareElements : List (String × Json) → Nat
  | [] => 0
  | (key, v) :: rest => if key = "items" then bareArrays v + 1 else bareElements rest

end

/-- The object that the way leads to has the node `child` as its property `name`, and lists it. -/
structure Requires (doc : Json) (way : List Hop) (name : String) (child : List (String × Json)) :
    Prop where
  reached : Reached doc (way ++ [.property name]) child
  listed : ∃ node, Reached doc way node ∧ ListsName node name

/-- The fullname under which a property is written that starts with arrays without keywords. -/
def markedPlace (way : List Hop) (name : String) (child : List (String × Json)) : String :=
  Fullname.element^[bareArrays (.obj child)] (Fullname.join (Way.place way) name)

/-- The node says of itself that it is required. -/
def FlagsItself (node : List (String × Json)) : Prop :=
  Entries.get? "required" node = some (.bool true)

/-- No node of the document says of itself that it is required. -/
def Unflagged (doc : Json) : Prop :=
  ∀ way node, Reached doc way node → Entries.get? "required" node ≠ some (.bool true)

/-- How many arrays without keywords stand one in the other, from a node of a schema on. -/
def bareDepth : Schema → Nat
  | .array marks (some items) => if marks.keywords.isEmpty then items.bareDepth + 1 else 0
  | _ => 0

theorem bareDepth_of_elements (found : s.at? [.elements] = some t)
    (bare : s.marks.keywords = []) : s.bareDepth = t.bareDepth + 1 := by
  cases s with
  | scalar => contradiction
  | object => contradiction
  | array marks items =>
    rw [at?_singleton_elements] at found
    subst found
    have empty : marks.keywords = [] := bare
    simp [bareDepth, empty]

theorem bareDepth_of_isShown (shown : s.isShown true = true) : s.bareDepth = 0 := by
  cases s with
  | scalar => simp [bareDepth]
  | object => simp [bareDepth]
  | array marks items =>
    cases items with
    | none => simp [bareDepth]
    | some items =>
      have keywords : marks.keywords ≠ [] := by simpa [isShown] using shown
      simp [bareDepth, keywords]

theorem bareElements_eq (node : List (String × Json)) :
    bareElements node = (Entries.get? "items" node).elim 0 fun v => bareArrays v + 1 := by
  induction node with
  | nil => simp [bareElements, Entries.get?]
  | cons e rest ih =>
    obtain ⟨key, v⟩ := e
    rw [bareElements, Entries.get?]
    by_cases eq : key = "items"
    · simp [eq]
    · rw [if_neg eq, if_neg (Ne.symm eq), ih]

/-- The arrays that a node starts with are counted alike in the document and in the schema. -/
theorem bareArrays_of_ofJson (ok : ofJson place (.obj node) = .ok s) :
    bareArrays (.obj node) = s.bareDepth := by
  induction s using hopInduction generalizing place node with
  | step s ih =>
    rw [bareArrays, bareElements_eq]
    rcases ofJson_cases ok with ⟨type, nodeType, rfl⟩ | ⟨items, nodeType, elements, rfl⟩ |
      ⟨names, properties, nodeType, -, -, rfl⟩
    · simp [nodeType, bareDepth]
    · rcases elementsMember_cases elements with ⟨member, rfl⟩ | ⟨child, t, member, read, rfl⟩
      · simp [member, bareDepth]
      · have below := ih .elements t (at?_singleton_elements _ _) read
        have keywords : (marksOf node).keywords = attributes node := rfl
        simp only [nodeType, member, true_and, Option.elim_some, below, bareDepth, keywords]
    · simp [nodeType, bareDepth]

theorem place_append_replicate (way : List Hop) (k : Nat) :
    Way.place (way ++ List.replicate k .elements) = Fullname.element^[k] (Way.place way) := by
  induction k with
  | zero => simp
  | succ k ih =>
    rw [List.replicate_succ', ← List.append_assoc, Way.place_append_singleton, ih,
      Function.iterate_succ_apply']
    rfl

/-- A flag that is carried to a node goes through arrays without keywords to a shown node. -/
theorem exists_isShown_of_carried (found : s.at? v = some p) (flag : carried false v s = true) :
    ∃ t, s.at? (v ++ List.replicate p.bareDepth .elements) = some t ∧
      carried false (v ++ List.replicate p.bareDepth .elements) s = true ∧
      t.isShown true = true := by
  induction p using hopInduction generalizing v with
  | step p ih =>
    cases shown : p.isShown true with
    | true =>
      rw [bareDepth_of_isShown shown, List.replicate_zero, List.append_nil]
      exact ⟨p, found, flag, shown⟩
    | false =>
      obtain ⟨t, elements⟩ := elements_of_not_shown shown
      have keywords := keywords_of_not_shown shown
      have below : s.at? (v ++ [.elements]) = some t := by
        rw [at?_append, found]
        exact elements
      have handed : carried false (v ++ [.elements]) s = true := by
        obtain ⟨q, array, eq⟩ := carried_elements below false
        rw [found] at array
        cases array
        rw [eq, flag, keywords]
        rfl
      rw [bareDepth_of_elements elements keywords, List.replicate_succ, List.append_cons]
      exact ih .elements t elements below handed

/-- A flag that is carried to a node comes from a listed property, through arrays without keywords.
-/
theorem exists_property_of_carried (found : s.at? w = some t) (flag : carried false w s = true) :
    ∃ u name k p, w = u ++ [.property name] ++ List.replicate k .elements ∧
      s.at? (u ++ [.property name]) = some p ∧ carried false (u ++ [.property name]) s = true ∧
      p.bareDepth = k + t.bareDepth := by
  induction w using List.reverseRecOn generalizing t with
  | nil => contradiction
  | append_singleton w hop ih =>
    cases hop with
    | property name => exact ⟨w, name, 0, t, by simp, found, flag, by simp⟩
    | elements =>
      obtain ⟨q, at', eq⟩ := carried_elements found false
      rw [flag] at eq
      have both := eq.symm
      rw [Bool.and_eq_true, List.isEmpty_iff] at both
      obtain ⟨u, name, k, p, way, property, listed, depth⟩ := ih at' both.1
      have elements : q.at? [.elements] = some t := by
        rw [at?_append, at'] at found
        exact found
      refine ⟨u, name, k + 1, p, ?_, property, listed, ?_⟩
      · rw [way, List.replicate_succ', List.append_assoc _ _ [Hop.elements]]
      · rw [depth, bareDepth_of_elements elements both.2]
        omega

namespace ReadAs

theorem requires_iff (readAs : ReadAs doc shape s)
    (found : s.at? (u ++ [.property name]) = some p) :
    (∃ child, Requires doc u name child) ↔ carried false (u ++ [.property name]) s = true := by
  obtain ⟨q, parent, eq⟩ := carried_property found false
  obtain ⟨node, reached, read⟩ := exists_reached_of_at? readAs.read parent
  have object : q.kind = .object := by
    rw [at?_append, parent, Option.bind_some] at found
    exact kind_of_at? (by rw [found]; rfl)
  rw [eq, List.contains_iff_mem]
  constructor
  · intro ⟨child, _, node', reached', listed⟩
    obtain ⟨q', parent', read'⟩ := reached'.at? readAs.read
    rw [parent] at parent'
    cases parent'
    exact (mem_required_of_ofJson read' object).mpr listed
  · intro mem
    obtain ⟨child, reachedChild, -⟩ := exists_reached_of_at? readAs.read found
    exact ⟨child, reachedChild, node, reached, (mem_required_of_ofJson read object).mp mem⟩

theorem markedPlace_eq (readAs : ReadAs doc shape s) (requires : Requires doc u name child)
    (found : s.at? (u ++ [.property name]) = some p) :
    markedPlace u name child =
      Way.place (u ++ [.property name] ++ List.replicate p.bareDepth .elements) := by
  obtain ⟨p', found', read⟩ := requires.reached.at? readAs.read
  rw [found] at found'
  cases found'
  rw [markedPlace, bareArrays_of_ofJson read, place_append_replicate, Way.place_append_singleton]
  rfl

theorem exists_required (readAs : ReadAs doc shape s) (requires : Requires doc u name child) :
    ∃ f ∈ shape.fields, f.fullname = markedPlace u name child ∧ f.required = true := by
  obtain ⟨p, found, -⟩ := requires.reached.at? readAs.read
  have flag := (readAs.requires_iff found).mp ⟨child, requires⟩
  obtain ⟨t, at', handed, shown⟩ := exists_isShown_of_carried found flag
  refine ⟨_, (readAs.mem_fields _).mpr ⟨_, t, at', by rw [handed, shown], by simp, rfl⟩, ?_, ?_⟩
  · rw [readAs.markedPlace_eq requires found]
    exact fullname_shownField ..
  · apply (Field.required_ofKeywords ..).trans
    rw [handed, Bool.true_or]

theorem flag_eq (readAs : ReadAs doc shape s) (reached : Reached doc way node)
    (found : s.at? way = some t) : t.marks.flag = true ↔ FlagsItself node := by
  obtain ⟨t', found', read⟩ := reached.at? readAs.read
  rw [found] at found'
  cases found'
  rw [marks_of_ofJson read, marksOf, FlagsItself]
  split
  · next b flag => simp [flag]
  · next other =>
    simp only [Bool.false_eq_true, false_iff]
    exact other true

theorem flag_of_unflagged (readAs : ReadAs doc shape s) (unflagged : Unflagged doc)
    (found : s.at? w = some t) : t.marks.flag = false := by
  obtain ⟨node, reached, -⟩ := exists_reached_of_at? readAs.read found
  rw [Bool.eq_false_iff, ne_eq, readAs.flag_eq reached found]
  exact unflagged w node reached

theorem requires_of_required (readAs : ReadAs doc shape s) (unflagged : Unflagged doc)
    (mem : f ∈ shape.fields) (required : f.required = true) :
    ∃ u name child, Requires doc u name child ∧ f.fullname = markedPlace u name child := by
  obtain ⟨w, t, found, shown, -, rfl⟩ := (readAs.mem_fields f).mp mem
  have flag : carried false w s = true := by
    have own : (carried false w s || t.marks.flag) = true :=
      (Field.required_ofKeywords ..).symm.trans required
    rwa [readAs.flag_of_unflagged unflagged found, Bool.or_false] at own
  rw [flag] at shown
  obtain ⟨u, name, k, p, rfl, property, listed, depth⟩ := exists_property_of_carried found flag
  obtain ⟨child, requires⟩ := (readAs.requires_iff property).mpr listed
  refine ⟨u, name, child, requires, ?_⟩
  rw [readAs.markedPlace_eq requires property, depth, bareDepth_of_isShown shown, Nat.add_zero]
  exact fullname_shownField ..

end ReadAs

/-- A field is required exactly if it is the one field of a property that its object lists. -/
theorem ofSchemaJson_required (canonical : doc.Canonical) (plain : PlainNames doc)
    (unflagged : Unflagged doc) (ok : Shape.ofSchemaJson doc = .ok shape) :
    (∀ f ∈ shape.fields, f.required = true ↔
      ∃ way name child, Requires doc way name child ∧ f.fullname = markedPlace way name child) ∧
    (∀ way name child, Requires doc way name child →
      ∃! f, f ∈ shape.fields ∧ f.fullname = markedPlace way name child) ∧
    ∀ way node name, Reached doc way node → ListsName node name →
      (∀ child, ¬ Reached doc (way ++ [.property name]) child) →
      ∀ f ∈ shape.fields, ¬ way ++ [.property name] <+: Fullname.hops f.fullname := by
  obtain ⟨s, readAs⟩ := readAs_of_ok canonical plain ok
  refine ⟨fun f mem => ⟨readAs.requires_of_required unflagged mem, ?_⟩, ?_, ?_⟩
  · intro ⟨way, name, child, requires, eq⟩
    obtain ⟨g, memG, eqG, required⟩ := readAs.exists_required requires
    rwa [readAs.eq_of_fullname mem memG (eq.trans eqG.symm)]
  · intro way name child requires
    obtain ⟨g, memG, eqG, -⟩ := readAs.exists_required requires
    exact ⟨g, ⟨memG, eqG⟩, fun f ⟨mem, eq⟩ => readAs.eq_of_fullname mem memG (eq.trans eqG.symm)⟩
  · intro way node name _ _ missing f mem ⟨rest, eq⟩
    obtain ⟨w, t, found, -, -, rfl⟩ := (readAs.mem_fields f).mp mem
    rw [readAs.hops_fullname found] at eq
    subst eq
    rw [at?_append] at found
    obtain ⟨p, property, -⟩ := Option.bind_eq_some_iff.mp found
    obtain ⟨child, reached, -⟩ := exists_reached_of_at? readAs.read property
    exact missing child reached

theorem unflagged_of_nodes (ok : ofJson "" doc = .ok s)
    (noFlags : ∀ t ∈ s.nodes, t.marks.flag = false) : Unflagged doc := by
  intro way node reached flag
  obtain ⟨t, found, read⟩ := reached.at? ok
  have noFlag := noFlags t (mem_nodes_of_at? found)
  rw [marks_of_ofJson read, marksOf, flag] at noFlag
  contradiction

/-- Of the names that the root lists, `matrix` is the name of an array without keywords and `ghost`
is the name of nothing. -/
theorem ofSchemaJson_required_store : ∃ shape, Shape.ofSchemaJson storeDocument = .ok shape ∧
    (∃! f, f ∈ shape.fields ∧ f.fullname = "matrix[]") ∧
    ∀ f ∈ shape.fields, ¬ [.property "ghost"] <+: Fullname.hops f.fullname := by
  have unflagged : Unflagged storeDocument := by
    cases read : ofJson "" storeDocument with
    | error e => exact absurd read nofun
    | ok s =>
      refine unflagged_of_nodes read ?_
      cases read
      decide
  obtain ⟨shape, ok⟩ : ∃ shape, Shape.ofSchemaJson storeDocument = .ok shape := ⟨_, rfl⟩
  obtain ⟨-, single, unmatched⟩ :=
    ofSchemaJson_required canonical_storeDocument plainNames_storeDocument unflagged ok
  obtain ⟨node, members⟩ : ∃ node, storeDocument = .obj node := ⟨_, rfl⟩
  have root : Reached storeDocument [] node := .root members
  have names (name : String) (listed : name = "matrix" ∨ name = "ghost") : ListsName node name := by
    cases members
    exact ⟨_, rfl, by rcases listed with rfl | rfl <;> simp⟩
  refine ⟨shape, ok, ?_, ?_⟩
  · refine single [] "matrix" _ ⟨.property (.root rfl) rfl rfl rfl, node, root, ?_⟩
    exact names "matrix" (.inl rfl)
  · refine unmatched [] node "ghost" root (names "ghost" (.inr rfl)) fun child reached => ?_
    obtain ⟨s, read⟩ : ∃ s, ofJson "" storeDocument = .ok s := ⟨_, rfl⟩
    obtain ⟨t, found, -⟩ := reached.at? read
    cases read
    contradiction

end ShapeLines.Schema
