import ShapeLines.Query.Text

/-!
# Which groups are turned into arrays of objects

A position in a key tree is given by the number of a child, of a child of that child, and so on. A
marking says of each position whether the group there is turned into an array of objects. The text
of a query is the text of one marking, and this marking follows a law: a group is marked if it is an
array, and also if some group around it is marked and a leaf somewhere below it reads elements by
position. So what is said of one group depends on all groups around it and on all leaves below it.

The root is marked if it is an array, but it does not count as a group around the others: between an
array at the root and an array inside it, the objects are left as they are.
-/

namespace ShapeLines

namespace KeyNode

def at? : List Nat → KeyNode → Option KeyNode
  | [], node => some node
  | _ :: _, .leaf _ => none
  | i :: position, .group _ children => children[i]?.bind fun child => at? position child.2

mutual

/-- The text of a node whose marked groups are turned into arrays of objects. -/
def markedText (marked : List Nat → Bool) : KeyNode → String
  | .leaf source => source
  | .group _ children =>
    "\x7b" ++ ",".intercalate (markedTexts (fun i position => marked (i :: position)) children) ++
      "\x7d" ++ if marked [] then groupModifier else ""

/-- The texts of children, each marked below its number. -/
def markedTexts (marked : Nat → List Nat → Bool) : List (String × KeyNode) → List String
  | [] => []
  | (key, node) :: rest =>
    (key ++ ":" ++ markedText (marked 0) node) :: markedTexts (fun i => marked (i + 1)) rest

end

/-- Some leaf in the node or below it reads elements by position. -/
def ReadsPositions (node : KeyNode) : Prop :=
  ∃ position source, at? position node = some (.leaf source) ∧ Fullname.hasWildcard source = true

/-- Whether the group at a position is turned into an array of objects; `inGroup` tells whether a
group around the node is. -/
def groupedAt (inGroup : Bool) : List Nat → KeyNode → Bool
  | _, .leaf _ => false
  | [], .group isArray children => isArray || (inGroup && anyWildcard children)
  | i :: position, .group isArray children =>
    (children[i]?.map fun child =>
      groupedAt (inGroup || (isArray || (inGroup && anyWildcard children))) position child.2).getD
        false

end KeyNode

namespace KeyTree

/-- The law of grouping, with `counts` for the groups that count as groups around others. -/
structure Grouping (counts : List Nat → Prop) (t : KeyTree) (marked : List Nat → Bool) : Prop where
  root : marked [] = t.isArray
  inside : ∀ position isArray children, position ≠ [] →
    t.toNode.at? position = some (.group isArray children) →
      (marked position = true ↔ isArray = true ∨
        (∃ around, around <+: position ∧ around ≠ position ∧ counts around ∧
          marked around = true) ∧ (KeyNode.group isArray children).ReadsPositions)

end KeyTree

namespace KeyNode

variable {position : List Nat} {isArray inGroup : Bool} {children : List (String × KeyNode)}
  {node : KeyNode}

/-! ## Leaves below a node -/

theorem readsPositions_leaf (source : String) :
    (leaf source).ReadsPositions ↔ Fullname.hasWildcard source = true := by
  constructor
  · rintro ⟨_ | ⟨i, position⟩, s, found, reads⟩
    · cases found
      exact reads
    · cases found
  · exact fun reads => ⟨[], source, rfl, reads⟩

theorem readsPositions_group (isArray : Bool) (children : List (String × KeyNode)) :
    (group isArray children).ReadsPositions ↔ ∃ child ∈ children, child.2.ReadsPositions := by
  constructor
  · rintro ⟨_ | ⟨i, position⟩, source, found, reads⟩
    · cases found
    · obtain ⟨child, here, found⟩ := Option.bind_eq_some_iff.mp found
      exact ⟨child, List.mem_of_getElem? here, position, source, found, reads⟩
  · rintro ⟨child, mem, position, source, found, reads⟩
    obtain ⟨i, here⟩ := List.mem_iff_getElem?.mp mem
    exact ⟨i :: position, source, by rw [at?, here]; exact found, reads⟩

mutual

theorem hasWildcard_iff : ∀ node, hasWildcard node = true ↔ node.ReadsPositions
  | .leaf source => by rw [hasWildcard, readsPositions_leaf]
  | .group isArray children => by
    rw [hasWildcard, anyWildcard_iff children, readsPositions_group]

theorem anyWildcard_iff : ∀ children,
    anyWildcard children = true ↔ ∃ child ∈ children, child.2.ReadsPositions
  | [] => by simp [anyWildcard]
  | (key, node) :: rest => by
    rw [anyWildcard, Bool.or_eq_true, hasWildcard_iff node, anyWildcard_iff rest]
    simp

end

/-! ## The marking that is written -/

/-- How the children of a group are marked. -/
def groupedBelow (inGroup : Bool) (children : List (String × KeyNode)) (i : Nat)
    (position : List Nat) : Bool :=
  (children[i]?.map fun child => groupedAt inGroup position child.2).getD false

theorem moreText_cons (inGroup : Bool) (child : String × KeyNode)
    (rest : List (String × KeyNode)) :
    moreText inGroup (child :: rest) = "," ++ childrenText inGroup (child :: rest) := by
  simp [moreText, childrenText, String.append_assoc]

theorem markedTexts_groupedBelow (inGroup : Bool) (key : String) (node : KeyNode)
    (rest : List (String × KeyNode)) :
    markedTexts (groupedBelow inGroup ((key, node) :: rest)) ((key, node) :: rest) =
      (key ++ ":" ++ markedText (fun position => groupedAt inGroup position node) node) ::
        markedTexts (groupedBelow inGroup rest) rest := rfl

mutual

theorem text_eq_markedText (inGroup : Bool) : ∀ node : KeyNode,
    text inGroup node = markedText (fun position => groupedAt inGroup position node) node
  | .leaf _ => rfl
  | .group isArray children => by
    rw [text, markedText, childrenText_eq_markedTexts]
    rfl

theorem childrenText_eq_markedTexts (inGroup : Bool) : ∀ children : List (String × KeyNode),
    childrenText inGroup children =
      ",".intercalate (markedTexts (groupedBelow inGroup children) children)
  | [] => rfl
  | [(key, node)] => by
    rw [childrenText, moreText, text_eq_markedText inGroup node, markedTexts_groupedBelow]
    simp [markedTexts]
  | (key, node) :: next :: rest => by
    rw [childrenText, moreText_cons, text_eq_markedText inGroup node,
      childrenText_eq_markedTexts inGroup (next :: rest), markedTexts_groupedBelow inGroup key,
      markedTexts_groupedBelow, String.intercalate_cons_cons]
    simp only [String.append_assoc]

end

/-! ## The law -/

theorem exists_around_cons {i : Nat} {P : List Nat → Prop} :
    (∃ around, around <+: i :: position ∧ around ≠ i :: position ∧ P around) ↔
      P [] ∨ ∃ around, around <+: position ∧ around ≠ position ∧ P (i :: around) := by
  constructor
  · rintro ⟨around, inside, ne, holds⟩
    rcases List.prefix_cons_iff.mp inside with rfl | ⟨rest, rfl, inRest⟩
    · exact .inl holds
    · exact .inr ⟨rest, inRest, fun same => ne (by rw [same]), holds⟩
  · rintro (holds | ⟨around, inside, ne, holds⟩)
    · exact ⟨[], List.nil_prefix, by simp, holds⟩
    · exact ⟨i :: around, List.cons_prefix_cons.mpr ⟨rfl, inside⟩, by simpa using ne, holds⟩

theorem groupedAt_nil (inGroup isArray : Bool) (children : List (String × KeyNode)) :
    groupedAt inGroup [] (group isArray children) = true ↔
      isArray = true ∨ inGroup = true ∧ (group isArray children).ReadsPositions := by
  rw [groupedAt, Bool.or_eq_true, Bool.and_eq_true, anyWildcard_iff, readsPositions_group]

theorem groupedAt_cons {i : Nat} {child : String × KeyNode} (here : children[i]? = some child)
    (inGroup isArray : Bool) (position : List Nat) :
    groupedAt inGroup (i :: position) (group isArray children) =
      groupedAt (inGroup || groupedAt inGroup [] (group isArray children)) position child.2 := by
  rw [groupedAt, groupedAt]
  simp [here]

/-- Inside a node, the flag at the start and the marked groups on the way decide. -/
theorem groupedAt_iff (inGroup : Bool)
    (found : node.at? position = some (group isArray children)) :
    groupedAt inGroup position node = true ↔ isArray = true ∨
      (inGroup = true ∨ ∃ around, around <+: position ∧ around ≠ position ∧
        groupedAt inGroup around node = true) ∧ (group isArray children).ReadsPositions := by
  induction position generalizing inGroup node with
  | nil =>
    cases found
    rw [groupedAt_nil]
    simp
  | cons i position ih =>
    cases node with
    | leaf => cases found
    | group outerArray siblings =>
      obtain ⟨child, here, found⟩ := Option.bind_eq_some_iff.mp found
      rw [groupedAt_cons here, ih _ found, exists_around_cons, Bool.or_eq_true, or_assoc]
      simp only [groupedAt_cons here]

end KeyNode

namespace KeyTree

/-- The marking that the text of a tree follows. -/
def marking (t : KeyTree) : List Nat → Bool
  | [] => t.isArray
  | i :: position => KeyNode.groupedBelow false t.children i position

theorem marking_cons {t : KeyTree} {i : Nat} {child : String × KeyNode}
    (here : t.children[i]? = some child) (position : List Nat) :
    t.marking (i :: position) = KeyNode.groupedAt false position child.2 := by
  rw [marking, KeyNode.groupedBelow, here]
  rfl

theorem text_eq_markedText (t : KeyTree) : t.text = t.toNode.markedText t.marking := by
  rw [text, KeyNode.childrenText_eq_markedTexts]
  rfl

theorem grouping_marking (t : KeyTree) : t.Grouping (· ≠ []) t.marking where
  root := rfl
  inside := by
    intro position isArray children ne found
    obtain ⟨i, position, rfl⟩ := List.exists_cons_of_ne_nil ne
    obtain ⟨child, here, found⟩ := Option.bind_eq_some_iff.mp found
    rw [marking_cons here, KeyNode.groupedAt_iff false found, KeyNode.exists_around_cons]
    simp [marking_cons here]

/-- A query is written with `|@group` after the groups that the law of grouping marks, where every
group but the root counts as a group around those inside it. -/
theorem text_grouped (t : KeyTree) :
    ∃ marked, t.Grouping (· ≠ []) marked ∧ t.text = t.toNode.markedText marked :=
  ⟨t.marking, t.grouping_marking, t.text_eq_markedText⟩

/-- An array of objects, each with an object inside that reads elements by position. -/
def objectInRows : KeyTree := ⟨true, [("g", .group false [("a", .leaf "P.#.x")])]⟩

/-- If the root counted as well, the object inside it would be grouped. -/
theorem text_objectInRows : ¬ ∃ marked, objectInRows.Grouping (fun _ => True) marked ∧
    objectInRows.text = objectInRows.toNode.markedText marked := by
  rintro ⟨marked, law, eq⟩
  have root : marked [] = true := law.root
  have reads : (KeyNode.group false [("a", .leaf "P.#.x")]).ReadsPositions :=
    ⟨[0], "P.#.x", rfl, by decide⟩
  have inside : marked [0] = true :=
    (law.inside [0] false [("a", .leaf "P.#.x")] (by simp) rfl).mpr
      (.inr ⟨⟨[], List.nil_prefix, by simp, trivial, root⟩, reads⟩)
  have written : objectInRows.text = "\x7bg:\x7ba:P.#.x\x7d\x7d|@group" := by decide
  have law : objectInRows.toNode.markedText marked = "\x7bg:\x7ba:P.#.x\x7d|@group\x7d|@group" := by
    simp [objectInRows, toNode, KeyNode.markedText, KeyNode.markedTexts, root, inside,
      groupModifier]
  rw [written, law] at eq
  exact absurd eq (by decide)

end KeyTree

end ShapeLines
