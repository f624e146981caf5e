import ShapeLines.Proofs.Query.Grouping

/-!
# Reading a query again

The text of a query tells the tree it was written from: its keys and sources in their order, and the
groups that are turned into arrays of objects. What it does not tell is whether such a group is an
array itself or stands inside one. This holds of the trees whose keys and sources have none of the
characters that queries are punctuated with; keys, sources and groups may be empty.

The text of a node can be told from what follows it. Two texts that begin alike therefore begin with
the same node, whatever comes behind.
-/

namespace ShapeLines

namespace KeyNode

/-- The characters that queries are punctuated with. -/
def isPunctuation (c : Char) : Bool :=
  ['\x7b', '\x7d', ':', ',', '|'].contains c

def isClearText (s : String) : Bool :=
  s.toList.all fun c => !isPunctuation c

mutual

/-- No key and no source in the node is punctuated. -/
def isClear : KeyNode → Bool
  | .leaf source => isClearText source
  | .group _ children => areClear children

def areClear : List (String × KeyNode) → Bool
  | [] => true
  | (key, node) :: rest => isClearText key && isClear node && areClear rest

end

mutual

/-- The node as it is written: the groups that are turned into arrays of objects are its arrays. -/
def written (inGroup : Bool) : KeyNode → KeyNode
  | .leaf source => .leaf source
  | .group isArray children =>
    let grouped := isArray || (inGroup && anyWildcard children)
    .group grouped (writtenChildren (inGroup || grouped) children)

def writtenChildren (inGroup : Bool) : List (String × KeyNode) → List (String × KeyNode)
  | [] => []
  | (key, node) :: rest => (key, written inGroup node) :: writtenChildren inGroup rest

end

/-- What is written behind the brace of a group. -/
def ending (grouped : Bool) : List Char :=
  if grouped then groupModifier.toList else []

mutual

/-- The text of a node whose arrays are turned into arrays of objects, and no other group. -/
def chars : KeyNode → List Char
  | .leaf source => source.toList
  | .group isArray children => '\x7b' :: childrenChars children ++ '\x7d' :: ending isArray

def childrenChars : List (String × KeyNode) → List Char
  | [] => []
  | (key, node) :: rest => key.toList ++ ':' :: chars node ++ moreChars rest

def moreChars : List (String × KeyNode) → List Char
  | [] => []
  | (key, node) :: rest => ',' :: key.toList ++ ':' :: chars node ++ moreChars rest

end

end KeyNode

namespace KeyTree

/-- No key and no source in the tree is punctuated. -/
def isClear (t : KeyTree) : Bool := KeyNode.areClear t.children

/-- The tree as it is written: the groups that are turned into arrays of objects are its arrays. -/
def written (t : KeyTree) : KeyTree :=
  ⟨t.isArray, KeyNode.writtenChildren false t.children⟩

end KeyTree

namespace KeyNode

variable {node other : KeyNode} {children others : List (String × KeyNode)}
  {rest tail word : List Char} {c : Char}

/-! ## What is written -/

theorem writtenChildren_eq (inGroup : Bool) (children : List (String × KeyNode)) :
    writtenChildren inGroup children = children.map fun e => (e.1, written inGroup e.2) := by
  induction children with
  | nil => rfl
  | cons e rest ih => rw [writtenChildren, ih, List.map_cons]

theorem toList_ending (grouped : Bool) :
    (if grouped then groupModifier else "").toList = ending grouped := by
  cases grouped <;> rfl

mutual

theorem toList_text (inGroup : Bool) : ∀ node : KeyNode,
    (text inGroup node).toList = (written inGroup node).chars
  | .leaf _ => rfl
  | .group isArray children => by
    simp only [text, written, chars, String.toList_append, toList_ending,
      toList_childrenText _ children]
    simp

theorem toList_childrenText (inGroup : Bool) : ∀ children : List (String × KeyNode),
    (childrenText inGroup children).toList = childrenChars (writtenChildren inGroup children)
  | [] => rfl
  | (key, node) :: rest => by
    simp only [childrenText, writtenChildren, childrenChars, String.toList_append,
      toList_text _ node, toList_moreText _ rest]
    simp

theorem toList_moreText (inGroup : Bool) : ∀ children : List (String × KeyNode),
    (moreText inGroup children).toList = moreChars (writtenChildren inGroup children)
  | [] => rfl
  | (key, node) :: rest => by
    simp only [moreText, writtenChildren, moreChars, String.toList_append,
      toList_text _ node, toList_moreText _ rest]
    simp

end

mutual

theorem isClear_written (inGroup : Bool) : ∀ node : KeyNode,
    (written inGroup node).isClear = node.isClear
  | .leaf _ => rfl
  | .group isArray children => by
    rw [written, isClear, isClear, areClear_writtenChildren _ children]

theorem areClear_writtenChildren (inGroup : Bool) : ∀ children : List (String × KeyNode),
    areClear (writtenChildren inGroup children) = areClear children
  | [] => rfl
  | (key, node) :: rest => by
    rw [writtenChildren, areClear, areClear, isClear_written _ node,
      areClear_writtenChildren _ rest]

end

/-- The groups that are written with `|@group` are those that the marking of the text gives. -/
theorem groupedAt_of_at?_written {inGroup grouped : Bool} {position : List Nat}
    (found : (written inGroup node).at? position = some (group grouped children)) :
    groupedAt inGroup position node = grouped := by
  induction position generalizing inGroup node with
  | nil =>
    cases node with
    | leaf => cases found
    | group => cases found; rfl
  | cons i position ih =>
    cases node with
    | leaf => cases found
    | group isArray siblings =>
      obtain ⟨child, here, found⟩ := Option.bind_eq_some_iff.mp found
      rw [writtenChildren_eq, List.getElem?_map, Option.map_eq_some_iff] at here
      obtain ⟨before, here, rfl⟩ := here
      rw [groupedAt_cons here]
      exact ih found

/-! ## What follows a node -/

def StartsPunctuated (rest : List Char) : Prop :=
  ∀ c tail, rest = c :: tail → isPunctuation c = true

/-- Text that can stand behind a node: nothing, a comma, or the brace of the group around it. -/
def StartsBehindNode (rest : List Char) : Prop :=
  ∀ c tail, rest = c :: tail → c = ',' ∨ c = '\x7d'

theorem StartsBehindNode.punctuated (behind : StartsBehindNode rest) : StartsPunctuated rest := by
  intro c tail eq
  rcases behind c tail eq with rfl | rfl <;> decide

theorem startsPunctuated_cons (punctuation : isPunctuation c = true) :
    StartsPunctuated (c :: tail) := by
  rintro _ _ ⟨⟩
  exact punctuation

theorem startsBehindNode_brace : StartsBehindNode ('\x7d' :: tail) := by
  rintro _ _ ⟨⟩
  exact .inr rfl

theorem startsBehindNode_moreChars (children : List (String × KeyNode)) :
    StartsBehindNode (moreChars children ++ '\x7d' :: tail) := by
  cases children with
  | nil => exact startsBehindNode_brace
  | cons child children =>
    rintro _ _ ⟨⟩
    exact .inl rfl

/-! ## Equal texts begin with equal parts -/

/-- A word ends where the punctuation begins. -/
theorem cancel_word {word' rest' : List Char} (clear : ∀ c ∈ word, isPunctuation c = false)
    (clear' : ∀ c ∈ word', isPunctuation c = false) (ends : StartsPunctuated rest)
    (ends' : StartsPunctuated rest') (same : word ++ rest = word' ++ rest') :
    word = word' ∧ rest = rest' := by
  induction word generalizing word' with
  | nil =>
    cases word' with
    | nil => exact ⟨rfl, same⟩
    | cons c word' =>
      have punctuated := ends c (word' ++ rest') same
      rw [clear' c List.mem_cons_self] at punctuated
      cases punctuated
  | cons c word ih =>
    cases word' with
    | nil =>
      have punctuated := ends' c (word ++ rest) same.symm
      rw [clear c List.mem_cons_self] at punctuated
      cases punctuated
    | cons c' word' =>
      obtain ⟨rfl, sameTail⟩ := List.cons.inj same
      obtain ⟨rfl, eq⟩ := ih (fun d mem => clear d (List.mem_cons_of_mem _ mem))
        (fun d mem => clear' d (List.mem_cons_of_mem _ mem)) sameTail
      exact ⟨rfl, eq⟩

theorem isPunctuation_of_isClearText {s : String} (clear : isClearText s = true) :
    ∀ c ∈ s.toList, isPunctuation c = false := by
  simpa [isClearText] using clear

theorem cancel_text {s s' : String} {rest' : List Char} (clear : isClearText s = true)
    (clear' : isClearText s' = true) (ends : StartsPunctuated rest)
    (ends' : StartsPunctuated rest') (same : s.toList ++ rest = s'.toList ++ rest') :
    s = s' ∧ rest = rest' := by
  obtain ⟨eq, sameRest⟩ := cancel_word (isPunctuation_of_isClearText clear)
    (isPunctuation_of_isClearText clear') ends ends' same
  exact ⟨String.toList_inj.mp eq, sameRest⟩

/-- A bar does not follow a node, so it belongs to the group. -/
theorem cancel_ending {grouped grouped' : Bool} {rest' : List Char}
    (behind : StartsBehindNode rest) (behind' : StartsBehindNode rest')
    (same : ending grouped ++ rest = ending grouped' ++ rest') :
    grouped = grouped' ∧ rest = rest' := by
  have bar (tail : List Char) : ending true ++ tail = '|' :: ("@group".toList ++ tail) := rfl
  have apart {rest : List Char} (behind : StartsBehindNode rest) (tail : List Char) :
      rest ≠ '|' :: tail := fun eq => absurd (behind '|' tail eq) (by decide)
  cases grouped <;> cases grouped'
  · exact ⟨rfl, same⟩
  · exact absurd (same.trans (bar rest')) (apart behind _)
  · exact absurd (same.symm.trans (bar rest)) (apart behind' _)
  · exact ⟨rfl, List.append_cancel_left same⟩

theorem leaf_ne_group {source : String} (clear : isClearText source = true)
    (behind : StartsBehindNode rest) : source.toList ++ rest ≠ '\x7b' :: tail := by
  intro eq
  cases word : source.toList with
  | nil =>
    rw [word] at eq
    exact absurd (behind _ _ eq) (by decide)
  | cons c chars =>
    rw [word] at eq
    have first := isPunctuation_of_isClearText clear c (by rw [word]; exact List.mem_cons_self)
    rw [(List.cons.inj eq).1] at first
    contradiction

theorem childrenChars_ne_brace {key : String} (clear : isClearText key = true) :
    childrenChars ((key, node) :: children) ++ rest ≠ '\x7d' :: tail := by
  intro eq
  simp only [childrenChars, List.append_assoc, List.cons_append] at eq
  have nothing : ∀ c ∈ ([] : List Char), isPunctuation c = false := by simp
  obtain ⟨-, colon⟩ := cancel_word (isPunctuation_of_isClearText clear) nothing
    (startsPunctuated_cons (by decide)) (startsPunctuated_cons (by decide)) eq
  exact absurd (List.cons.inj colon).1 (by decide)

/-- The children that follow one child, and the brace behind them. -/
theorem cancel_moreChars {rest' : List Char} {others : List (String × KeyNode)}
    (cancel : childrenChars children ++ '\x7d' :: rest = childrenChars others ++ '\x7d' :: rest' →
      children = others ∧ rest = rest')
    (same : moreChars children ++ '\x7d' :: rest = moreChars others ++ '\x7d' :: rest') :
    children = others ∧ rest = rest' := by
  cases children with
  | nil =>
    cases others with
    | nil => exact cancel same
    | cons other others => exact absurd (List.cons.inj same).1 (by decide)
  | cons child children =>
    cases others with
    | nil => exact absurd (List.cons.inj same).1 (by decide)
    | cons other others => exact cancel (List.cons.inj same).2

mutual

/-- Two texts that begin with a node begin with the same node. -/
theorem cancel_chars : ∀ {node other : KeyNode} {rest rest' : List Char},
    node.isClear = true → other.isClear = true → StartsBehindNode rest → StartsBehindNode rest' →
      node.chars ++ rest = other.chars ++ rest' → node = other ∧ rest = rest'
  | .leaf source, .leaf source', _, _, clear, clear', behind, behind', same => by
    obtain ⟨rfl, eq⟩ := cancel_text clear clear' behind.punctuated behind'.punctuated same
    exact ⟨rfl, eq⟩
  | .leaf source, .group isArray others, _, _, clear, _, behind, _, same =>
    absurd same (leaf_ne_group clear behind)
  | .group isArray children, .leaf source, _, _, _, clear', _, behind', same =>
    absurd same.symm (leaf_ne_group clear' behind')
  | .group isArray children, .group isArray' others, rest, rest', clear, clear', behind, behind',
      same => by
    have inside : childrenChars children ++ '\x7d' :: (ending isArray ++ rest) =
        childrenChars others ++ '\x7d' :: (ending isArray' ++ rest') := by
      simpa [chars] using same
    obtain ⟨rfl, sameEnding⟩ := cancel_childrenChars clear clear' inside
    obtain ⟨rfl, eq⟩ := cancel_ending behind behind' sameEnding
    exact ⟨rfl, eq⟩

theorem cancel_childrenChars : ∀ {children others : List (String × KeyNode)}
    {rest rest' : List Char}, areClear children = true → areClear others = true →
      childrenChars children ++ '\x7d' :: rest = childrenChars others ++ '\x7d' :: rest' →
        children = others ∧ rest = rest'
  | [], [], _, _, _, _, same => ⟨rfl, (List.cons.inj same).2⟩
  | [], (key, node) :: others, _, _, _, clear', same => by
    rw [areClear, Bool.and_eq_true, Bool.and_eq_true] at clear'
    exact absurd same.symm (childrenChars_ne_brace clear'.1.1)
  | (key, node) :: children, [], _, _, clear, _, same => by
    rw [areClear, Bool.and_eq_true, Bool.and_eq_true] at clear
    exact absurd same (childrenChars_ne_brace clear.1.1)
  | (key, node) :: children, (key', node') :: others, rest, rest', clear, clear', same => by
    rw [areClear, Bool.and_eq_true, Bool.and_eq_true] at clear clear'
    obtain ⟨⟨clearKey, clearNode⟩, clearRest⟩ := clear
    obtain ⟨⟨clearKey', clearNode'⟩, clearRest'⟩ := clear'
    simp only [childrenChars, List.append_assoc, List.cons_append] at same
    obtain ⟨rfl, sameValue⟩ := cancel_text clearKey clearKey' (startsPunctuated_cons (by decide))
      (startsPunctuated_cons (by decide)) same
    obtain ⟨rfl, sameMore⟩ := cancel_chars clearNode clearNode' (startsBehindNode_moreChars _)
      (startsBehindNode_moreChars _) (List.cons.inj sameValue).2
    obtain ⟨rfl, eq⟩ := cancel_moreChars (cancel_childrenChars clearRest clearRest') sameMore
    exact ⟨rfl, eq⟩

end

end KeyNode

namespace KeyTree

variable {t t' : KeyTree}

theorem toList_text (t : KeyTree) : t.text.toList = t.written.toNode.chars := by
  simp only [text, String.toList_append, KeyNode.toList_ending, KeyNode.toList_childrenText]
  simp [written, toNode, KeyNode.chars]

theorem isClear_written (t : KeyTree) : t.written.toNode.isClear = t.isClear :=
  KeyNode.areClear_writtenChildren false t.children

/-- What is written keeps the marking of the text, and shows it. -/
theorem marking_of_at?_written {position : List Nat} {grouped : Bool}
    {children : List (String × KeyNode)}
    (found : t.written.toNode.at? position = some (.group grouped children)) :
    t.marking position = grouped := by
  cases position with
  | nil => cases found; rfl
  | cons i position =>
    obtain ⟨child, here, found⟩ := Option.bind_eq_some_iff.mp found
    rw [written, KeyNode.writtenChildren_eq, List.getElem?_map, Option.map_eq_some_iff] at here
    obtain ⟨before, here, rfl⟩ := here
    rw [marking_cons here]
    exact KeyNode.groupedAt_of_at?_written found

theorem toNode_inj : t.toNode = t'.toNode ↔ t = t' := by
  constructor
  · intro eq
    injection eq with isArray children
    calc
      t = ⟨t.isArray, t.children⟩ := rfl
      _ = t' := by rw [isArray, children]
  · exact congrArg toNode

/-- Two trees without punctuation have the same text exactly if they are written as one tree: with
the same keys and sources in the same order, and the same groups turned into arrays of objects. -/
theorem text_eq_text_iff (clear : t.isClear = true) (clear' : t'.isClear = true) :
    t.text = t'.text ↔ t.written = t'.written := by
  rw [← String.toList_inj, toList_text, toList_text]
  constructor
  · intro same
    rw [← isClear_written] at clear clear'
    have nothing : KeyNode.StartsBehindNode [] := fun _ _ eq => nomatch eq
    have sameText : t.written.toNode.chars ++ [] = t'.written.toNode.chars ++ [] := by rw [same]
    exact toNode_inj.mp (KeyNode.cancel_chars clear clear' nothing nothing sameText).1
  · intro same
    rw [same]

/-- Orders with their lines, in which the object around the tiers of a price is no array. -/
def pricedLines (isArray : Bool) : KeyTree :=
  ⟨false, [("lines", .group true
    [("", .leaf "P.#.id"), ("price", .group isArray [("tiers", .group true
      [("min", .leaf "P.#.tiers.#.min")])])])]⟩

/-- An object that is passed through and an array are not told apart. -/
theorem text_eq_text_iff_pricedLines :
    (pricedLines false).isClear = true ∧ (pricedLines true).isClear = true ∧
      (pricedLines false).text = (pricedLines true).text ∧
      (pricedLines false).written = (pricedLines true).written := by
  have clear : (pricedLines false).isClear = true := by decide
  have clear' : (pricedLines true).isClear = true := by decide
  have same : (pricedLines false).text = (pricedLines true).text := by decide
  exact ⟨clear, clear', same, (text_eq_text_iff clear clear').mp same⟩

end KeyTree

end ShapeLines
