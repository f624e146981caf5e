import ShapeLines.Proofs.Line.Pairs

/-!
# Lines with a list literal

The text of a JSON array under a list key stands for one pair for each element, between the pairs of
what stands before it on the line and the pairs of what stands behind it. The elements may be any
values: nothing that they hold is taken for another literal, is cut at a comma or changes the pairs
beside it.
-/

namespace ShapeLines.Line

variable {key : String} {w e text rest s : List Char} {elements : List Json} {ps : List Pair}

/-- A part of a line between what stands before it and what stands behind it, as far as there is
something. -/
def within (before : Option (List Char)) (part : List Char) (after : Option (List Char)) :
    List Char :=
  List.intercalate [','] (before.toList ++ part :: after.toList)

/-- The pairs that the elements of an array stand for. -/
def elementPairs (key : String) (elements : List Json) : List Pair :=
  elements.map fun v => (key, String.ofList (Text.trim v.plainText.toList))

/-- No piece opens a literal, and a comma behind the text separates. -/
structure OpensNone (s : List Char) : Prop where
  ends : endsEscaped s = false
  closed : ∀ p ∈ pieces s, opening? p = none

theorem OpensNone.expands (h : OpensNone s) : Expands s s := by
  have same : ∀ p ∈ pieces s, Expands p p := fun p mem => by
    obtain ⟨t, sealedPiece⟩ := sealed_of_mem_pieces h.ends p mem
    exact Expands.same sealedPiece (h.closed p mem)
  have whole := Expands.intercalate same (pieces_ne_nil s)
  rwa [List.map_id', intercalate_pieces] at whole

theorem OpensNone.splits (h : OpensNone s) : Splits s := by
  have whole := Splits.intercalate fun p mem =>
    (sealed_of_mem_pieces h.ends p mem).choose_spec.splits
  rwa [intercalate_pieces] at whole

theorem Expands.pairs (h : Expands w e) : pairs w = pairsOfTokens e := by
  rw [Line.pairs, h.last]
  rfl

/-- What stands before a comma that separates and what stands behind it are read apart. -/
theorem Expands.pairs_append_comma (h : Expands w e) (splits : Splits e) :
    Line.pairs (w ++ ',' :: rest) = .ok ps ↔ ∃ first last,
      Line.pairs w = .ok first ∧ Line.pairs rest = .ok last ∧ ps = first ++ last := by
  rw [h.pairs, Line.pairs, Line.pairs, h.more]
  cases expand rest with
  | error fault => simp [Except.map, Except.bind]
  | ok expanded =>
    show pairsOfTokens (e ++ ',' :: expanded) = .ok ps ↔ ∃ first last,
      pairsOfTokens e = .ok first ∧ pairsOfTokens expanded = .ok last ∧ ps = first ++ last
    rw [pairsOfTokens_append_comma splits]
    cases pairsOfTokens e with
    | error fault => simp [Except.bind]
    | ok first => cases pairsOfTokens expanded <;> simp [Except.bind, Except.map, eq_comm]

theorem pairs_nil : pairs [] = .ok [] := by
  have empty : Expands [] [] := Expands.same Sealed.nil rfl
  rw [empty.pairs]
  rfl

/-! ## The text of an array -/

theorem intercalate_elementTexts (key : String) (elements : List Json) :
    List.intercalate [','] (elementTexts key elements) =
      valueTexts key (elements.map fun v => v.plainText.toList) := by
  rw [elementTexts, valueTexts, List.map_map]
  rfl

theorem splits_elementTexts (isList : key ∈ listKeys) (elements : List Json) :
    Splits (List.intercalate [','] (elementTexts key elements)) := by
  rw [intercalate_elementTexts]
  exact splits_valueTexts isList _

theorem pairsOfTokens_elementTexts (isList : key ∈ listKeys) (elements : List Json) :
    pairsOfTokens (List.intercalate [','] (elementTexts key elements)) =
      .ok (elementPairs key elements) := by
  rw [intercalate_elementTexts, pairsOfTokens_valueTexts isList, valuePairs, List.map_map]
  rfl

/-- A line on which the text of an array stands under a list key is read as what stands before it,
one pair for each element and what stands behind it. What stands before it is to open no literal of
its own; what stands behind it may. -/
theorem pairs_within (isList : key ∈ listKeys) (read : Json.ofChars? text = some (.arr elements))
    {before : Option (List Char)} (plain : ∀ s ∈ before, OpensNone s) (after : Option (List Char)) :
    pairs (within before (key.toList ++ '=' :: text) after) = .ok ps ↔ ∃ first last,
      pairsOfTokens (before.getD []) = .ok first ∧ pairs (after.getD []) = .ok last ∧
        ps = first ++ elementPairs key elements ++ last := by
  have literal := expands_literal isList read
  have own : pairs (key.toList ++ '=' :: text) = .ok (elementPairs key elements) :=
    literal.pairs.trans (pairsOfTokens_elementTexts isList elements)
  have behind {ps : List Pair} : pairs (within none (key.toList ++ '=' :: text) after) = .ok ps ↔
      ∃ last, pairs (after.getD []) = .ok last ∧ ps = elementPairs key elements ++ last := by
    cases after with
    | none => simp [within, own, pairs_nil, eq_comm]
    | some rest =>
      have line : within none (key.toList ++ '=' :: text) (some rest) =
          key.toList ++ '=' :: text ++ ',' :: rest := by
        simp [within, List.intercalate_cons_cons]
      rw [line, literal.pairs_append_comma (splits_elementTexts isList elements), own]
      simp
  cases before with
  | none =>
    have empty : pairsOfTokens [] = .ok [] := rfl
    simpa [empty] using behind
  | some s =>
    have line : within (some s) (key.toList ++ '=' :: text) after =
        s ++ ',' :: within none (key.toList ++ '=' :: text) after := by
      cases after <;> simp [within, List.intercalate_cons_cons]
    have opensNone := plain s rfl
    rw [line, opensNone.expands.pairs_append_comma opensNone.splits, opensNone.expands.pairs]
    simp only [behind, Option.getD_some, List.append_assoc]
    constructor
    · rintro ⟨first, _, readFirst, ⟨last, readLast, rfl⟩, rfl⟩
      exact ⟨first, last, readFirst, readLast, rfl⟩
    · rintro ⟨first, last, readFirst, readLast, rfl⟩
      exact ⟨first, _, readFirst, ⟨last, readLast, rfl⟩, rfl⟩

/-- An array whose elements hold brackets, quotes, commas, backslashes and equals signs. -/
def mixedArray : List Char :=
  " [\"[x,y]\", \x7b\"a\": \"]\"\x7d, \"p,q\\\\r=s\", [1,\"]\\\"\"]] ".toList

def mixedElements : List Json :=
  [.str "[x,y]", .obj [("a", .str "]")], .str "p,q\\r=s",
    .arr [.num (.int 1 (by decide)), .str "]\""]]

theorem ofChars?_mixedArray : Json.ofChars? mixedArray = some (.arr mixedElements) := by
  have tokens : Json.Token.ofText? mixedArray = some (Json.arr mixedElements).tokens := by
    decide +kernel
  rw [Json.ofChars?, tokens]
  rfl

theorem pairs_within_mixed : "enum" ∈ listKeys ∧
    Json.ofChars? mixedArray = some (.arr mixedElements) ∧ OpensNone "src=a\\,b".toList ∧
    pairs (within (some "src=a\\,b".toList) ("enum".toList ++ '=' :: mixedArray)
        (some "required".toList)) =
      .ok [("src", "a,b"), ("enum", "[x,y]"), ("enum", "\x7b\"a\":\"]\"\x7d"),
        ("enum", "p,q\\r=s"), ("enum", "[1,\"]\\\"\"]"), ("required", "true")] := by
  have isList : "enum" ∈ listKeys := by decide
  have plain : OpensNone "src=a\\,b".toList := ⟨rfl, by decide⟩
  have before : ∀ s ∈ some "src=a\\,b".toList, OpensNone s := fun s mem =>
    Option.mem_some_iff.mp mem ▸ plain
  have last : pairs "required".toList = .ok [("required", "true")] :=
    (expands_key (by decide)).pairs
  refine ⟨isList, ofChars?_mixedArray, plain, ?_⟩
  exact (pairs_within isList ofChars?_mixedArray before (some "required".toList)).mpr
    ⟨_, _, rfl, last, by decide +kernel⟩

end ShapeLines.Line
