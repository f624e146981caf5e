import ShapeLines.Proofs.Shape.Reread

/-!
# Counting lines

Every line that is not blank declares the header or a field, so a text that is read as a shape has
one such line more than the shape has fields. A list value that is written with a line feed in it
takes two lines. So a shape with such a value is not read from its text.
-/

namespace ShapeLines

open Text (Trimmed OneLine solidLines)

/-- A list that is cut into as many parts as there are elements, none of them empty, has one for
each. -/
theorem length_eq_one_of_flatMap {α β : Type} {f : α → List β} {l : List α}
    (ne : ∀ a ∈ l, f a ≠ []) (total : (l.flatMap f).length = l.length) :
    ∀ a ∈ l, (f a).length = 1 := by
  have least : ∀ {l : List α}, (∀ a ∈ l, f a ≠ []) → l.length ≤ (l.flatMap f).length := by
    intro l ne
    induction l with
    | nil => exact Nat.le_refl 0
    | cons a l ih =>
      obtain ⟨here, others⟩ := List.forall_mem_cons.mp ne
      have first := List.length_pos_of_ne_nil here
      have rest := ih others
      rw [List.flatMap_cons, List.length_append, List.length_cons]
      omega
  induction l with
  | nil => exact List.forall_mem_nil _
  | cons a l ih =>
    obtain ⟨here, others⟩ := List.forall_mem_cons.mp ne
    have first := List.length_pos_of_ne_nil here
    have rest := least others
    rw [List.flatMap_cons, List.length_append, List.length_cons] at total
    exact List.forall_mem_cons.mpr ⟨by omega, ih others (by omega)⟩

namespace Field

theorem isInfix_lineOf {p : WrittenPair} {ps : List WrittenPair} (mem : p ∈ ps) :
    pieceOf p <:+: lineOf ps :=
  Text.isInfix_intercalate (List.mem_map_of_mem mem)

theorem mem_orderedPairs_iff (order : KeyOrder) {h : Header} {f : Field} {p : WrittenPair} :
    p ∈ f.orderedPairs order h ↔ p ∈ f.writtenPairs h :=
  (List.mergeSort_perm _ _).mem_iff

theorem fullname_mem_writtenPairs (h : Header) (f : Field) :
    ("fullname", .text f.fullname) ∈ f.writtenPairs h := by
  simp [writtenPairs]

theorem exists_mem_writtenPairs {f : Field} {vs : List String} {v : String} (inLists : vs ∈ f.lists)
    (plain : vs.any opensBracket = false) (inList : v ∈ vs) (h : Header) :
    ∃ key, (key, .text v) ∈ f.writtenPairs h := by
  have repeated {key : String} : (key, .text v) ∈ repeatedPairs key vs := by
    rw [repeatedPairs, plain]
    exact List.mem_map_of_mem inList
  simp only [lists, List.mem_cons, List.not_mem_nil, or_false] at inLists
  rcases inLists with rfl | rfl | rfl
  · exact ⟨"enum", by simp [writtenPairs, repeated]⟩
  · exact ⟨"enumNames", by simp [writtenPairs, repeated]⟩
  · exact ⟨"const", by simp [writtenPairs, repeated]⟩

theorem solidLines_lineOf_ne_nil {key : String} {w : Written} {ps : List WrittenPair}
    (mem : (key, w) ∈ ps) {c : Char} (inKey : c ∈ key.toList) (solid : Text.isBlank c = false) :
    solidLines (lineOf ps) ≠ [] := by
  refine Text.solidLines_ne_nil ((isInfix_lineOf mem).subset ?_) solid
  cases w with
  | text value =>
    rw [pieceOf]
    split
    · exact inKey
    · exact List.mem_append_left _ inKey
  | literal text => exact List.mem_append_left _ inKey

/-- A trimmed value with a line feed in it takes two lines. -/
theorem two_le_solidLines {key value : String} {ps : List WrittenPair}
    (mem : (key, .text value) ∈ ps) (trimmed : Trimmed value.toList)
    (feed : ¬OneLine value.toList) : 2 ≤ (solidLines (lineOf ps)).length := by
  have given : value ≠ "true" := by
    rintro rfl
    exact feed (by decide)
  obtain ⟨left, right, whole⟩ := isInfix_lineOf mem
  obtain ⟨front, back, cut⟩ := List.append_of_mem (Classical.not_not.mp feed)
  obtain ⟨last, solid, inBack⟩ : ∃ c, Text.isBlank c = false ∧ c ∈ back := by
    have ends := (Text.trimmed_iff.mp trimmed).2
    rw [cut] at ends
    rcases List.eq_nil_or_concat back with rfl | ⟨init, c, rfl⟩
    · exact absurd (ends '\n' front rfl) (by decide)
    · exact ⟨c, ends c (front ++ '\n' :: init) (by simp), by simp⟩
  have parted : lineOf ps = (left ++ key.toList ++ '=' :: Line.escape front) ++
      '\n' :: (Line.escape back ++ right) := by
    rw [← whole, pieceOf, if_neg given, cut, Line.escape_append, Line.escape_cons,
      if_neg (by decide)]
    simp
  have first : solidLines (left ++ key.toList ++ '=' :: Line.escape front) ≠ [] :=
    Text.solidLines_ne_nil (c := '=') (by simp) (by decide)
  have second : solidLines (Line.escape back ++ right) ≠ [] :=
    Text.solidLines_ne_nil (List.mem_append_left right (Line.mem_escape inBack)) solid
  rw [parted, Text.solidLines_append_feed, List.length_append]
  have firstLength := List.length_pos_of_ne_nil first
  have secondLength := List.length_pos_of_ne_nil second
  omega

end Field

namespace Shape

theorem length_of_parse {text : String} {s : Shape} (read : parse text = .ok s) :
    (solidLines text.toList).length = s.fields.length + 1 := by
  obtain ⟨before, line, after, fields, lines, -, declare, same⟩ := exists_around_header read
  have length := declare.length_eq
  rw [List.length_append] at length
  rw [lines, same, List.length_append, List.length_cons, List.length_map, ← length]
  omega

/-- A shape whose text is read as a shape with as many fields keeps its lists. -/
theorem Stored.keepsLists {s s' : Shape} (stored : s.Stored) {order : KeyOrder}
    (read : parse (s.text order) = .ok s') (length : s'.fields.length = s.fields.length) :
    ∀ f ∈ s.fields, f.KeepsLists := by
  have ne : ∀ line ∈ (s.linePairs order).map Field.lineOf, solidLines line ≠ [] := by
    rw [linePairs, List.map_cons, List.forall_mem_cons]
    constructor
    · have inHeader : ("direction", .text s.header.direction.name) ∈ headerPairs s.header := by
        simp [headerPairs]
      exact Field.solidLines_lineOf_ne_nil inHeader (c := 'd') (by decide) (by decide)
    · intro line mem
      rw [List.map_map] at mem
      obtain ⟨f, -, rfl⟩ := List.mem_map.mp mem
      have inField := (Field.mem_orderedPairs_iff order).mpr
        (Field.fullname_mem_writtenPairs s.header f)
      exact Field.solidLines_lineOf_ne_nil inField (c := 'f') (by decide) (by decide)
  have total : (((s.linePairs order).map Field.lineOf).flatMap solidLines).length =
      ((s.linePairs order).map Field.lineOf).length := by
    rw [← Text.solidLines_intercalate, ← toList_text, length_of_parse read, length]
    simp [linePairs]
  have one := length_eq_one_of_flatMap ne total
  intro f inFields vs inLists plain v inList
  by_contra feed
  obtain ⟨key, written⟩ := Field.exists_mem_writtenPairs inLists plain inList s.header
  have two := Field.two_le_solidLines ((Field.mem_orderedPairs_iff order).mpr written)
    ((stored.fields f inFields).lists vs inLists v inList) feed
  have inLines : Field.lineOf (f.orderedPairs order s.header) ∈
      (s.linePairs order).map Field.lineOf :=
    List.mem_map_of_mem (List.mem_cons_of_mem _ (List.mem_map_of_mem inFields))
  rw [one _ inLines] at two
  omega

end Shape

end ShapeLines
