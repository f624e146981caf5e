import ShapeLines.Proofs.Json.TextRoundTrip
import ShapeLines.Proofs.KeyMap
import ShapeLines.Proofs.Line.Pairs
import ShapeLines.Shape.Text

/-!
# Reading written lines

A line is written as pairs with commas between them. `Field.meaning` says which keys and values the
pairs stand for: a text pair for its own, a literal pair for one pair for each of its values. A line
of pairs that read back, which is a matter of each pair by itself, is read as its meaning.
-/

namespace ShapeLines

open Text (Trimmed OneLine StartsSolid EndsSolid trimmed_iff)
open Line (IsKey IsLabel Kept endsEscaped Sealed Expands)

/-- A text that can be stored on a line: it is trimmed and holds no line feed. -/
def Text.Storable (s : String) : Prop :=
  Trimmed s.toList ∧ OneLine s.toList

open Text (Storable)

instance (s : String) : Decidable (Storable s) :=
  inferInstanceAs (Decidable (_ ∧ _))

namespace Field

/-- The values that a written pair gives to its key. -/
def Written.values : Written → List String
  | .text value => [value]
  | .literal json =>
    match Json.parse? json with
    | some (.arr elements) => elements.map Json.plainText
    | _ => []

def meaning (ps : List WrittenPair) : List Line.Pair :=
  ps.flatMap fun p => p.2.values.map fun v => (p.1, v)

def pieceOf : WrittenPair → List Char
  | (key, .text value) =>
    if value = "true" then key.toList else key.toList ++ '=' :: Line.escape value.toList
  | (key, .literal text) => key.toList ++ '=' :: text.toList

/-- The pairs that stay together on a line. The values of a list that is written as a literal may
hold line feeds, which are escaped there. -/
inductive OnLine : WrittenPair → Prop
  | text {key value : String} (label : IsLabel key.toList) (storable : Storable value)
      (bracket : key ∈ Line.listKeys → opensBracket value = false) : OnLine (key, .text value)
  | literal {key : String} {values : List String} (isList : key ∈ Line.listKeys)
      (ne : values ≠ []) (trimmed : ∀ v ∈ values, Trimmed v.toList) :
      OnLine (key, .literal (Json.arr (values.map .str)).text)

/-- The key is read as it is written. The value `true` is left out together with its `=`, and then
no backslash at the end of the key may escape what comes next. -/
def KeepsKey (p : WrittenPair) : Prop :=
  Kept p.1.toList ∧ (p.2 = .text "true" → endsEscaped p.1.toList = false)

instance (p : WrittenPair) : Decidable (KeepsKey p) :=
  inferInstanceAs (Decidable (_ ∧ _))

/-- The pairs that are read as what they stand for. -/
structure ReadsBack (p : WrittenPair) : Prop where
  onLine : OnLine p
  keeps : KeepsKey p

theorem keepsKey_of_isKey {key : String} (h : IsKey key.toList) (w : Written) :
    KeepsKey (key, w) :=
  ⟨h.kept, fun _ => h.ends⟩

theorem ReadsBack.text {key value : String} (isKey : IsKey key.toList) (storable : Storable value)
    (bracket : key ∈ Line.listKeys → opensBracket value = false) : ReadsBack (key, .text value) :=
  ⟨.text isKey.label storable bracket, keepsKey_of_isKey isKey _⟩

theorem ReadsBack.literal {key : String} {values : List String} (isList : key ∈ Line.listKeys)
    (ne : values ≠ []) (trimmed : ∀ v ∈ values, Trimmed v.toList) :
    ReadsBack (key, .literal (Json.arr (values.map .str)).text) :=
  ⟨.literal isList ne trimmed, keepsKey_of_isKey (Line.isKey_of_mem_listKeys key isList) _⟩

theorem values_literal (values : List String) :
    (Written.literal (Json.arr (values.map .str)).text).values = values := by
  rw [Written.values, Json.parse?, Json.ofChars?_text]
  simp [Function.comp_def, Json.plainText]

/-- The pieces that stand on the line for a written pair once literals are expanded, each with the
pair that it is read as. -/
def expandedPieces : WrittenPair → List (List Char × Line.Pair)
  | (key, .text value) => [(pieceOf (key, .text value), (key, value))]
  | (key, .literal text) =>
    (Written.literal text).values.map fun v => (key.toList ++ '=' :: Line.escape v.toList, (key, v))

theorem expandedPieces_snd (p : WrittenPair) :
    (expandedPieces p).map (·.2) = p.2.values.map fun v => (p.1, v) := by
  obtain ⟨key, value | text⟩ := p
  · rfl
  · simp [expandedPieces, Function.comp_def]

theorem opensBracket_eq_false {value : String} (h : opensBracket value = false) :
    ∀ s, value.toList ≠ '[' :: s := by
  intro s hs
  simp [opensBracket, hs] at h

theorem ReadsBack.expands {p : WrittenPair} (h : ReadsBack p) :
    Expands (pieceOf p) (List.intercalate [','] ((expandedPieces p).map (·.1))) := by
  obtain ⟨onLine, kept, bare⟩ := h
  cases onLine with
  | @text key value label storable bracket =>
    have same : List.intercalate [','] ((expandedPieces (key, .text value)).map (·.1)) =
        pieceOf (key, .text value) := by
      simp [expandedPieces]
    rw [same, pieceOf]
    split
    · next eq => exact Line.expands_label label (Line.sealed_of_tokens kept (bare (by rw [eq])))
    · refine Line.expands_pair label kept (trimmed_iff.mp storable.1).1 fun hk => ?_
      rw [String.ofList_toList] at hk
      exact opensBracket_eq_false (bracket hk)
  | @literal key values isList ne trimmed =>
    have pieces : (expandedPieces (key, .literal (Json.arr (values.map .str)).text)).map (·.1) =
        values.map fun v => key.toList ++ '=' :: Line.escape v.toList := by
      simp only [expandedPieces, values_literal, List.map_map]
      rfl
    have expands := Line.expands_literal isList (Json.ofChars?_text values)
    rw [Line.elementTexts, List.map_map] at expands
    rw [pieces]
    exact expands

theorem ReadsBack.denotes {p : WrittenPair} (h : ReadsBack p) :
    ∀ q ∈ expandedPieces p, Line.Denotes q.1 q.2 := by
  obtain ⟨onLine, kept, bare⟩ := h
  cases onLine with
  | @text key value label storable bracket =>
    intro q hq
    rw [expandedPieces, List.mem_singleton] at hq
    subst hq
    rw [pieceOf]
    split
    · next eq =>
      have whole := Line.sealed_of_tokens kept (bare (by rw [eq]))
      simpa [eq] using Line.denotes_label label whole
    · have denotes := Line.denotes_pair label kept value.toList
      rwa [storable.1, String.ofList_toList, String.ofList_toList] at denotes
  | @literal key values isList ne trimmed =>
    intro q hq
    rw [expandedPieces, values_literal] at hq
    obtain ⟨v, hv, rfl⟩ := List.mem_map.mp hq
    have denotes := Line.denotes_listPair isList v.toList
    rwa [trimmed v hv, String.ofList_toList] at denotes

theorem OnLine.expandedPieces_ne_nil {p : WrittenPair} (h : OnLine p) : expandedPieces p ≠ [] := by
  cases h with
  | text => simp [expandedPieces]
  | literal isList ne trimmed => simpa [expandedPieces, values_literal] using ne

def lineOf (ps : List WrittenPair) : List Char :=
  List.intercalate [','] (ps.map pieceOf)

/-- A line of pairs that read back is read as their meaning. -/
theorem pairs_lineOf {ps : List WrittenPair} (h : ∀ p ∈ ps, ReadsBack p) (ne : ps ≠ []) :
    Line.pairs (lineOf ps) = .ok (meaning ps) := by
  have expanded : Line.expand (lineOf ps) =
      .ok (List.intercalate [','] ((ps.flatMap expandedPieces).map (·.1))) := by
    rw [lineOf, (Expands.intercalate (fun p hp => (h p hp).expands) ne).last,
      Text.intercalate_flatMap, List.map_flatMap]
    intro p hp
    simpa using (h p hp).onLine.expandedPieces_ne_nil
  have denoted : ∀ q ∈ ps.flatMap expandedPieces, Line.Denotes q.1 q.2 := by
    intro q hq
    obtain ⟨p, hp, hqp⟩ := List.mem_flatMap.mp hq
    exact (h p hp).denotes q hqp
  rw [Line.pairs, expanded]
  refine (Line.pairsOfTokens_intercalate denoted).trans ?_
  simp only [meaning, List.map_flatMap, expandedPieces_snd]

/-! ## The line as a text -/

theorem endsSolid_equals {key v : List Char} (h : EndsSolid v) : EndsSolid (key ++ '=' :: v) := by
  rw [← Text.trimEnd_eq_self_iff, Text.trimEnd_append_cons (by decide),
    Text.trimEnd_eq_self_iff.mpr h]

def literalBody (values : List String) : List Char :=
  List.intercalate [','] (values.map fun v => (Json.Token.str v).text)

theorem flatMap_moreElements (values : List String) :
    (Json.moreElements (values.map .str)).flatMap Json.Token.text =
      values.flatMap (fun v => ',' :: (Json.Token.str v).text) ++ [']'] := by
  induction values with
  | nil => rfl
  | cons v values ih =>
    simp only [List.map_cons, Json.moreElements, Json.tokens, List.singleton_append,
      List.flatMap_cons, ih, List.append_assoc]
    rfl

theorem text_eq_literalBody (values : List String) :
    (Json.arr (values.map .str)).text.toList = '[' :: (literalBody values ++ [']']) := by
  rw [Json.text, String.toList_ofList]
  cases values with
  | nil => rfl
  | cons v values =>
    rw [literalBody, List.map_cons, List.map_cons, Text.intercalate_cons, List.flatMap_map]
    simp only [Json.tokens, List.singleton_append, List.flatMap_cons,
      flatMap_moreElements, List.append_assoc]
    rfl

theorem OnLine.ends {p : WrittenPair} (h : OnLine p) :
    StartsSolid (pieceOf p) ∧ EndsSolid (pieceOf p) ∧ pieceOf p ≠ [] := by
  cases h with
  | @text key value label storable bracket =>
    rw [pieceOf]
    split
    · exact ⟨label.startsSolid, label.endsSolid, label.ne⟩
    · refine ⟨label.startsSolid.append label.ne _, endsSolid_equals ?_, by simp⟩
      exact Line.endsSolid_escape (trimmed_iff.mp storable.1).2
  | @literal key values isList ne trimmed =>
    have label := (Line.isKey_of_mem_listKeys _ isList).label
    rw [pieceOf, text_eq_literalBody]
    refine ⟨label.startsSolid.append label.ne _, endsSolid_equals ?_, by simp⟩
    rw [← List.cons_append]
    refine EndsSolid.append ?_ (by simp) _
    intro c front hc
    have last := (List.append_inj' (show [] ++ [']'] = front ++ [c] from hc) rfl).2
    rw [List.singleton_inj] at last
    rw [← last]
    decide

theorem oneLine_encode (s : List Char) : OneLine (Json.Quoted.encode s) := by
  intro feed
  obtain ⟨c, -, hc⟩ := List.mem_flatMap.mp feed
  have digit : ∀ n, n < 16 → Nat.digitChar n ≠ '\n' := by decide
  unfold Json.Quoted.encodeChar at hc
  split at hc
  · next l hl =>
    have letter : l ≠ '\n' := by
      rintro rfl
      have back := Json.Quoted.ofLetter?_letter? hl
      simp [Json.Quoted.ofLetter?] at back
    simp [Ne.symm letter] at hc
  · split at hc
    · have high := digit (c.toNat / 16) (by omega)
      have low := digit (c.toNat % 16) (by omega)
      simp [Ne.symm high, Ne.symm low] at hc
    · next control =>
      rw [List.mem_singleton] at hc
      subst hc
      exact control (by decide)

theorem OnLine.oneLine {p : WrittenPair} (h : OnLine p) : OneLine (pieceOf p) := by
  have equals : OneLine ['='] := by decide
  cases h with
  | @text key value label storable bracket =>
    rw [pieceOf]
    split
    · exact label.oneLine
    · exact label.oneLine.append (equals.append (Line.oneLine_escape storable.2))
  | @literal key values isList ne trimmed =>
    have quote : OneLine ['"'] := by decide
    have comma : OneLine [','] := by decide
    have open' : OneLine ['['] := by decide
    have close : OneLine [']'] := by decide
    rw [pieceOf, text_eq_literalBody]
    refine (Line.isKey_of_mem_listKeys _ isList).label.oneLine.append (equals.append (open'.append
      (OneLine.append ?_ close)))
    refine Text.oneLine_intercalate comma fun s hs => ?_
    obtain ⟨v, -, rfl⟩ := List.mem_map.mp hs
    exact quote.append ((oneLine_encode v.toList).append quote)

theorem lineOf_solid {ps : List WrittenPair} (h : ∀ p ∈ ps, OnLine p) (ne : ps ≠ []) :
    Trimmed (lineOf ps) ∧ OneLine (lineOf ps) ∧ lineOf ps ≠ [] := by
  have pieces : ∀ s ∈ ps.map pieceOf, StartsSolid s ∧ EndsSolid s ∧ s ≠ [] ∧ OneLine s := by
    intro s hs
    obtain ⟨p, hp, rfl⟩ := List.mem_map.mp hs
    obtain ⟨starts, ends, ne⟩ := (h p hp).ends
    exact ⟨starts, ends, ne, (h p hp).oneLine⟩
  refine ⟨trimmed_iff.mpr ⟨?_, ?_⟩, ?_, ?_⟩
  · exact Text.startsSolid_intercalate (fun s hs => (pieces s hs).1) fun s hs => (pieces s hs).2.2.1
  · exact Text.endsSolid_intercalate (fun s hs => (pieces s hs).2.1) fun s hs => (pieces s hs).2.2.1
  · exact Text.oneLine_intercalate (by decide) fun s hs => (pieces s hs).2.2.2
  · exact Text.intercalate_ne_nil (fun s hs => (pieces s hs).2.2.1) (by simpa using ne)

end Field

end ShapeLines
