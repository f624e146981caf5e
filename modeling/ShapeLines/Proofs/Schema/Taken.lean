import Mathlib.Data.List.Induction
import ShapeLines.Proofs.Schema.Keywords

/-!
# A field from the keywords of a node

The keywords of a node ascend, so each key is read once and `enum` is read before `oneOf`. What the
field takes at each key is therefore known from what the keywords have there.
-/

namespace ShapeLines

namespace Entries

variable {α : Type} {l : List (String × α)} {e : String × α}

theorem get?_concat (ascending : Ascending (l ++ [e])) (key : String) :
    get? key (l ++ [e]) = if key = e.1 then some e.2 else get? key l := by
  have left : Ascending l := (List.pairwise_append.mp ascending).1
  rw [get?_eq_head?, valuesAt_append, left.valuesAt, valuesAt_cons]
  by_cases eq : key = e.1
  · have absent : get? key l = none := by
      rw [get?_eq_none_iff]
      intro d mem same
      have lt := (List.pairwise_append.mp ascending).2.2 d mem e (by simp)
      rw [same, eq] at lt
      exact String.lt_irrefl _ lt
    rw [if_pos eq, if_pos eq.symm, absent]
    rfl
  · simp only [if_neg eq, if_neg (Ne.symm eq), valuesAt_nil, List.append_nil]
    cases get? key l <;> rfl

theorem get?_eq_none_of_lt (ascending : Ascending (l ++ [e])) (key : String)
    (above : ¬ key < e.1) : get? key l = none := by
  rw [get?_eq_none_iff]
  intro d mem same
  have lt := (List.pairwise_append.mp ascending).2.2 d mem e (by simp)
  rw [same] at lt
  exact above lt

end Entries

namespace Field

variable {f g : Field} {keywords : List (String × Json)} {e : String × Json}

/-- The list of values with titles that stands under `oneOf`, if one does. -/
def titledAt? (keywords : List (String × Json)) : Option (List String × List String) :=
  (Entries.get? "oneOf" keywords).bind titledValues?

/-- The attributes of a field are those that the keywords give. -/
structure TakenFrom (keywords : List (String × Json)) (g : Field) : Prop where
  format : g.format = (Entries.get? "format" keywords).map Json.plainText
  constValues : g.constValues = (Entries.get? "const" keywords).elim [] rawTexts
  defaultText : g.defaultText = (Entries.get? "default" keywords).map Json.plainText
  exampleText : g.exampleText = (Entries.get? "example" keywords).map Json.plainText
  examplesText : g.examplesText = (Entries.get? "examples" keywords).map examplesRaw
  enumValues : g.enumValues = (titledAt? keywords).elim
    ((Entries.get? "enum" keywords).elim [] rawTexts) (·.1)
  enumNames : g.enumNames = (titledAt? keywords).elim [] (·.2)
  extra : ∀ key, g.extra.get? key =
    if key ∈ attributeKeys ∨ key = "oneOf" ∧ (titledAt? keywords).isSome then none
    else (Entries.get? key keywords).map Json.plainText

theorem takenFrom_nil (fullname : String) (type : FieldType) (required : Bool) :
    TakenFrom [] { fullname, type, required } := by
  constructor <;> try rfl
  intro key
  simp only [Entries.get?, Option.map_none, ite_self]
  rfl

section

variable {key own : String} {value : Json}
  (ascending : Entries.Ascending (keywords ++ [(key, value)]))

include ascending

theorem get?_last : Entries.get? key (keywords ++ [(key, value)]) = some value := by
  rw [Entries.get?_concat ascending, if_pos rfl]

theorem get?_front (ne : own ≠ key) :
    Entries.get? own (keywords ++ [(key, value)]) = Entries.get? own keywords := by
  rw [Entries.get?_concat ascending, if_neg ne]

theorem titledAt?_front (ne : key ≠ "oneOf") :
    titledAt? (keywords ++ [(key, value)]) = titledAt? keywords := by
  rw [titledAt?, get?_front ascending (Ne.symm ne), titledAt?]

/-- Up to `oneOf` no values with titles have been read. -/
theorem titledAt?_before (le : ¬ "oneOf" < key) : titledAt? keywords = none := by
  rw [titledAt?, Entries.get?_eq_none_of_lt ascending "oneOf" le]
  rfl

/-- The keyword of an attribute is no extra one. -/
theorem TakenFrom.extra_front (taken : TakenFrom keywords g) (isAttribute : key ∈ attributeKeys)
    (k : String) : g.extra.get? k =
      if k ∈ attributeKeys ∨ k = "oneOf" ∧ (titledAt? (keywords ++ [(key, value)])).isSome
      then none else (Entries.get? k (keywords ++ [(key, value)])).map Json.plainText := by
  have ne : key ≠ "oneOf" := by
    intro eq
    simp [eq, attributeKeys] at isAttribute
  rw [taken.extra, titledAt?_front ascending ne]
  by_cases eq : k = key
  · rw [eq, if_pos (.inl isAttribute), if_pos (.inl isAttribute)]
  · rw [get?_front ascending eq]

theorem takeKeyword_of_other (g : Field) (other : key ∉ attributeKeys) (ne : key ≠ "oneOf") :
    Field.takeKeyword g (key, value) = { g with extra := g.extra.insert key value.plainText } := by
  unfold Field.takeKeyword
  dsimp only
  split
  case h_7 => contradiction
  case h_8 => rfl
  all_goals exact absurd (by decide) other

/-- A keyword that no attribute reads is kept as raw text. -/
theorem TakenFrom.takeOther (taken : TakenFrom keywords g) (other : key ∉ attributeKeys)
    (ne : key ≠ "oneOf") :
    TakenFrom (keywords ++ [(key, value)]) (Field.takeKeyword g (key, value)) := by
  have titles := titledAt?_front ascending ne
  have apart {own : String} (isAttribute : own ∈ attributeKeys) :
      Entries.get? own (keywords ++ [(key, value)]) = Entries.get? own keywords :=
    get?_front ascending fun eq => other (eq ▸ isAttribute)
  rw [takeKeyword_of_other ascending g other ne]
  constructor
  case extra =>
    intro k
    rw [KeyMap.get?_insert, taken.extra, titles]
    by_cases eq : k = key
    · subst eq
      rw [if_pos rfl, if_neg (by simp [other, ne]), get?_last ascending]
      rfl
    · rw [if_neg eq, get?_front ascending eq]
  case format => rw [taken.format, apart (by decide)]
  case constValues => rw [taken.constValues, apart (by decide)]
  case defaultText => rw [taken.defaultText, apart (by decide)]
  case exampleText => rw [taken.exampleText, apart (by decide)]
  case examplesText => rw [taken.examplesText, apart (by decide)]
  case enumValues => rw [taken.enumValues, titles, apart (by decide)]
  case enumNames => rw [taken.enumNames, titles]

end

/-- A list of values with titles replaces the values without, anything else under `oneOf` is kept as
raw text. -/
theorem TakenFrom.takeOneOf {value : Json} (taken : TakenFrom keywords g)
    (ascending : Entries.Ascending (keywords ++ [("oneOf", value)])) :
    TakenFrom (keywords ++ [("oneOf", value)]) (Field.takeKeyword g ("oneOf", value)) := by
  have noTitles := titledAt?_before ascending (String.lt_irrefl "oneOf")
  have absent := Entries.get?_eq_none_of_lt ascending "oneOf" (String.lt_irrefl "oneOf")
  have same (own : String) (ne : own ≠ "oneOf") := get?_front ascending ne
  have titled : titledAt? (keywords ++ [("oneOf", value)]) = titledValues? value := by
    rw [titledAt?, get?_last ascending]
    rfl
  simp only [Field.takeKeyword]
  cases read : titledValues? value with
  | some p =>
    rw [read] at titled
    constructor
    case extra =>
      intro k
      rw [taken.extra, noTitles, titled]
      by_cases eq : k = "oneOf"
      · simp [eq, absent]
      · simp [eq, same k eq]
    all_goals
      simp only [titled, same, ne_eq, String.reduceEq, not_false_eq_true, Option.elim_some,
        taken.format, taken.constValues, taken.defaultText, taken.exampleText, taken.examplesText]
  | none =>
    rw [read] at titled
    constructor
    case extra =>
      intro k
      rw [KeyMap.get?_insert, taken.extra, noTitles, titled]
      by_cases eq : k = "oneOf"
      · simp [eq, get?_last ascending, attributeKeys]
      · simp [eq, same k eq]
    all_goals
      simp only [titled, noTitles, same, ne_eq, String.reduceEq, not_false_eq_true,
        Option.elim_none, taken.format, taken.constValues, taken.defaultText, taken.exampleText,
        taken.examplesText, taken.enumValues, taken.enumNames]

/-- Values without titles are read while those with titles are still to come. -/
theorem TakenFrom.takeEnum {value : Json} (taken : TakenFrom keywords g)
    (ascending : Entries.Ascending (keywords ++ [("enum", value)])) :
    TakenFrom (keywords ++ [("enum", value)]) (Field.takeKeyword g ("enum", value)) := by
  have noTitles := titledAt?_before ascending (by decide)
  have titles := titledAt?_front ascending (by decide)
  have same (own : String) (ne : own ≠ "enum") := get?_front ascending ne
  have extra := taken.extra_front ascending (by decide)
  constructor
  case extra => exact extra
  all_goals
    simp only [Field.takeKeyword, titles, noTitles, get?_last ascending, same, ne_eq,
      String.reduceEq, not_false_eq_true, Option.elim_some, Option.elim_none, taken.format,
      taken.constValues, taken.defaultText, taken.exampleText, taken.examplesText, taken.enumNames]

theorem TakenFrom.takeKeyword (taken : TakenFrom keywords g)
    (ascending : Entries.Ascending (keywords ++ [e])) :
    TakenFrom (keywords ++ [e]) (takeKeyword g e) := by
  obtain ⟨key, value⟩ := e
  by_cases oneOf : key = "oneOf"
  · subst oneOf
    exact taken.takeOneOf ascending
  by_cases enum : key = "enum"
  · subst enum
    exact taken.takeEnum ascending
  by_cases other : key ∉ attributeKeys
  · exact taken.takeOther ascending other oneOf
  have isAttribute := Decidable.not_not.mp other
  have titles := titledAt?_front ascending oneOf
  have here := get?_last ascending
  have same (own : String) (ne : own ≠ key) := get?_front ascending ne
  have extra := taken.extra_front ascending isAttribute
  simp only [attributeKeys, List.mem_cons, enum, List.not_mem_nil, or_false, false_or]
    at isAttribute
  rcases isAttribute with rfl | rfl | rfl | rfl | rfl
  all_goals
    refine ⟨?_, ?_, ?_, ?_, ?_, ?_, ?_, extra⟩
  all_goals
    simp only [Field.takeKeyword, titles, here, same, ne_eq, String.reduceEq, not_false_eq_true,
      Option.map_some, Option.elim_some, taken.format, taken.constValues, taken.defaultText,
      taken.exampleText, taken.examplesText, taken.enumValues, taken.enumNames]

/-- What does not come from the keywords stays. -/
theorem takeKeyword_frame (g : Field) (e : String × Json) :
    (Field.takeKeyword g e).fullname = g.fullname ∧ (Field.takeKeyword g e).type = g.type ∧
      (Field.takeKeyword g e).required = g.required ∧ (Field.takeKeyword g e).src = g.src ∧
      (Field.takeKeyword g e).dst = g.dst := by
  obtain ⟨key, value⟩ := e
  simp only [Field.takeKeyword]
  split
  case h_7 => cases titledValues? value <;> simp
  all_goals simp

/-- The field of a node: its place, type and flag, and what its keywords give. -/
theorem takenFrom_ofKeywords (fullname : String) (type : FieldType) (required : Bool)
    (ascending : Entries.Ascending keywords) :
    TakenFrom keywords (ofKeywords fullname type required keywords) := by
  unfold ofKeywords
  induction keywords using List.reverseRecOn with
  | nil => exact takenFrom_nil fullname type required
  | append_singleton keywords e ih =>
    have left : Entries.Ascending keywords := (List.pairwise_append.mp ascending).1
    rw [List.foldl_append]
    exact (ih left).takeKeyword ascending

theorem ofKeywords_frame (fullname : String) (type : FieldType) (required : Bool)
    (keywords : List (String × Json)) :
    let g := ofKeywords fullname type required keywords
    g.fullname = fullname ∧ g.type = type ∧ g.required = required ∧ g.src = "" ∧ g.dst = "" := by
  unfold ofKeywords
  induction keywords using List.reverseRecOn with
  | nil => simp
  | append_singleton keywords e ih =>
    rw [List.foldl_append]
    obtain ⟨fullname', type', required', src, dst⟩ := takeKeyword_frame
      (keywords.foldl Field.takeKeyword { fullname, type, required }) e
    obtain ⟨fullname'', type'', required'', src', dst'⟩ := ih
    exact ⟨fullname'.trans fullname'', type'.trans type'', required'.trans required'',
      src.trans src', dst.trans dst'⟩

@[simp] theorem fullname_ofKeywords (fullname : String) (type : FieldType) (required : Bool)
    (keywords : List (String × Json)) :
    (ofKeywords fullname type required keywords).fullname = fullname :=
  (ofKeywords_frame fullname type required keywords).1

@[simp] theorem type_ofKeywords (fullname : String) (type : FieldType) (required : Bool)
    (keywords : List (String × Json)) :
    (ofKeywords fullname type required keywords).type = type :=
  (ofKeywords_frame fullname type required keywords).2.1

@[simp] theorem required_ofKeywords (fullname : String) (type : FieldType) (required : Bool)
    (keywords : List (String × Json)) :
    (ofKeywords fullname type required keywords).required = required :=
  (ofKeywords_frame fullname type required keywords).2.2.1

end Field

end ShapeLines
