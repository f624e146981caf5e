import ShapeLines.Proofs.Schema.Taken

/-!
# Attributes through a document and back

A raw text is typed when it is written and made plain when it is read. Where the typed value shows
the text it was made from, the attributes of a field come back as they were; where numbers are read
back from their own texts, the keywords come back although the texts may have changed.
-/

namespace ShapeLines

namespace Keyword

/-- The ways to read a raw text as a value that is no string. -/
inductive IsReader : (String → Option Json) → Prop
  | number : IsReader number?
  | boolean : IsReader boolean?
  | nothing : IsReader fun _ => none

theorem typedValue_reader (type : FieldType) :
    ∃ read, IsReader read ∧ ∀ raw, typedValue type raw = (read raw).getD (.str raw) := by
  cases type with
  | scalar type =>
    cases type with
    | string => exact ⟨_, .nothing, fun _ => rfl⟩
    | number => exact ⟨_, .number, fun _ => rfl⟩
    | integer => exact ⟨_, .number, fun _ => rfl⟩
    | boolean => exact ⟨_, .boolean, fun _ => rfl⟩
  | array => exact ⟨_, .nothing, fun _ => rfl⟩
  | object => exact ⟨_, .nothing, fun _ => rfl⟩

theorem keywordValue_reader (key : String) :
    ∃ read, IsReader read ∧ ∀ raw, keywordValue key raw = (read raw).getD (.str raw) := by
  unfold keywordValue
  by_cases isNumeric : numeric.contains key = true
  · exact ⟨_, .number, fun _ => if_pos isNumeric⟩
  · by_cases isFlag : flags.contains key = true
    · exact ⟨_, .boolean, fun _ => by rw [if_neg isNumeric, if_pos isFlag]⟩
    · exact ⟨_, .nothing, fun _ => by rw [if_neg isNumeric, if_neg isFlag]; rfl⟩

theorem eq_num_of_number? {raw : String} {v : Json} (found : number? raw = some v) :
    ∃ n, v = .num n := by
  unfold number? at found
  split at found
  · cases found
    exact ⟨_, rfl⟩
  · contradiction

theorem eq_bool_of_boolean? {raw : String} {v : Json} (found : boolean? raw = some v) :
    ∃ b, v = .bool b := by
  unfold boolean? at found
  split at found
  · cases found
    exact ⟨_, rfl⟩
  · split at found
    · cases found
      exact ⟨_, rfl⟩
    · contradiction

theorem IsReader.scalar {read : String → Option Json} (h : IsReader read) {raw : String}
    {v : Json} (found : read raw = some v) : (∃ n, v = .num n) ∨ ∃ b, v = .bool b := by
  cases h with
  | number => exact .inl (eq_num_of_number? found)
  | boolean => exact .inr (eq_bool_of_boolean? found)
  | nothing => contradiction

/-- Reading is stable: a value that has been read is read again from its plain text. -/
theorem IsReader.stable {read : String → Option Json} (h : IsReader read) (raw : String)
    (numbers : ∀ n, (read raw).getD (.str raw) = .num n →
      Json.parse? (Json.num n).text = some (.num n)) :
    (read ((read raw).getD (.str raw)).plainText).getD
      (.str ((read raw).getD (.str raw)).plainText) = (read raw).getD (.str raw) := by
  cases found : read raw with
  | none =>
    have plain : (Json.str raw).plainText = raw := rfl
    rw [Option.getD_none, plain, found]
    rfl
  | some v =>
    rw [found, Option.getD_some] at numbers
    rw [Option.getD_some]
    cases h with
    | number =>
      obtain ⟨n, rfl⟩ := eq_num_of_number? found
      have plain : (Json.num n).plainText = (Json.num n).text := rfl
      have again : number? (Json.num n).plainText = some (.num n) := by
        rw [number?, plain, numbers n rfl]
      rw [again]
      rfl
    | boolean =>
      obtain ⟨b, rfl⟩ := eq_bool_of_boolean? found
      cases b <;> rfl
    | nothing => contradiction

theorem typedValue_scalar (type : FieldType) (raw : String) :
    (∃ n, typedValue type raw = .num n) ∨ (∃ b, typedValue type raw = .bool b) ∨
      typedValue type raw = .str raw := by
  obtain ⟨read, isReader, eq⟩ := typedValue_reader type
  rw [eq]
  cases found : read raw with
  | none => exact .inr (.inr rfl)
  | some v =>
    rcases isReader.scalar found with ⟨n, rfl⟩ | ⟨b, rfl⟩
    · exact .inl ⟨n, rfl⟩
    · exact .inr (.inl ⟨b, rfl⟩)

theorem typedValue_stable {type : FieldType} {raw : String}
    (numbers : ∀ n, typedValue type raw = .num n → Json.parse? (Json.num n).text = some (.num n)) :
    typedValue type (typedValue type raw).plainText = typedValue type raw := by
  obtain ⟨read, isReader, eq⟩ := typedValue_reader type
  simp only [eq] at numbers ⊢
  exact isReader.stable raw numbers

theorem keywordValue_stable {key raw : String}
    (numbers : ∀ n, keywordValue key raw = .num n → Json.parse? (Json.num n).text = some (.num n)) :
    keywordValue key (keywordValue key raw).plainText = keywordValue key raw := by
  obtain ⟨read, isReader, eq⟩ := keywordValue_reader key
  simp only [eq] at numbers ⊢
  exact isReader.stable raw numbers

end Keyword

namespace Field

open Keyword (typedValue keywordValue)

theorem rawTexts_typedValue (type : FieldType) (raw : String) :
    rawTexts (typedValue type raw) = [(typedValue type raw).plainText] := by
  rcases Keyword.typedValue_scalar type raw with ⟨n, eq⟩ | ⟨b, eq⟩ | eq
  · rw [eq]; rfl
  · rw [eq]; rfl
  · rw [eq]; rfl

theorem titled?_titled (value : Json) (title : String) :
    titled? (titled value title) = some (value.plainText, some title) := by
  have title' : Entries.get? "title" (Entries.ofList [("const", value), ("title", .str title)]) =
      some (.str title) := by
    rw [Entries.get?_ofList]
    rfl
  rw [titled, Json.ofMembers, titled?, get?_const_titled, title']
  rfl

theorem mapM_titled? (values : List Json) (titles : List String) :
    (List.zipWith titled values titles).mapM titled? =
      some (List.zipWith (fun v t => (v.plainText, some t)) values titles) := by
  induction values generalizing titles with
  | nil => rfl
  | cons v values ih =>
    cases titles with
    | nil => rfl
    | cons t titles =>
      rw [List.zipWith_cons_cons, List.mapM_cons, titled?_titled, ih]
      rfl

/-- Values that were written with titles are read with them, as far as both go. -/
theorem titledValues?_zipWith (values : List Json) (titles : List String) :
    titledValues? (.arr (List.zipWith titled values titles)) =
      some (List.zipWith (fun v _ => v.plainText) values titles,
        List.zipWith (fun _ t => t) values titles) := by
  have firsts : (List.zipWith (fun v t => (v.plainText, some t)) values titles).map (·.1) =
      List.zipWith (fun v _ => v.plainText) values titles := by
    rw [List.map_zipWith]
  have seconds : (List.zipWith (fun v t => (v.plainText, some t)) values titles).filterMap (·.2) =
      List.zipWith (fun _ t => t) values titles := by
    induction values generalizing titles with
    | nil => rfl
    | cons v values ih =>
      cases titles with
      | nil => rfl
      | cons t titles => simp [ih]
  rw [titledValues?, mapM_titled?, Option.map_some, firsts, seconds]
  simp

theorem mem_ownKeys_of_attribute {key : String} (h : key ∈ attributeKeys) : key ∈ ownKeys := by
  simp only [attributeKeys, List.mem_cons, List.not_mem_nil, or_false] at h
  rcases h with rfl | rfl | rfl | rfl | rfl | rfl <;> decide

variable {f : Field} {key : String}

theorem get?_extra_eq_none (extra : ∀ e ∈ f.extra.entries, e.1 ∉ ownKeys) (own : key ∈ ownKeys) :
    f.extra.get? key = none := by
  unfold KeyMap.get?
  rw [Entries.get?_eq_none_iff]
  intro e mem eq
  exact extra e mem (eq ▸ own)

/-- Where no other keyword stands in its place, an attribute is written at its key. -/
theorem get?_keywords_of_attribute (extra : ∀ e ∈ f.extra.entries, e.1 ∉ ownKeys)
    (isAttribute : key ∈ attributeKeys) :
    Entries.get? key (Entries.ofList f.keywords) = f.attributeAt key := by
  have none : f.extraAt key = none := by
    rw [extraAt, get?_extra_eq_none extra (mem_ownKeys_of_attribute isAttribute)]
    exact ite_self _
  rw [get?_keywords, none, Option.none_or]

theorem get?_keywords_of_other (f : Field) (other : key ∉ attributeKeys) (ne : key ≠ "oneOf") :
    Entries.get? key (Entries.ofList f.keywords) = f.extraAt key := by
  simp only [attributeKeys, List.mem_cons, List.not_mem_nil, or_false, not_or] at other
  obtain ⟨format, enum, const, default, example', examples⟩ := other
  have nothing : f.attributeAt key = none := by
    rw [attributeAt, if_neg format, if_neg const, if_neg default, if_neg example', if_neg examples,
      enumAt_of_ne f enum ne]
  rw [get?_keywords, nothing, Option.or_none]

theorem get?_oneOf_keywords (f : Field) :
    Entries.get? "oneOf" (Entries.ofList f.keywords) =
      (f.extra.get? "oneOf").elim (f.enumAt "oneOf") fun raw => some (.str raw) := by
  rw [get?_keywords]
  have notStructural : Keyword.isStructural "oneOf" = false := by decide
  have text (raw : String) : keywordValue "oneOf" raw = .str raw := rfl
  rw [extraAt, notStructural]
  cases f.extra.get? "oneOf" with
  | none => rfl
  | some raw => simp [text]

/-- The attributes of a field can be told from its keywords. -/
structure ValuesReadBack (f : Field) : Prop where
  extra : ∀ e ∈ f.extra.entries,
    e.1 ∉ ownKeys ∧ Keyword.isStructural e.1 = false ∧ e.1 ≠ "oneOf"
  examples : f.examplesText = none
  names : f.enumNames = [] ∨ f.enumValues ≠ [] ∧ f.enumNames.length = f.enumValues.length
  values : ∀ raw ∈ f.valueTexts, (typedValue f.type raw).plainText = raw
  extraValues : ∀ e ∈ f.extra.entries, (keywordValue e.1 e.2).plainText = e.2

instance (f : Field) : Decidable (ValuesReadBack f) :=
  decidable_of_iff
    ((∀ e ∈ f.extra.entries,
        e.1 ∉ ownKeys ∧ Keyword.isStructural e.1 = false ∧ e.1 ≠ "oneOf") ∧
      f.examplesText = none ∧
      (f.enumNames = [] ∨ f.enumValues ≠ [] ∧ f.enumNames.length = f.enumValues.length) ∧
      (∀ raw ∈ f.valueTexts, (typedValue f.type raw).plainText = raw) ∧
      ∀ e ∈ f.extra.entries, (keywordValue e.1 e.2).plainText = e.2)
    ⟨fun h => ⟨h.1, h.2.1, h.2.2.1, h.2.2.2.1, h.2.2.2.2⟩,
      fun h => ⟨h.extra, h.examples, h.names, h.values, h.extraValues⟩⟩

theorem enumAt_enum (f : Field) :
    f.enumAt "enum" =
      if f.enumValues ≠ [] ∧ f.enumNames = [] then
        some (.arr (f.enumValues.map (typedValue f.type))) else none := by
  unfold enumAt
  cases f.enumValues with
  | nil => rfl
  | cons v rest => cases f.enumNames <;> rfl

theorem enumAt_oneOf (f : Field) :
    f.enumAt "oneOf" =
      if f.enumValues = [] ∨ f.enumNames = [] then none
      else
        some (.arr (List.zipWith titled (f.enumValues.map (typedValue f.type)) f.enumNames)) := by
  unfold enumAt
  cases f.enumValues with
  | nil => rfl
  | cons v rest => cases f.enumNames <;> rfl

/-- The values with titles that a field is read back with. -/
def titledBack (f : Field) : List String × List String :=
  (List.zipWith (fun v _ => v.plainText) (f.enumValues.map (typedValue f.type)) f.enumNames,
    List.zipWith (fun _ t => t) (f.enumValues.map (typedValue f.type)) f.enumNames)

theorem titledAt?_keywords (f : Field) :
    titledAt? (Entries.ofList f.keywords) =
      if f.extra.get? "oneOf" ≠ none ∨ f.enumValues = [] ∨ f.enumNames = [] then none
      else some f.titledBack := by
  rw [titledAt?, get?_oneOf_keywords, enumAt_oneOf]
  cases f.extra.get? "oneOf" with
  | some raw =>
    rw [Option.elim_some, if_pos (.inl (Option.some_ne_none raw))]
    rfl
  | none =>
    by_cases untitled : f.enumValues = [] ∨ f.enumNames = []
    · rw [Option.elim_none, if_pos untitled, if_pos (.inr untitled)]
      rfl
    · have titled : ¬ ((none : Option String) ≠ none ∨ f.enumValues = [] ∨ f.enumNames = []) :=
        fun h => untitled (h.resolve_left fun ne => ne rfl)
      rw [Option.elim_none, if_neg untitled, if_neg titled]
      exact titledValues?_zipWith _ _

theorem get?_enum_keywords (extra : ∀ e ∈ f.extra.entries, e.1 ∉ ownKeys) :
    Entries.get? "enum" (Entries.ofList f.keywords) = f.enumAt "enum" := by
  rw [get?_keywords_of_attribute extra (by decide), attributeAt_enum]

theorem rawTexts_map (type : FieldType) (texts : List String) :
    rawTexts (.arr (texts.map (typedValue type))) =
      texts.map fun raw => (typedValue type raw).plainText := by
  rw [rawTexts, List.map_map]
  rfl

theorem rawTexts_constValue? (f : Field) :
    f.constValue?.elim [] rawTexts =
      f.constValues.map fun raw => (typedValue f.type raw).plainText := by
  unfold constValue?
  match f.constValues with
  | [] => rfl
  | [raw] => exact rawTexts_typedValue f.type raw
  | raw :: other :: rest => exact rawTexts_map f.type (raw :: other :: rest)

theorem map_plainText_eq {type : FieldType} {texts : List String}
    (same : ∀ raw ∈ texts, (typedValue type raw).plainText = raw) :
    texts.map (fun raw => (typedValue type raw).plainText) = texts := by
  calc
    texts.map (fun raw => (typedValue type raw).plainText) = texts.map id :=
      List.map_congr_left same
    _ = texts := List.map_id _

theorem map_plainText_option {type : FieldType} {text : Option String}
    (same : ∀ raw ∈ text.toList, (typedValue type raw).plainText = raw) :
    (text.map (typedValue type)).map Json.plainText = text := by
  cases text with
  | none => rfl
  | some raw => exact congrArg some (same raw (by simp))

theorem zipWith_plainText {type : FieldType} {texts titles : List String}
    (same : ∀ raw ∈ texts, (typedValue type raw).plainText = raw)
    (length : titles.length = texts.length) :
    List.zipWith (fun v _ => v.plainText) (texts.map (typedValue type)) titles = texts ∧
      List.zipWith (fun _ t => t) (texts.map (typedValue type)) titles = titles := by
  induction texts generalizing titles with
  | nil =>
    have nil : titles = [] := List.eq_nil_of_length_eq_zero length
    subst nil
    exact ⟨rfl, rfl⟩
  | cons raw texts ih =>
    cases titles with
    | nil => simp at length
    | cons t titles =>
      obtain ⟨values, names⟩ := ih (fun r mem => same r (List.mem_cons_of_mem _ mem))
        (by simpa using length)
      simp [values, names, same raw List.mem_cons_self]

theorem ValuesReadBack.extraKeys (h : ValuesReadBack f) : ∀ e ∈ f.extra.entries, e.1 ∉ ownKeys :=
  fun e mem => (h.extra e mem).1

theorem ValuesReadBack.get?_oneOf (h : ValuesReadBack f) : f.extra.get? "oneOf" = none := by
  unfold KeyMap.get?
  rw [Entries.get?_eq_none_iff]
  exact fun e mem => (h.extra e mem).2.2

theorem ValuesReadBack.extraAt (h : ValuesReadBack f) (key : String) :
    (f.extraAt key).map Json.plainText = f.extra.get? key := by
  unfold Field.extraAt
  cases found : f.extra.get? key with
  | none => simp
  | some raw =>
    have mem : (key, raw) ∈ f.extra.entries := Entries.mem_of_get? found
    have plain := (h.extra _ mem).2.1
    dsimp only at plain
    rw [plain]
    exact congrArg some (h.extraValues _ mem)

section

variable {g : Field} (h : ValuesReadBack f) (taken : TakenFrom (Entries.ofList f.keywords) g)

include h taken

/-- Values and their titles are read back, from `enum` or from `oneOf`. -/
theorem ValuesReadBack.enum_eq :
    g.enumValues = f.enumValues ∧ g.enumNames = f.enumNames := by
  have same : ∀ raw ∈ f.enumValues, (typedValue f.type raw).plainText = raw :=
    fun raw mem => h.values raw (by simp [valueTexts, mem])
  rw [taken.enumValues, taken.enumNames, titledAt?_keywords, get?_enum_keywords h.extraKeys,
    enumAt_enum]
  rcases h.names with noNames | ⟨values, length⟩
  · rw [if_pos (.inr (.inr noNames)), noNames]
    constructor
    · by_cases values : f.enumValues = []
      · simp [values]
      · rw [if_pos ⟨values, rfl⟩]
        exact (rawTexts_map _ _).trans (map_plainText_eq same)
    · rfl
  · have names : f.enumNames ≠ [] := by
      intro nil
      rw [nil] at length
      exact values (List.eq_nil_of_length_eq_zero length.symm)
    obtain ⟨sameValues, sameNames⟩ := zipWith_plainText same length
    rw [if_neg (by simp [values, names, h.get?_oneOf])]
    exact ⟨sameValues, sameNames⟩

theorem ValuesReadBack.extra_eq : g.extra = f.extra := by
  apply KeyMap.ext_get?
  intro key
  rw [taken.extra]
  by_cases isAttribute : key ∈ attributeKeys
  · rw [if_pos (.inl isAttribute),
      get?_extra_eq_none h.extraKeys (mem_ownKeys_of_attribute isAttribute)]
  · by_cases ne : key = "oneOf"
    · subst ne
      rw [h.get?_oneOf, get?_oneOf_keywords, h.get?_oneOf, titledAt?_keywords, Option.elim_none,
        enumAt_oneOf, h.get?_oneOf]
      by_cases untitled : f.enumValues = [] ∨ f.enumNames = []
      · simp [untitled]
      · simp [untitled]
    · rw [if_neg (by simp [isAttribute, ne]), get?_keywords_of_other f isAttribute ne, h.extraAt]

end

/-- The attributes of a field are read back from its keywords. -/
theorem ofKeywords_keywords (h : ValuesReadBack f) :
    ofKeywords f.fullname f.type f.required (Entries.ofList f.keywords) =
      { f with src := "", dst := "" } := by
  have frame := ofKeywords_frame f.fullname f.type f.required (Entries.ofList f.keywords)
  have taken := takenFrom_ofKeywords f.fullname f.type f.required
    (Entries.ascending_ofList f.keywords)
  generalize ofKeywords f.fullname f.type f.required (Entries.ofList f.keywords) = g at frame taken
  have atKey {key : String} (isAttribute : key ∈ attributeKeys) :=
    get?_keywords_of_attribute h.extraKeys isAttribute
  have format : g.format = f.format := by
    rw [taken.format, atKey (by decide), attributeAt_format]
    cases f.format <;> rfl
  have const : g.constValues = f.constValues := by
    rw [taken.constValues, atKey (by decide), attributeAt_const, rawTexts_constValue?]
    exact map_plainText_eq fun raw mem => h.values raw (by simp [valueTexts, mem])
  have default : g.defaultText = f.defaultText := by
    rw [taken.defaultText, atKey (by decide), attributeAt_default]
    refine map_plainText_option fun raw mem => h.values raw ?_
    simp only [valueTexts, List.mem_append, mem, or_true, true_or]
  have example' : g.exampleText = f.exampleText := by
    rw [taken.exampleText, atKey (by decide), attributeAt_example]
    refine map_plainText_option fun raw mem => h.values raw ?_
    simp only [valueTexts, List.mem_append, mem, or_true]
  have examples : g.examplesText = f.examplesText := by
    rw [taken.examplesText, atKey (by decide), attributeAt_examples, h.examples]
    rfl
  obtain ⟨enumValues, enumNames⟩ := h.enum_eq taken
  obtain ⟨fullname, type, required, src, dst⟩ := frame
  calc
    g = ⟨g.fullname, g.type, g.format, g.required, g.enumValues, g.enumNames, g.constValues,
        g.defaultText, g.exampleText, g.examplesText, g.src, g.dst, g.extra⟩ := rfl
    _ = { f with src := "", dst := "" } := by
      rw [fullname, type, required, src, dst, format, const, default, example', examples,
        enumValues, enumNames, h.extra_eq taken]

/-- The numbers among the values of a field are read back from their own texts. -/
structure NumbersReadBack (f : Field) : Prop where
  extra : ∀ e ∈ f.extra.entries, e.1 ∉ ownKeys
  examples : f.examplesText = none
  values : ∀ raw ∈ f.valueTexts, ∀ n, typedValue f.type raw = .num n →
    Json.parse? (Json.num n).text = some (.num n)
  extraValues : ∀ e ∈ f.extra.entries, ∀ n, keywordValue e.1 e.2 = .num n →
    Json.parse? (Json.num n).text = some (.num n)

instance (v : Json) (p : Json.Number → Prop) [DecidablePred p] :
    Decidable (∀ n, v = .num n → p n) :=
  match v with
  | .num m => decidable_of_iff (p m) ⟨fun h n eq => Json.num.inj eq ▸ h, fun h => h m rfl⟩
  | .null => isTrue (by simp)
  | .bool _ => isTrue (by simp)
  | .str _ => isTrue (by simp)
  | .arr _ => isTrue (by simp)
  | .obj _ => isTrue (by simp)

instance (f : Field) : Decidable (NumbersReadBack f) :=
  decidable_of_iff
    ((∀ e ∈ f.extra.entries, e.1 ∉ ownKeys) ∧ f.examplesText = none ∧
      (∀ raw ∈ f.valueTexts, ∀ n, typedValue f.type raw = .num n →
        Json.parse? (Json.num n).text = some (.num n)) ∧
      ∀ e ∈ f.extra.entries, ∀ n, keywordValue e.1 e.2 = .num n →
        Json.parse? (Json.num n).text = some (.num n))
    ⟨fun h => ⟨h.1, h.2.1, h.2.2.1, h.2.2.2⟩,
      fun h => ⟨h.extra, h.examples, h.values, h.extraValues⟩⟩

theorem map_stable {type : FieldType} {texts : List String}
    (stable : ∀ raw ∈ texts,
      typedValue type (typedValue type raw).plainText = typedValue type raw) :
    (texts.map fun raw => (typedValue type raw).plainText).map (typedValue type) =
      texts.map (typedValue type) := by
  rw [List.map_map]
  exact List.map_congr_left stable

theorem zipWith_stable {type : FieldType} {texts titles : List String}
    (stable : ∀ raw ∈ texts,
      typedValue type (typedValue type raw).plainText = typedValue type raw) :
    List.zipWith titled
        ((List.zipWith (fun v _ => v.plainText) (texts.map (typedValue type)) titles).map
          (typedValue type))
        (List.zipWith (fun _ t => t) (texts.map (typedValue type)) titles) =
      List.zipWith titled (texts.map (typedValue type)) titles := by
  induction texts generalizing titles with
  | nil => rfl
  | cons raw texts ih =>
    cases titles with
    | nil => rfl
    | cons t titles =>
      have stableRest : ∀ r ∈ texts,
          typedValue type (typedValue type r).plainText = typedValue type r :=
        fun r mem => stable r (List.mem_cons_of_mem _ mem)
      simp only [List.map_cons, List.zipWith_cons_cons, stable raw List.mem_cons_self,
        ih stableRest]

theorem constValue?_stable {g : Field} (type : g.type = f.type)
    (const : g.constValues = f.constValues.map fun raw => (typedValue f.type raw).plainText)
    (stable : ∀ raw ∈ f.constValues,
      typedValue f.type (typedValue f.type raw).plainText = typedValue f.type raw) :
    g.constValue? = f.constValue? := by
  unfold constValue?
  rw [type, const, map_stable stable]

variable {g : Field}

theorem NumbersReadBack.stable (h : NumbersReadBack f) : ∀ raw ∈ f.valueTexts,
    typedValue f.type (typedValue f.type raw).plainText = typedValue f.type raw :=
  fun raw mem => Keyword.typedValue_stable (h.values raw mem)

theorem titledBack_ne_nil (values : f.enumValues ≠ []) (names : f.enumNames ≠ []) :
    f.titledBack.1 ≠ [] ∧ f.titledBack.2 ≠ [] := by
  obtain ⟨v, vs, values⟩ := List.exists_cons_of_ne_nil values
  obtain ⟨t, ts, names⟩ := List.exists_cons_of_ne_nil names
  simp [titledBack, values, names]

/-- The values that are read back are written in the same way. -/
theorem enumAt_of_takenFrom (h : NumbersReadBack f) (type : g.type = f.type)
    (taken : TakenFrom (Entries.ofList f.keywords) g) :
    g.enumAt "enum" = f.enumAt "enum" ∧
      (f.extra.get? "oneOf" = none → g.enumAt "oneOf" = f.enumAt "oneOf") := by
  have stable : ∀ raw ∈ f.enumValues,
      typedValue f.type (typedValue f.type raw).plainText = typedValue f.type raw :=
    fun raw mem => h.stable raw (by simp [valueTexts, mem])
  have enumValues := taken.enumValues
  have enumNames := taken.enumNames
  rw [titledAt?_keywords, get?_enum_keywords h.extra, enumAt_enum] at enumValues
  rw [titledAt?_keywords] at enumNames
  by_cases untitled : f.extra.get? "oneOf" ≠ none ∨ f.enumValues = [] ∨ f.enumNames = []
  · rw [if_pos untitled] at enumValues enumNames
    simp only [Option.elim_none] at enumValues enumNames
    by_cases listed : f.enumValues ≠ [] ∧ f.enumNames = []
    · rw [if_pos listed, Option.elim_some, rawTexts_map] at enumValues
      have nonempty : g.enumValues ≠ [] := by simp [enumValues, listed.1]
      rw [enumAt_enum, enumAt_enum, enumAt_oneOf, enumAt_oneOf, if_pos ⟨nonempty, enumNames⟩,
        if_pos listed, if_pos (.inr enumNames), if_pos (.inr listed.2), enumValues, type,
        map_stable stable]
      exact ⟨rfl, fun _ => rfl⟩
    · rw [if_neg listed, Option.elim_none] at enumValues
      rw [enumAt_enum, enumAt_enum, enumAt_oneOf, if_neg listed, if_neg (by simp [enumValues]),
        if_pos (.inl enumValues)]
      refine ⟨rfl, fun noOneOf => ?_⟩
      have nothing := untitled.resolve_left fun ne => ne noOneOf
      rw [enumAt_oneOf, if_pos nothing]
  · have some := untitled
    rw [not_or, not_or] at some
    obtain ⟨-, values, names⟩ := some
    rw [if_neg untitled, Option.elim_some] at enumValues enumNames
    obtain ⟨values', names'⟩ := titledBack_ne_nil values names
    rw [← enumValues] at values'
    rw [← enumNames] at names'
    rw [enumAt_enum, enumAt_enum, enumAt_oneOf, enumAt_oneOf, if_neg (by simp [names']),
      if_neg (by simp [names]), if_neg (by simp [values', names']),
      if_neg (by simp [values, names]), enumValues, enumNames, type, titledBack,
      zipWith_stable stable]
    exact ⟨rfl, fun _ => rfl⟩

theorem attributeAt_of_takenFrom (h : NumbersReadBack f) (type : g.type = f.type)
    (taken : TakenFrom (Entries.ofList f.keywords) g) {key : String}
    (isAttribute : key ∈ attributeKeys) : g.attributeAt key = f.attributeAt key := by
  have atKey {key : String} (isAttribute : key ∈ attributeKeys) :=
    get?_keywords_of_attribute h.extra isAttribute
  have again (text : Option String) (mem : ∀ raw ∈ text, raw ∈ f.valueTexts) :
      ((text.map (typedValue f.type)).map Json.plainText).map (typedValue f.type) =
        text.map (typedValue f.type) := by
    cases text with
    | none => rfl
    | some raw => exact congrArg some (h.stable raw (mem raw rfl))
  simp only [attributeKeys, List.mem_cons, List.not_mem_nil, or_false] at isAttribute
  rcases isAttribute with rfl | rfl | rfl | rfl | rfl | rfl
  · rw [attributeAt_format, attributeAt_format, taken.format, atKey (by decide),
      attributeAt_format]
    cases f.format <;> rfl
  · rw [attributeAt_enum, attributeAt_enum, (enumAt_of_takenFrom h type taken).1]
  · have const := taken.constValues
    rw [atKey (by decide), attributeAt_const, rawTexts_constValue?] at const
    rw [attributeAt_const, attributeAt_const]
    refine constValue?_stable type const fun raw mem => h.stable raw ?_
    simp [valueTexts, mem]
  · rw [attributeAt_default, attributeAt_default, taken.defaultText, atKey (by decide),
      attributeAt_default, type]
    exact again _ fun raw mem => by simp_all [valueTexts]
  · rw [attributeAt_example, attributeAt_example, taken.exampleText, atKey (by decide),
      attributeAt_example, type]
    exact again _ fun raw mem => by simp_all [valueTexts]
  · rw [attributeAt_examples, attributeAt_examples, taken.examplesText, atKey (by decide),
      attributeAt_examples, h.examples]
    rfl

theorem get?_oneOf_of_takenFrom (h : NumbersReadBack f) (type : g.type = f.type)
    (taken : TakenFrom (Entries.ofList f.keywords) g) :
    Entries.get? "oneOf" (Entries.ofList g.keywords) =
      Entries.get? "oneOf" (Entries.ofList f.keywords) := by
  have notAttribute : "oneOf" ∉ attributeKeys := by decide
  have extra := taken.extra "oneOf"
  rw [get?_oneOf_keywords, titledAt?_keywords] at extra
  rw [get?_oneOf_keywords, get?_oneOf_keywords]
  cases there : f.extra.get? "oneOf" with
  | some raw =>
    have kept : g.extra.get? "oneOf" = some raw := by
      rw [extra, there]
      simp [notAttribute, Json.plainText]
    rw [kept]
    rfl
  | none =>
    have none : g.extra.get? "oneOf" = none := by
      rw [extra, there, Option.elim_none, enumAt_oneOf]
      by_cases untitled : f.enumValues = [] ∨ f.enumNames = []
      · simp [untitled]
      · simp [untitled]
    rw [none, Option.elim_none, Option.elim_none, (enumAt_of_takenFrom h type taken).2 there]

theorem extraAt_of_takenFrom (h : NumbersReadBack f)
    (taken : TakenFrom (Entries.ofList f.keywords) g) {key : String} (other : key ∉ attributeKeys)
    (ne : key ≠ "oneOf") : g.extraAt key = f.extraAt key := by
  have read : g.extra.get? key = (f.extraAt key).map Json.plainText := by
    rw [taken.extra, if_neg (by simp [other, ne]), get?_keywords_of_other f other ne]
  unfold extraAt at read ⊢
  rw [read]
  cases Keyword.isStructural key with
  | true => rfl
  | false =>
    cases found : f.extra.get? key with
    | none => rfl
    | some raw =>
      have mem : (key, raw) ∈ f.extra.entries := Entries.mem_of_get? found
      exact congrArg some (Keyword.keywordValue_stable (h.extraValues _ mem))

/-- A field that is read from the keywords of another writes the same keywords. -/
theorem keywords_ofKeywords (h : NumbersReadBack f) (fullname : String) (required : Bool) :
    Entries.ofList
        (ofKeywords fullname f.type required (Entries.ofList f.keywords)).keywords =
      Entries.ofList f.keywords := by
  have type := type_ofKeywords fullname f.type required (Entries.ofList f.keywords)
  have taken := takenFrom_ofKeywords fullname f.type required (Entries.ascending_ofList f.keywords)
  generalize ofKeywords fullname f.type required (Entries.ofList f.keywords) = g at type taken
  apply (Entries.ascending_ofList _).ext (Entries.ascending_ofList _)
  intro key
  by_cases isAttribute : key ∈ attributeKeys
  · have notExtra : g.extra.get? key = none := by
      rw [taken.extra, if_pos (.inl isAttribute)]
    have nothing : g.extraAt key = none := by
      rw [extraAt, notExtra]
      exact ite_self _
    rw [get?_keywords, nothing, Option.none_or, attributeAt_of_takenFrom h type taken isAttribute,
      get?_keywords_of_attribute h.extra isAttribute]
  · by_cases ne : key = "oneOf"
    · subst ne
      exact get?_oneOf_of_takenFrom h type taken
    · rw [get?_keywords_of_other g isAttribute ne, get?_keywords_of_other f isAttribute ne,
        extraAt_of_takenFrom h taken isAttribute ne]

end Field

end ShapeLines
