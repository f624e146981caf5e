import ShapeLines.Proofs.Schema.Keywords
import ShapeLines.Proofs.Schema.Read

/-!
# Two declarations of one place

Where one place is declared twice the later declaration wins, attribute by attribute, and what it
does not declare is left from the earlier one: `Field.mergedWith` is the field that says so. To
declare both fields is not always the same as to declare this one, for what the two say is merged
only after it has been written. What is left from the earlier declaration keeps the form that the
earlier type gives it, and values with titles do not replace values without, since they stand under
another keyword.
-/

namespace ShapeLines

namespace Field

open Keyword (typedValue keywordValue)

variable {x y f g : Field} {key : String}

/-- The attributes of `y`, and those of `x` that `y` does not declare. Values and their titles go
together. -/
def mergedWith (x y : Field) : Field where
  fullname := x.fullname
  type := y.type
  format := y.format.or x.format
  required := x.required || y.required
  enumValues := if y.enumValues.isEmpty then x.enumValues else y.enumValues
  enumNames := if y.enumValues.isEmpty then x.enumNames else y.enumNames
  constValues := if y.constValues.isEmpty then x.constValues else y.constValues
  defaultText := y.defaultText.or x.defaultText
  exampleText := y.exampleText.or x.exampleText
  examplesText := y.examplesText.or x.examplesText
  src := y.src
  dst := y.dst
  extra := x.extra.update y.extra

@[simp] theorem way_mergedWith (x y : Field) : (x.mergedWith y).way = x.way := rfl

@[simp] theorem type_mergedWith (x y : Field) : (x.mergedWith y).type = y.type := rfl

@[simp] theorem required_mergedWith (x y : Field) :
    (x.mergedWith y).required = (x.required || y.required) := rfl

/-- The keyword under which the values of a field are written. -/
def enumKey? (f : Field) : Option String :=
  if f.enumValues.isEmpty then none
  else if f.enumNames.isEmpty then some "enum"
  else some "oneOf"

/-- The values that are written: those beyond the last title are not. -/
def enumTexts (f : Field) : List String :=
  if f.enumNames.isEmpty then f.enumValues else f.enumValues.take f.enumNames.length

/-- Each text is written alike as a value of either type. -/
def TypedAlike (type type' : FieldType) (texts : List String) : Prop :=
  ∀ raw ∈ texts, typedValue type raw = typedValue type' raw

/-- What `x` and then `y` leave is what the field merged from them writes. An extra key that is the
key of `enumKey?` hides the values that are written there. -/
structure Mergeable (x y : Field) : Prop where
  constValues : y.constValues = [] → TypedAlike x.type y.type x.constValues
  defaultText : y.defaultText = none → TypedAlike x.type y.type x.defaultText.toList
  exampleText : y.exampleText = none → TypedAlike x.type y.type x.exampleText.toList
  /-- Values of the first are left where the second has none. -/
  enumValues : ∀ key, x.enumKey? = some key → y.enumKey? = none →
    (x.mergedWith y).extra.get? key = none → TypedAlike x.type y.type x.enumTexts
  /-- Values of both stand under one keyword. -/
  enumKey : ∀ key own, x.enumKey? = some key → y.enumKey? = some own →
    (x.mergedWith y).extra.get? key = none → own = key
  /-- No extra key of the first hides the values of the second. -/
  extraKey : ∀ key, y.enumKey? = some key → y.extra.get? key = none → x.extra.get? key = none

/-- What the values of a field are written as. -/
def enumValue (f : Field) : Json :=
  let values := f.enumValues.map (typedValue f.type)
  .arr (if f.enumNames.isEmpty then values else List.zipWith titled values f.enumNames)

theorem enumAt_eq (f : Field) (key : String) :
    f.enumAt key = if f.enumKey? = some key then some f.enumValue else none := by
  unfold enumAt enumKey? enumValue
  cases f.enumValues.isEmpty <;> cases f.enumNames.isEmpty <;> simp [eq_comm]

theorem eq_of_enumKey? (h : f.enumKey? = some key) : key = "enum" ∨ key = "oneOf" := by
  unfold enumKey? at h
  split at h
  · contradiction
  · split at h
    · exact .inl (Option.some.inj h).symm
    · exact .inr (Option.some.inj h).symm

theorem titled_inj {value value' : Json} {title : String}
    (eq : titled value title = titled value' title) : value = value' := by
  have found := congrArg (Entries.get? "const") (Json.obj.inj eq)
  rw [get?_const_titled, get?_const_titled] at found
  exact Option.some.inj found

theorem zipWith_titled_inj {g g' : String → Json} (texts titles : List String) :
    List.zipWith titled (texts.map g) titles = List.zipWith titled (texts.map g') titles ↔
      ∀ raw ∈ texts.take titles.length, g raw = g' raw := by
  induction texts generalizing titles with
  | nil => simp
  | cons raw texts ih =>
    cases titles with
    | nil => simp
    | cons title titles =>
      have first : titled (g raw) title = titled (g' raw) title ↔ g raw = g' raw :=
        ⟨titled_inj, fun eq => by rw [eq]⟩
      simp only [List.map_cons, List.zipWith_cons_cons, List.cons.injEq, List.length_cons,
        List.take_succ_cons, List.forall_mem_cons, first, ih]

/-- Whether values can be told to be written with another type. -/
theorem enumValue_eq_iff (f : Field) (type : FieldType) :
    f.enumValue = ({ f with type } : Field).enumValue ↔ TypedAlike f.type type f.enumTexts := by
  unfold enumValue enumTexts TypedAlike
  dsimp only
  rw [Json.arr.injEq]
  cases f.enumNames.isEmpty with
  | true => exact List.map_inj_left
  | false => exact zipWith_titled_inj _ _

theorem constValue?_eq_iff (f : Field) (type : FieldType) :
    f.constValue? = ({ f with type } : Field).constValue? ↔
      TypedAlike f.type type f.constValues := by
  unfold constValue? TypedAlike
  dsimp only
  match f.constValues with
  | [] => simp
  | [raw] => simp
  | raw :: raw' :: rest => simp

theorem map_or_map_eq_iff {g g' : String → Json} (raw left : Option String) :
    (raw.map g).or (left.map g') = (raw.or left).map g ↔
      (raw = none → ∀ text ∈ left.toList, g' text = g text) := by
  cases raw <;> cases left <;> simp

theorem enumKey?_mergedWith (x y : Field) :
    (x.mergedWith y).enumKey? = y.enumKey?.or x.enumKey? := by
  unfold enumKey? mergedWith
  dsimp only
  cases noValues : y.enumValues.isEmpty with
  | true => simp
  | false => cases noNames : y.enumNames.isEmpty <;> simp_all

theorem isEmpty_enumValues_iff : f.enumValues.isEmpty = true ↔ f.enumKey? = none := by
  unfold enumKey?
  cases f.enumValues.isEmpty <;> cases f.enumNames.isEmpty <;> simp

theorem enumValue_mergedWith_of_none (none : y.enumKey? = none) :
    (x.mergedWith y).enumValue = ({ x with type := y.type } : Field).enumValue := by
  unfold mergedWith enumValue
  dsimp only
  rw [if_pos (isEmpty_enumValues_iff.mpr none), if_pos (isEmpty_enumValues_iff.mpr none)]

theorem enumValue_mergedWith_of_some (some : y.enumKey? = some key) :
    (x.mergedWith y).enumValue = y.enumValue := by
  have values : ¬ y.enumValues.isEmpty = true := by
    rw [isEmpty_enumValues_iff, some]
    exact Option.some_ne_none key
  unfold mergedWith enumValue
  dsimp only
  rw [if_neg values, if_neg values]

theorem extraAt_mergedWith (x y : Field) (key : String) :
    (x.mergedWith y).extraAt key = (y.extraAt key).or (x.extraAt key) := by
  unfold extraAt mergedWith
  dsimp only
  rw [KeyMap.get?_update, Option.map_or]
  split <;> rfl

theorem keywordValue_ne_arr (key raw : String) (elements : List Json) :
    keywordValue key raw ≠ .arr elements := by
  unfold keywordValue Keyword.number? Keyword.boolean?
  repeat' split
  all_goals simp

/-- At the key the two fields leave what the field merged from them writes. -/
def MergeAt (x y : Field) (key : String) : Prop :=
  (Entries.get? key (Entries.ofList y.keywords)).or
      (Entries.get? key (Entries.ofList x.keywords)) =
    Entries.get? key (Entries.ofList (x.mergedWith y).keywords)

/-- The keys of the attributes that are written under one key only. -/
def singleKeys : List String :=
  ["format", "const", "default", "example", "examples"]

theorem attributeAt_eq_enumAt (f : Field) (other : key ∉ singleKeys) :
    f.attributeAt key = f.enumAt key := by
  simp only [singleKeys, List.mem_cons, List.not_mem_nil, or_false, not_or] at other
  obtain ⟨format, const, default, example', examples⟩ := other
  rw [attributeAt, if_neg format, if_neg const, if_neg default, if_neg example', if_neg examples]

/-- Where neither field has an extra key the values of one of them are left, or of none. -/
theorem enumAt_mergedWith_eq_iff (x y : Field) (key : String) :
    (y.enumAt key).or (x.enumAt key) = (x.mergedWith y).enumAt key ↔
      (x.enumKey? = some key → y.enumKey? = none → TypedAlike x.type y.type x.enumTexts) ∧
      ∀ own, x.enumKey? = some key → y.enumKey? = some own → own = key := by
  simp only [enumAt_eq, enumKey?_mergedWith]
  cases ofY : y.enumKey? with
  | none =>
    rw [enumValue_mergedWith_of_none ofY, ← enumValue_eq_iff]
    by_cases ofX : x.enumKey? = some key <;> simp [ofX]
  | some own =>
    rw [enumValue_mergedWith_of_some ofY]
    by_cases same : own = key
    · simp [same]
    · by_cases ofX : x.enumKey? = some key <;> simp [ofX, same]

/-- What `Mergeable` asks of the values at a key is what is needed there. -/
theorem mergeAt_iff_enumKey? (other : key ∉ singleKeys) :
    MergeAt x y key ↔
      (x.enumKey? = some key → y.enumKey? = none → (x.mergedWith y).extra.get? key = none →
        TypedAlike x.type y.type x.enumTexts) ∧
      (∀ own, x.enumKey? = some key → y.enumKey? = some own →
        (x.mergedWith y).extra.get? key = none → own = key) ∧
      (y.enumKey? = some key → y.extra.get? key = none → x.extra.get? key = none) := by
  have extra : (x.mergedWith y).extra.get? key = (y.extra.get? key).or (x.extra.get? key) :=
    KeyMap.get?_update x.extra y.extra key
  unfold MergeAt
  simp only [get?_keywords, attributeAt_eq_enumAt _ other, extraAt_mergedWith, extra]
  cases structural : Keyword.isStructural key with
  | true =>
    have away (f : Field) : f.enumKey? ≠ some key := fun h => by
      rcases eq_of_enumKey? h with rfl | rfl <;> contradiction
    simp [extraAt, structural, enumAt_eq, away]
  | false =>
    simp only [extraAt, structural, Bool.false_eq_true, if_false]
    cases y.extra.get? key with
    | some raw => simp
    | none =>
      cases x.extra.get? key with
      | some raw =>
        -- An extra keyword is never written as an array, so the values of `y` cannot be meant.
        have ne : y.enumValue ≠ keywordValue key raw :=
          fun eq => keywordValue_ne_arr key raw _ eq.symm
        by_cases ofY : y.enumKey? = some key <;> simp [enumAt_eq, ofY, ne]
      | none => simpa using enumAt_mergedWith_eq_iff x y key

theorem mergeAt_iff_of_extra (extraX : x.extraAt key = none) (extraY : y.extraAt key = none) :
    MergeAt x y key ↔
      (y.attributeAt key).or (x.attributeAt key) = (x.mergedWith y).attributeAt key := by
  unfold MergeAt
  simp only [get?_keywords, extraAt_mergedWith, extraX, extraY, Option.none_or]

theorem mergeAt_const (extraX : x.extraAt "const" = none) (extraY : y.extraAt "const" = none) :
    MergeAt x y "const" ↔ (y.constValues = [] → TypedAlike x.type y.type x.constValues) := by
  rw [mergeAt_iff_of_extra extraX extraY]
  simp only [attributeAt_const]
  cases values : y.constValues with
  | nil =>
    have left : y.constValue? = none := by simp [constValue?, values]
    have merged : (x.mergedWith y).constValue? =
        ({ x with type := y.type } : Field).constValue? := by
      simp [constValue?, mergedWith, values]
    rw [left, merged, Option.none_or, constValue?_eq_iff]
    simp
  | cons raw rest =>
    have merged : (x.mergedWith y).constValue? = y.constValue? := by
      simp [constValue?, mergedWith, values]
    obtain ⟨v, own⟩ : ∃ v, y.constValue? = some v := by
      unfold constValue?
      rw [values]
      cases rest <;> exact ⟨_, rfl⟩
    rw [merged, own]
    simp

theorem mergeAt_default (extraX : x.extraAt "default" = none)
    (extraY : y.extraAt "default" = none) : MergeAt x y "default" ↔
      (y.defaultText = none → TypedAlike x.type y.type x.defaultText.toList) := by
  rw [mergeAt_iff_of_extra extraX extraY]
  exact map_or_map_eq_iff _ _

theorem mergeAt_example (extraX : x.extraAt "example" = none)
    (extraY : y.extraAt "example" = none) : MergeAt x y "example" ↔
      (y.exampleText = none → TypedAlike x.type y.type x.exampleText.toList) := by
  rw [mergeAt_iff_of_extra extraX extraY]
  exact map_or_map_eq_iff _ _

theorem mergeAt_format (extraX : x.extraAt "format" = none) (extraY : y.extraAt "format" = none) :
    MergeAt x y "format" := by
  rw [mergeAt_iff_of_extra extraX extraY]
  exact (map_or_map_eq_iff _ _).mpr fun _ _ _ => rfl

theorem mergeAt_examples (extraX : x.extraAt "examples" = none)
    (extraY : y.extraAt "examples" = none) : MergeAt x y "examples" := by
  rw [mergeAt_iff_of_extra extraX extraY]
  exact (map_or_map_eq_iff _ _).mpr fun _ _ _ => rfl

theorem extraAt_of_ownKeys (foreign : ∀ key ∈ ownKeys, f.extra.get? key = none)
    (mem : key ∈ ownKeys) : f.extraAt key = none := by
  unfold extraAt
  rw [foreign key mem]
  split <;> rfl

/-- What two fields leave at their keys is what the field merged from them writes exactly if they
are mergeable. -/
theorem forall_mergeAt_iff (foreignX : ∀ key ∈ ownKeys, x.extra.get? key = none)
    (foreignY : ∀ key ∈ ownKeys, y.extra.get? key = none) :
    (∀ key, MergeAt x y key) ↔ Mergeable x y := by
  have extraX {key : String} (mem : key ∈ ownKeys) : x.extraAt key = none :=
    extraAt_of_ownKeys foreignX mem
  have extraY {key : String} (mem : key ∈ ownKeys) : y.extraAt key = none :=
    extraAt_of_ownKeys foreignY mem
  have const := mergeAt_const (extraX (by decide)) (extraY (by decide))
  have default := mergeAt_default (extraX (by decide)) (extraY (by decide))
  have example' := mergeAt_example (extraX (by decide)) (extraY (by decide))
  have values {f : Field} {key : String} (h : f.enumKey? = some key) : key ∉ singleKeys := by
    rcases eq_of_enumKey? h with rfl | rfl <;> decide
  constructor
  · intro all
    refine ⟨const.mp (all _), default.mp (all _), example'.mp (all _), ?_, ?_, ?_⟩
    · exact fun key ofX => ((mergeAt_iff_enumKey? (values ofX)).mp (all key)).1 ofX
    · exact fun key own ofX => ((mergeAt_iff_enumKey? (values ofX)).mp (all key)).2.1 own ofX
    · exact fun key ofY => ((mergeAt_iff_enumKey? (values ofY)).mp (all key)).2.2 ofY
  · intro mergeable key
    by_cases other : key ∈ singleKeys
    · simp only [singleKeys, List.mem_cons, List.not_mem_nil, or_false] at other
      rcases other with rfl | rfl | rfl | rfl | rfl
      · exact mergeAt_format (extraX (by decide)) (extraY (by decide))
      · exact const.mpr mergeable.constValues
      · exact default.mpr mergeable.defaultText
      · exact example'.mpr mergeable.exampleText
      · exact mergeAt_examples (extraX (by decide)) (extraY (by decide))
    · exact (mergeAt_iff_enumKey? other).mpr ⟨mergeable.enumValues key, mergeable.enumKey key,
        mergeable.extraKey key⟩

theorem demand_eq_of_kind (kind : f.type.kind = g.type.kind) (rest : List Hop) :
    f.demand rest = g.demand rest := by
  cases rest with
  | nil => exact kind
  | cons hop rest => rfl

theorem listedAt?_mergedWith (same : y.way = x.way) (u : List Hop) :
    (x.mergedWith y).listedAt? u = (x.listedAt? u).or (y.listedAt? u) := by
  unfold listedAt?
  rw [way_mergedWith, same]
  cases Way.beyond? u x.way with
  | none => rfl
  | some rest =>
    simp only [Option.bind_some, listed?, required_mergedWith]
    split
    · by_cases own : x.required = true <;> simp [own]
    · by_cases own : x.required = true <;> simp [own]
    · rfl

/-- Fields with one way list one name, if any. -/
theorem listedAt?_eq_of_some (same : y.way = x.way) {u : List Hop} {name other : String}
    (ofX : x.listedAt? u = some name) (ofY : y.listedAt? u = some other) : other = name := by
  unfold listedAt? at ofX ofY
  rw [same] at ofY
  cases beyond : Way.beyond? u x.way with
  | none =>
    rw [beyond] at ofX
    contradiction
  | some rest =>
    rw [beyond, Option.bind_some] at ofX ofY
    unfold listed? at ofX ofY
    split at ofX <;> simp_all

end Field

namespace Draft

open Schema
open ShapeLines.Field (MergeAt)

variable {x y : Field} {w : List Hop} {l l' : Label}

theorem namesAt_mergedWith (same : y.way = x.way) (u : List Hop) :
    namesAt [x, y] u = namesAt [x.mergedWith y] u := by
  unfold namesAt
  simp only [List.filterMap_cons, List.filterMap_nil, Field.listedAt?_mergedWith same]
  cases ofX : x.listedAt? u with
  | none => cases y.listedAt? u <;> rfl
  | some name =>
    cases ofY : y.listedAt? u with
    | none => rfl
    | some other =>
      rw [Field.listedAt?_eq_of_some same ofX ofY]
      simp [List.eraseDups_cons]

theorem keywords_mergedWith_iff (x y : Field) :
    Entries.update (Entries.ofList x.keywords) y.keywords =
        Entries.ofList (x.mergedWith y).keywords ↔ ∀ key, MergeAt x y key := by
  have at' (key : String) :
      Entries.get? key (Entries.update (Entries.ofList x.keywords) y.keywords) =
        (Entries.get? key (Entries.ofList y.keywords)).or
          (Entries.get? key (Entries.ofList x.keywords)) := by
    rw [Entries.get?_update, Entries.get?_ofList key y.keywords]
  constructor
  · intro eq key
    rw [MergeAt, ← at', eq]
  · intro all
    refine ((Entries.ascending_ofList _).update _).ext (Entries.ascending_ofList _) fun key => ?_
    rw [at', all key]

namespace LabelOf

theorem keywords_of_pair (label : LabelOf [x, y] x.way l) (same : y.way = x.way) :
    l.marks.keywords = Entries.update (Entries.ofList x.keywords) y.keywords := by
  have both : ending [x, y] x.way = [x, y] := by simp [ending, same]
  rw [label.keywords, both]
  rfl

theorem keywords_of_mergedWith (label : LabelOf [x.mergedWith y] x.way l) :
    l.marks.keywords = Entries.ofList (x.mergedWith y).keywords := by
  have one : ending [x.mergedWith y] x.way = [x.mergedWith y] := by simp [ending]
  rw [label.keywords, one]
  rfl

/-- Two fields with one way say of every node what the merged field says, if the keywords at the
end of the way are the same. -/
theorem eq_of_mergedWith (label : LabelOf [x, y] w l) (label' : LabelOf [x.mergedWith y] w l')
    (same : y.way = x.way) (kind : x.type.kind = y.type.kind) (le : w <+: x.way)
    (keywords : w = x.way → l.marks.keywords = l'.marks.keywords) : l = l' := by
  obtain ⟨rest, eq⟩ := le
  have kinds : l.kind = l'.kind := by
    rw [label.kind x (by simp) rest eq, label'.kind (x.mergedWith y) (by simp) rest eq]
    exact Field.demand_eq_of_kind kind rest
  have required : l.required = l'.required := by
    rw [label.required, label'.required, namesAt_mergedWith same]
  have flags : l.marks.flag = l'.marks.flag := by rw [label.flag, label'.flag]
  have both : l.type = l'.type ∧ l.marks.keywords = l'.marks.keywords := by
    by_cases here : w = x.way
    · refine ⟨?_, keywords here⟩
      rw [label.type, label'.type]
      simp [ending, here, same]
    · have none : ending [x, y] w = [] := by simp [ending, same, Ne.symm here]
      have none' : ending [x.mergedWith y] w = [] := by simp [ending, Ne.symm here]
      rw [label.type, label'.type, label.keywords, label'.keywords, none, none', kinds]
      exact ⟨rfl, rfl⟩
  calc
    l = ⟨l.type, ⟨l.marks.flag, l.marks.keywords⟩, l.required⟩ := rfl
    _ = l' := by rw [both.1, both.2, flags, required]

end LabelOf

end Draft

namespace Schema

open Draft (declares_ofFields neat_ofFields)
open ShapeLines.Field (Mergeable MergeAt ownKeys)

variable {s s' : Schema} {x y : Field} {d d' : Draft}

/-- Schemas whose properties ascend are the same if all their nodes have the same labels. -/
theorem Ordered.ext_labelAt? (ordered : Ordered s) (ordered' : Ordered s')
    (same : ∀ w, s.labelAt? w = s'.labelAt? w) : s = s' := by
  induction s using hopInduction generalizing s' with
  | step s ih =>
    have root : s.label = s'.label := by simpa [labelAt?] using same []
    have below : ∀ hop, s.at? [hop] = s'.at? [hop] := by
      intro hop
      have child := same [hop]
      unfold labelAt? at child
      cases found : s.at? [hop] with
      | none =>
        rw [found, Option.map_none, eq_comm, Option.map_eq_none_iff] at child
        exact child.symm
      | some t =>
        rw [found, Option.map_some, eq_comm, Option.map_eq_some_iff] at child
        obtain ⟨t', found', -⟩ := child
        rw [found', ih hop t found (ordered.at? found) (ordered'.at? found') fun w => ?_]
        have deeper := same (hop :: w)
        unfold labelAt? at deeper
        rw [at?_cons s, at?_cons s', found, found'] at deeper
        exact deeper
    cases s with
    | scalar =>
      cases s' with
      | scalar => cases root; rfl
      | array => cases root
      | object => cases root
    | array marks items =>
      cases s' with
      | scalar => cases root
      | object => cases root
      | array marks' items' =>
        have elements := below .elements
        rw [at?_singleton_elements, at?_singleton_elements] at elements
        cases root
        rw [elements]
    | object marks required properties =>
      cases s' with
      | scalar => cases root
      | array => cases root
      | object marks' required' properties' =>
        have held : properties = properties' :=
          ordered.ascending.ext ordered'.ascending fun name => by
            have property := below (.property name)
            rwa [at?_singleton_property, at?_singleton_property] at property
        cases root
        rw [held]

theorem document_inj (neat : Neat s) (neat' : Neat s') (version : String) :
    s.document version = s'.document version ↔ s = s' := by
  refine ⟨fun eq => ?_, fun eq => by rw [eq]⟩
  have described := described_document neat version
  rw [eq, described_document neat' version] at described
  cases described
  rfl

theorem exists_ofFields_of_way {fields : List Field} {x : Field}
    (placed : ∀ f ∈ fields, f.Placed) (way : ∀ f ∈ fields, f.way = x.way)
    (kind : ∀ f ∈ fields, f.type.kind = x.type.kind) : ∃ d, Draft.ofFields fields = .ok d := by
  refine Draft.ofFields_of_agree placed
    (fun u => ((Way.beyond? u x.way).map x.demand).getD .object) fun f mem u r eq => ?_
  rw [way f mem] at eq
  simp only [Way.beyond?_eq_some_iff.mpr eq, Option.map_some, Option.getD_some]
  exact Field.demand_eq_of_kind (kind f mem) r

theorem root_mergedWith_iff (placedX : x.Placed) (placedY : y.Placed)
    (placed : (x.mergedWith y).Placed) (same : y.way = x.way) (kind : x.type.kind = y.type.kind)
    (ok : Draft.ofFields [x, y] = .ok d) (ok' : Draft.ofFields [x.mergedWith y] = .ok d') :
    d.root = d'.root ↔ ∀ key, MergeAt x y key := by
  have placedBoth : ∀ f ∈ [x, y], f.Placed := by simp [placedX, placedY]
  have placedOne : ∀ f ∈ [x.mergedWith y], f.Placed := by simp [placed]
  have declares := declares_ofFields placedBoth ok
  have declares' := declares_ofFields placedOne ok'
  have ne : x.way ≠ [] := Field.way_ne_nil placedX.plain placedX.nonempty
  rw [← Draft.keywords_mergedWith_iff]
  constructor
  · intro roots
    have there : (d.root.at? x.way).isSome :=
      (declares.isSome_at?_iff ne).mpr ⟨x, by simp, List.prefix_rfl⟩
    obtain ⟨t, found⟩ := Option.isSome_iff_exists.mp there
    rw [← (declares.labelOf found).keywords_of_pair same]
    rw [roots] at found
    exact (declares'.labelOf found).keywords_of_mergedWith
  · intro keywords
    refine Ordered.ext_labelAt? (neat_ofFields placedBoth ok).ordered
      (neat_ofFields placedOne ok').ordered fun w => ?_
    have nodes : (d.root.at? w).isSome = (d'.root.at? w).isSome := by
      by_cases root : w = []
      · simp [root]
      · rw [Bool.eq_iff_iff, declares.isSome_at?_iff root, declares'.isSome_at?_iff root]
        simp [same]
    unfold labelAt?
    cases found : d.root.at? w with
    | none =>
      rw [found, Option.isSome_none, eq_comm, Option.isSome_eq_false_iff,
        Option.isNone_iff_eq_none] at nodes
      rw [nodes]
    | some t =>
      rw [found, Option.isSome_some, eq_comm, Option.isSome_iff_exists] at nodes
      obtain ⟨t', found'⟩ := nodes
      have le : w <+: x.way := by
        by_cases root : w = []
        · rw [root]
          exact List.nil_prefix
        · obtain ⟨f, mem, le⟩ := (declares'.isSome_at?_iff root).mp (by rw [found']; rfl)
          rwa [List.mem_singleton.mp mem, Field.way_mergedWith] at le
      rw [found', Option.map_some, Option.map_some]
      refine congrArg some ((declares.labelOf found).eq_of_mergedWith (declares'.labelOf found')
        same kind le fun here => ?_)
      subst here
      rw [(declares.labelOf found).keywords_of_pair same, keywords,
        (declares'.labelOf found').keywords_of_mergedWith]

/-- Two declarations of one place, with types of one kind, are accepted, and so is the declaration
merged from them. The documents are the same exactly if the two are mergeable. -/
theorem ofFields_pair_eq_mergedWith_iff (version : String) {x y : Field}
    (plain : Fullname.IsPlain x.fullname) (same : y.fullname = x.fullname)
    (kind : x.type.kind = y.type.kind) (foreignX : ∀ key ∈ ownKeys, x.extra.get? key = none)
    (foreignY : ∀ key ∈ ownKeys, y.extra.get? key = none) :
    (∃ doc, Schema.ofFields version [x, y] = .ok doc) ∧
    (∃ doc, Schema.ofFields version [x.mergedWith y] = .ok doc) ∧
    (Schema.ofFields version [x, y] = Schema.ofFields version [x.mergedWith y] ↔
      Mergeable x y) := by
  have placedX : x.Placed := Field.placed_of_isPlain plain
  have placedY : y.Placed := Field.placed_of_isPlain (same ▸ plain)
  have placed : (x.mergedWith y).Placed := Field.placed_of_isPlain (f := x.mergedWith y) plain
  have way : y.way = x.way := by rw [Field.way, Field.segments, same]; rfl
  obtain ⟨d, ok⟩ : ∃ d, Draft.ofFields [x, y] = .ok d :=
    exists_ofFields_of_way (x := x) (by simp [placedX, placedY]) (by simp [way]) (by simp [kind])
  obtain ⟨d', ok'⟩ : ∃ d, Draft.ofFields [x.mergedWith y] = .ok d :=
    exists_ofFields_of_way (x := x.mergedWith y) (by simp [placed]) (by simp) (by simp)
  have neat := neat_ofFields (by simp [placedX, placedY]) ok
  have neat' := neat_ofFields (by simp [placed]) ok'
  unfold Schema.ofFields
  rw [ok, ok', ← Field.forall_mergeAt_iff foreignX foreignY,
    ← root_mergedWith_iff placedX placedY placed way kind ok ok', ← document_inj neat neat' version]
  refine ⟨⟨_, rfl⟩, ⟨_, rfl⟩, fun eq => ?_, fun eq => congrArg Except.ok eq⟩
  exact Except.ok.inj eq

/-- A total that is declared as an integer first, and then as a number of a higher default. -/
def integerTotal : Field :=
  { fullname := "order.total", type := .scalar .integer, exampleText := some "5",
    defaultText := some "0", extra := KeyMap.ofList [("title", "Total"), ("minimum", "0")] }

def numberTotal : Field :=
  { fullname := "order.total", type := .scalar .number, required := true,
    defaultText := some "1.5", extra := KeyMap.ofList [("title", "Sum")] }

theorem ofFields_pair_eq_mergedWith_total :
    Mergeable integerTotal numberTotal ∧
      Schema.ofFields "v1" [integerTotal, numberTotal] =
        Schema.ofFields "v1" [integerTotal.mergedWith numberTotal] := by
  obtain ⟨-, -, iff⟩ := @ofFields_pair_eq_mergedWith_iff "v1" integerTotal numberTotal (by decide)
    rfl rfl (by decide) (by decide)
  have noValues : integerTotal.enumKey? = none ∧ numberTotal.enumKey? = none := ⟨rfl, rfl⟩
  have mergeable : Mergeable integerTotal numberTotal :=
    { constValues := fun _ _ mem => absurd mem List.not_mem_nil
      defaultText := fun none => absurd none (by decide)
      exampleText := fun _ _ _ => rfl
      enumValues := fun _ ofX => absurd ofX (by simp [noValues])
      enumKey := fun _ _ ofX => absurd ofX (by simp [noValues])
      extraKey := fun _ ofY => absurd ofY (by simp [noValues]) }
  exact ⟨mergeable, iff.mpr mergeable⟩

/-- A size that is declared with values first, and then with a value that has a title. -/
def listedSize : Field :=
  { fullname := "size", enumValues := ["s", "l"] }

def titledSize : Field :=
  { fullname := "size", enumValues := ["m"], enumNames := ["medium"] }

/-- The document of a size with the given keywords before its type. -/
def sizeDocument (keywords : List (String × Json)) : Json :=
  .obj [("$schema", .str "v1"),
    ("properties", .obj [("size", .obj (keywords ++ [("type", .str "string")]))]),
    ("type", .str "object")]

def sizeTitles : String × Json :=
  ("oneOf", .arr [.obj [("const", .str "m"), ("title", .str "medium")]])

/-- The values without titles are left beside those with titles. -/
theorem ofFields_pair_ne_mergedWith_size :
    Fullname.IsPlain listedSize.fullname ∧ titledSize.fullname = listedSize.fullname ∧
      listedSize.type.kind = titledSize.type.kind ∧
      (∀ key ∈ ownKeys, listedSize.extra.get? key = none) ∧
      (∀ key ∈ ownKeys, titledSize.extra.get? key = none) ∧
      Schema.ofFields "v1" [listedSize, titledSize] ≠
        Schema.ofFields "v1" [listedSize.mergedWith titledSize] := by
  have both : Schema.ofFields "v1" [listedSize, titledSize] =
      .ok (sizeDocument [("enum", .arr [.str "s", .str "l"]), sizeTitles]) := by
    rfl
  have merged : Schema.ofFields "v1" [listedSize.mergedWith titledSize] =
      .ok (sizeDocument [sizeTitles]) := by
    rfl
  refine ⟨by decide, rfl, rfl, by decide, by decide, ?_⟩
  rw [both, merged]
  simp [sizeDocument, sizeTitles]

end Schema

end ShapeLines
