import Mathlib.Logic.Relation
import ShapeLines.Proofs.Json.Record
import ShapeLines.Shape.Codec

/-!
# Shapes and their JSON values

A part of a field that is left out when the field is written is the part that a missing member
stands for. So headers, fields and shapes are read back from their JSON values, whichever of their
parts are empty. Nothing changes for the reader when members of other names are added to a line, to
its header or to any of its fields.
-/

namespace ShapeLines

namespace KeyMap

theorem ofList_entries (m : KeyMap String) : ofList m.entries = m := by
  refine ext_get? fun key => ?_
  rw [get?_ofList, m.ascending.valuesAt, get?]
  cases Entries.get? key m.entries <;> rfl

theorem strings?_toJson (m : KeyMap String) : strings? m.toJson = some m := by
  have read : (m.entries.map fun e => (e.1, Json.str e.2)).mapM entry? = some m.entries := by
    refine Results.mapM_map_of_inverse ?_ m.entries
    exact fun _ => rfl
  rw [toJson, strings?, read, Option.map_some, ofList_entries]

theorem numberless_toJson (m : KeyMap String) : Json.Numberless 1 m.toJson := by
  refine Json.numberless_obj (List.pairwise_map.mpr m.ascending) ?_
  rw [List.forall_mem_map]
  exact fun e _ => Json.numberless_str e.2

theorem eq_empty_of_isEmpty {m : KeyMap String} (empty : m.isEmpty = true) : m = ∅ := by
  refine ext_get? fun key => ?_
  rw [get?, List.isEmpty_iff.mp empty]
  rfl

end KeyMap

theorem Direction.ofJson?_toJson (d : Direction) : ofJson? d.toJson = some d := by
  cases d <;> rfl

theorem FieldType.ofJson?_toJson (type : FieldType) : ofJson? type.toJson = some type := by
  cases type with
  | scalar type => cases type <;> rfl
  | array => rfl
  | object => rfl

namespace Header

def part? (h : Header) : String → Option Json
  | "id" => some (.str h.id)
  | "version" => some (.str h.version)
  | "direction" => some h.direction.toJson
  | _ => none

def parts (h : Header) : Json.Parts where
  names := memberNames
  part? := h.part?
  named written := by
    unfold part? at written
    split at written <;> simp_all [memberNames]

theorem toJson_eq (h : Header) : h.toJson = .obj (Entries.ofList h.parts.members) := rfl

theorem ofJson?_toJson (h : Header) : ofJson? h.toJson = some h := by
  rw [toJson_eq, ofJson?, Json.record?, ofMembers?, Json.Parts.required?_eq "id" rfl,
    Json.Parts.required?_eq "version" rfl, Json.Parts.required?_eq "direction" rfl,
    Direction.ofJson?_toJson]
  rfl

theorem numberless_toJson (h : Header) : Json.Numberless 1 h.toJson := by
  refine h.parts.numberless fun key v written => ?_
  simp only [parts, part?] at written
  split at written <;> cases written <;> exact Json.numberless_str _

theorem looksAt : Json.LooksAt memberNames ofMembers? := by
  intro members members' same
  simp only [memberNames, List.forall_mem_cons] at same
  simp only [ofMembers?, Json.required?, same]

end Header

namespace Field

def extraPart? (extra : KeyMap String) : Option Json :=
  if extra.isEmpty then none else some extra.toJson

def part? (f : Field) : String → Option Json
  | "fullname" => some (.str f.fullname)
  | "type" => some f.type.toJson
  | "format" => f.format.map .str
  | "required" => some (.bool f.required)
  | "enum" => Json.Parts.textsPart? f.enumValues
  | "enumNames" => Json.Parts.textsPart? f.enumNames
  | "const" => Json.Parts.textsPart? f.constValues
  | "default" => f.defaultText.map .str
  | "example" => f.exampleText.map .str
  | "examples" => f.examplesText.map .str
  | "src" => some (.str f.src)
  | "dst" => some (.str f.dst)
  | "extra" => extraPart? f.extra
  | _ => none

def parts (f : Field) : Json.Parts where
  names := memberNames
  part? := f.part?
  named written := by
    unfold part? at written
    split at written <;> simp_all [memberNames]

theorem textMember_eq (key : String) (text : Option String) :
    textMember key text = ((text.map Json.str).map (key, ·)).toList := by
  cases text <;> rfl

theorem listMember_eq (key : String) (texts : List String) :
    listMember key texts = ((Json.Parts.textsPart? texts).map (key, ·)).toList := by
  cases texts <;> rfl

theorem extraMember_eq (extra : KeyMap String) :
    (if extra.isEmpty then [] else [("extra", extra.toJson)]) =
      ((extraPart? extra).map ("extra", ·)).toList := by
  unfold extraPart?
  split <;> rfl

theorem toJson_eq (f : Field) : f.toJson = .obj (Entries.ofList f.parts.members) := by
  rw [toJson, Json.ofMembers, Json.Parts.members, List.filterMap_eq_flatMap_toList]
  simp only [textMember_eq, listMember_eq, extraMember_eq, List.append_assoc]
  rw [← List.append_nil ((extraPart? f.extra).map ("extra", ·)).toList]
  rfl

theorem optional?_extra {p : Json.Parts} {extra : KeyMap String} (key : String)
    (there : p.part? key = extraPart? extra) :
    Json.optional? (Entries.ofList p.members) key ∅ KeyMap.strings? = some extra := by
  unfold extraPart? at there
  split at there
  · next empty =>
    rw [Json.Parts.optional?_absent key ∅ there, KeyMap.eq_empty_of_isEmpty empty]
  · rw [Json.Parts.optional?_eq key ∅ there, KeyMap.strings?_toJson]

theorem ofJson?_toJson (f : Field) : ofJson? f.toJson = some f := by
  rw [toJson_eq, ofJson?, Json.record?, ofMembers?, Json.Parts.required?_eq "fullname" rfl,
    Json.Parts.optional?_eq "type" default rfl, Json.Parts.optional?_text "format" rfl,
    Json.Parts.optional?_eq "required" false rfl, Json.Parts.optional?_texts "enum" rfl,
    Json.Parts.optional?_texts "enumNames" rfl, Json.Parts.optional?_texts "const" rfl,
    Json.Parts.optional?_text "default" rfl, Json.Parts.optional?_text "example" rfl,
    Json.Parts.optional?_text "examples" rfl, Json.Parts.optional?_eq "src" "" rfl,
    Json.Parts.optional?_eq "dst" "" rfl, optional?_extra "extra" rfl,
    FieldType.ofJson?_toJson]
  rfl

theorem numberless_toJson (f : Field) : Json.Numberless 2 f.toJson := by
  rw [toJson_eq]
  refine Json.Parts.numberless fun key v written => ?_
  simp only [parts, part?] at written
  split at written
  case h_1 | h_2 | h_11 | h_12 =>
    cases written
    exact Json.numberless_str _
  case h_4 =>
    cases written
    exact Json.numberless_bool _
  case h_3 | h_8 | h_9 | h_10 => exact Json.Parts.numberless_text written
  case h_5 | h_6 | h_7 => exact Json.Parts.numberless_texts written
  case h_13 =>
    unfold extraPart? at written
    split at written <;> cases written
    exact f.extra.numberless_toJson
  case h_14 => cases written

theorem looksAt : Json.LooksAt memberNames ofMembers? := by
  intro members members' same
  simp only [memberNames, List.forall_mem_cons] at same
  simp only [ofMembers?, Json.required?, Json.optional?, same]

end Field

namespace Shape

def part? (s : Shape) : String → Option Json
  | "meta" => some s.header.toJson
  | "items" => some (.arr (s.fields.map Field.toJson))
  | _ => none

def parts (s : Shape) : Json.Parts where
  names := memberNames
  part? := s.part?
  named written := by
    unfold part? at written
    split at written <;> simp_all [memberNames]

theorem toJson_eq (s : Shape) : s.toJson = .obj (Entries.ofList s.parts.members) := rfl

theorem ofJson?_toJson (s : Shape) : ofJson? s.toJson = some s := by
  have fields : Field.listOfJson? (.arr (s.fields.map Field.toJson)) = some s.fields :=
    Results.mapM_map_of_inverse Field.ofJson?_toJson s.fields
  rw [toJson_eq, ofJson?, Json.record?, ofMembers?, Json.Parts.required?_eq "meta" rfl,
    Json.Parts.required?_eq "items" rfl, Header.ofJson?_toJson, fields]
  rfl

theorem numberless_toJson (s : Shape) : Json.Numberless 4 s.toJson := by
  refine s.parts.numberless fun key v written => ?_
  simp only [parts, part?] at written
  split at written <;> cases written
  · exact s.header.numberless_toJson.mono (by decide)
  · apply Json.numberless_arr
    rw [List.forall_mem_map]
    exact fun f _ => f.numberless_toJson

theorem looksAt : Json.LooksAt memberNames ofMembers? := by
  intro members members' same
  simp only [memberNames, List.forall_mem_cons] at same
  simp only [ofMembers?, Json.required?, same]

/-- One object of a line has more members: the line itself, its header or one of its fields. -/
inductive Extended : Json → Json → Prop
  | line {v w : Json} (extended : Json.Extended memberNames v w) : Extended v w
  | header {members : List (String × Json)} {h h' : Json}
      (found : Entries.get? "meta" members = some h)
      (extended : Json.Extended Header.memberNames h h') :
      Extended (.obj members) (.obj (Entries.insert "meta" h' members))
  | field {members : List (String × Json)} {front back : List Json} {f f' : Json}
      (found : Entries.get? "items" members = some (.arr (front ++ f :: back)))
      (extended : Json.Extended Field.memberNames f f') :
      Extended (.obj members) (.obj (Entries.insert "items" (.arr (front ++ f' :: back)) members))

variable {v w : Json}

theorem ofJson?_of_extended (extended : Extended v w) : ofJson? w = ofJson? v := by
  cases extended with
  | line extended => exact looksAt.record?_of_extended extended
  | @header members h h' found extended =>
    have items := Entries.get?_insert_of_ne (show "items" ≠ "meta" by decide) h' members
    have same : Header.ofJson? h' = Header.ofJson? h :=
      Header.looksAt.record?_of_extended extended
    simp only [ofJson?, Json.record?, ofMembers?, Json.required?, Entries.get?_insert_self, items,
      found, Option.bind_some, same]
  | @field members front back f f' found extended =>
    have header := Entries.get?_insert_of_ne (show "meta" ≠ "items" by decide)
      (.arr (front ++ f' :: back)) members
    have same : Field.ofJson? f' = Field.ofJson? f := Field.looksAt.record?_of_extended extended
    have fields : Field.listOfJson? (.arr (front ++ f' :: back)) =
        Field.listOfJson? (.arr (front ++ f :: back)) := by
      simp only [Field.listOfJson?, List.mapM_append, List.mapM_cons, same]
    simp only [ofJson?, Json.record?, ofMembers?, Json.required?, Entries.get?_insert_self, header,
      found, Option.bind_some, fields]

/-- However many members are added, and wherever, the shape that is read stays the same. -/
theorem ofJson?_of_extensions (extensions : Relation.ReflTransGen Extended v w) :
    ofJson? w = ofJson? v := by
  induction extensions with
  | refl => rfl
  | tail _ extended ih => rw [ofJson?_of_extended extended, ih]

end Shape

end ShapeLines
