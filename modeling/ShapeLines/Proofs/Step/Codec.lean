import ShapeLines.Proofs.Shape.Codec
import ShapeLines.Step.Codec

/-!
# Steps and their JSON values

Steps are read back from their JSON values, as fields and shapes are, and members of other names
change nothing here either. All of these records are read from objects and from arrays alike.
-/

namespace ShapeLines

theorem Command.ofName?_name (c : Command) : ofName? c.name = some c := by
  cases c <;> rfl

namespace Step

def part? (s : Step) : String → Option Json
  | "targetId" => some (.str s.target)
  | "command" => some (.str s.command.name)
  | "src" => some (.str s.src)
  | "dst" => some (.str s.dst)
  | "template" => s.template.map .str
  | _ => none

def parts (s : Step) : Json.Parts where
  names := memberNames
  part? := s.part?
  named written := by
    unfold part? at written
    split at written <;> simp_all [memberNames]

theorem toJson_eq (s : Step) : s.toJson = .obj (Entries.ofList s.parts.members) := by
  rw [toJson, Json.ofMembers, Json.Parts.members, List.filterMap_eq_flatMap_toList,
    Field.textMember_eq, ← List.append_nil ((s.template.map Json.str).map ("template", ·)).toList]
  rfl

theorem ofJson?_toJson (s : Step) : ofJson? s.toJson = some s := by
  have command : Command.ofJson? (.str s.command.name) = some s.command :=
    s.command.ofName?_name
  rw [toJson_eq, ofJson?, Json.record?, ofMembers?, Json.Parts.required?_eq "targetId" rfl,
    Json.Parts.required?_eq "command" rfl, Json.Parts.required?_eq "src" rfl,
    Json.Parts.required?_eq "dst" rfl, Json.Parts.optional?_text "template" rfl, command]
  rfl

theorem numberless_toJson (s : Step) : Json.Numberless 1 s.toJson := by
  rw [toJson_eq]
  refine Json.Parts.numberless fun key v written => ?_
  simp only [parts, part?] at written
  split at written
  case h_1 | h_2 | h_3 | h_4 =>
    cases written
    exact Json.numberless_str _
  case h_5 => exact Json.Parts.numberless_text written
  case h_6 => cases written

theorem looksAt : Json.LooksAt memberNames ofMembers? := by
  intro members members' same
  simp only [memberNames, List.forall_mem_cons] at same
  simp only [ofMembers?, Json.required?, Json.optional?, same]

end Step

/-- Fields, headers, shapes and steps are also read from arrays that hold the values of their
members in order. An array may end early if an object may leave out the members that are missing. -/
theorem records_readInOrder :
    Json.ReadsInOrder Field.memberNames Field.ofJson? ∧
    Json.ReadsInOrder Header.memberNames Header.ofJson? ∧
    Json.ReadsInOrder Shape.memberNames Shape.ofJson? ∧
    Json.ReadsInOrder Step.memberNames Step.ofJson? :=
  ⟨Field.looksAt.readsInOrder (by decide), Header.looksAt.readsInOrder (by decide),
    Shape.looksAt.readsInOrder (by decide), Step.looksAt.readsInOrder (by decide)⟩

example : Field.ofJson? (.arr [.str "a.b", .str "integer", .null, .bool true]) =
    some { fullname := "a.b", type := .scalar .integer, required := true } := rfl

/-- Fields, headers, shapes and steps are read back from their JSON values and from the texts of
these. Members that are added under other names than those of the parts change neither what is read
nor whether anything is read; in a line they may be added to the line, its header and any of its
fields. -/
theorem records_readBack :
    Json.RoundTrips Field.toJson Field.ofJson? ∧
    Json.RoundTrips Header.toJson Header.ofJson? ∧
    Json.RoundTrips Shape.toJson Shape.ofJson? ∧
    Json.RoundTrips Step.toJson Step.ofJson? ∧
    (∀ v w, Json.Extended Field.memberNames v w → Field.ofJson? w = Field.ofJson? v) ∧
    (∀ v w, Json.Extended Header.memberNames v w → Header.ofJson? w = Header.ofJson? v) ∧
    (∀ v w, Relation.ReflTransGen Shape.Extended v w → Shape.ofJson? w = Shape.ofJson? v) ∧
    (∀ v w, Json.Extended Step.memberNames v w → Step.ofJson? w = Step.ofJson? v) := by
  refine ⟨?_, ?_, ?_, ?_, ?_, ?_, ?_, ?_⟩
  · exact .of_numberless Field.ofJson?_toJson Field.numberless_toJson (by decide)
  · exact .of_numberless Header.ofJson?_toJson Header.numberless_toJson (by decide)
  · exact .of_numberless Shape.ofJson?_toJson Shape.numberless_toJson (by decide)
  · exact .of_numberless Step.ofJson?_toJson Step.numberless_toJson (by decide)
  · exact fun _ _ => Field.looksAt.record?_of_extended
  · exact fun _ _ => Header.looksAt.record?_of_extended
  · exact fun _ _ => Shape.ofJson?_of_extensions
  · exact fun _ _ => Step.looksAt.record?_of_extended

/-- A line with one field, and what has been added to the field, to the header and to the line. -/
def notedLine (inField inHeader inLine : List (String × Json)) : Json :=
  .obj ([("items", .arr [.obj ([("fullname", .str "a.b")] ++ inField ++ [("required", .bool true)])]),
    ("meta", .obj ([("direction", .str "in"), ("id", .str "x")] ++ inHeader ++
      [("version", .str "1")]))] ++ inLine)

/-- A field with its name and its flag only, a line with a note in each of its three objects, and
an object of a note alone, which is no step. -/
theorem records_readBack_noted :
    (Json.parse? (Field.toJson { fullname := "a.b", required := true }).text).bind Field.ofJson? =
      some { fullname := "a.b", required := true } ∧
    Shape.ofJson? (notedLine [("note", .null)] [("note", .obj [])] [("note", .str "x")]) =
      some ⟨⟨"x", "1", .inbound⟩, [{ fullname := "a.b", required := true }]⟩ ∧
    Step.ofJson? (.obj [("note", .null)]) = none := by
  obtain ⟨fields, -, -, -, -, -, lines, steps⟩ := records_readBack
  have inField : Shape.Extended (notedLine [] [] []) (notedLine [("note", .null)] [] []) :=
    @Shape.Extended.field _ [] [] _ _ rfl (.members _ [("note", .null)] (by decide))
  have inHeader : Shape.Extended (notedLine [("note", .null)] [] [])
      (notedLine [("note", .null)] [("note", .obj [])] []) :=
    .header rfl (.members _ [("note", .obj [])] (by decide))
  have inLine : Shape.Extended (notedLine [("note", .null)] [("note", .obj [])] [])
      (notedLine [("note", .null)] [("note", .obj [])] [("note", .str "x")]) :=
    .line (.members _ [("note", .str "x")] (by decide))
  have noStep : Json.Extended Step.memberNames (.obj []) (.obj [("note", .null)]) :=
    .members [] [("note", .null)] (by decide)
  refine ⟨fields.text _, ?_, ?_⟩
  · rw [lines _ _ (.tail (.tail (.single inField) inHeader) inLine)]
    rfl
  · rw [steps _ _ noStep]
    rfl

end ShapeLines
