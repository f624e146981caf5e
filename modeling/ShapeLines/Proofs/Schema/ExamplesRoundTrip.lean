import ShapeLines.Proofs.Json.Letters
import ShapeLines.Proofs.Json.TextRoundTrip
import ShapeLines.Proofs.Schema.Rebuilt

/-!
# Examples through a document and back

The text of `examples` is written as the array that it denotes, or else as the only example. An
array is read as its text, save that an array of one example is read as that example. The two do not
undo each other for every array of one example: what is neither a text nor an array comes back as
its text, and an array, or a text that denotes one, is then taken for the whole of the examples.
-/

namespace ShapeLines

namespace Json

variable {v : Json} {elements : List Json} {frames : List Frame}

theorem Fits.of_single (fits : (Json.arr [v]).Fits frames) : v.Fits frames := by
  obtain ⟨canonical, shallow⟩ := fits
  rw [Canonical, CanonicalElements] at canonical
  rw [depth, elementsDepth] at shallow
  exact ⟨canonical.1, by omega⟩

theorem numbers_single (v : Json) : (Json.arr [v]).numbers = v.numbers := by
  simp [numbers, elementNumbers]

end Json

namespace Field

open Json (parse?_text)

variable {v : Json} {elements : List Json} {raw : String}

/-- What has become of the value of `examples` when it has been read and written again. -/
def examplesAgain : Json → Json
  | .arr [.str raw] => examplesValue raw
  | .arr [.arr elements] => .arr elements
  | .arr [v] => .arr [.str v.text]
  | e => e

/-- If the value is an array of one element, this is a text that denotes no array. -/
def IsKept (e : Json) : Prop :=
  ∀ v, e = .arr [v] → ∃ raw, v = .str raw ∧ ∀ elements, Json.parse? raw ≠ some (.arr elements)

theorem examplesValue_cases (raw : String) :
    (∃ elements, Json.parse? raw = some (.arr elements) ∧ examplesValue raw = .arr elements) ∨
      (∀ elements, Json.parse? raw ≠ some (.arr elements)) ∧
        examplesValue raw = .arr [.str raw] := by
  unfold examplesValue
  split
  · next elements read => exact .inl ⟨elements, read, rfl⟩
  · next other => exact .inr ⟨other, rfl⟩

theorem examplesValue_of_parse? (read : Json.parse? raw = some (.arr elements)) :
    examplesValue raw = .arr elements := by
  rw [examplesValue, read]

theorem fits_examplesValue (raw : String) : (examplesValue raw).Fits [] := by
  rcases examplesValue_cases raw with ⟨elements, read, eq⟩ | ⟨-, eq⟩
  · rw [eq]
    exact Json.fits_of_ofChars? read
  · rw [eq]
    refine ⟨Json.canonical_arr ?_, by simp [Json.depth, Json.elementsDepth, Json.depthLimit]⟩
    simp [Json.CanonicalElements, Json.Canonical]

theorem exists_elements_examplesValue (raw : String) :
    ∃ elements, examplesValue raw = .arr elements := by
  rcases examplesValue_cases raw with ⟨elements, -, eq⟩ | ⟨-, eq⟩
  · exact ⟨elements, eq⟩
  · exact ⟨_, eq⟩

/-- An only example that is no text is read as its own JSON text. -/
theorem examplesValue_examplesRaw_single (fits : v.Fits [])
    (numbers : ∀ n ∈ v.numbers, n.ReadsBack) :
    examplesValue (examplesRaw (.arr [v])) = examplesAgain (.arr [v]) := by
  have read := parse?_text fits numbers
  cases v with
  | str raw => rfl
  | arr elements => exact examplesValue_of_parse? read
  | null | bool _ | num _ | obj _ =>
    simp only [examplesRaw, Json.plainText, examplesValue, read, examplesAgain]

/-- What is written after it has been read. -/
theorem examplesValue_examplesRaw {e : Json} (array : ∃ elements, e = .arr elements)
    (fits : e.Fits []) (numbers : ∀ n ∈ e.numbers, n.ReadsBack) :
    examplesValue (examplesRaw e) = examplesAgain e := by
  obtain ⟨elements, rfl⟩ := array
  match elements with
  | [] => exact examplesValue_of_parse? (parse?_text fits numbers)
  | [v] =>
    rw [Json.numbers_single] at numbers
    exact examplesValue_examplesRaw_single fits.of_single numbers
  | v :: w :: rest =>
    have again : examplesAgain (.arr (v :: w :: rest)) = .arr (v :: w :: rest) := by
      simp only [examplesAgain]
    rw [again]
    exact examplesValue_of_parse? (parse?_text fits numbers)

theorem examplesAgain_of_isKept {e : Json} (kept : IsKept e) : examplesAgain e = e := by
  unfold examplesAgain
  split
  · next raw =>
    obtain ⟨_, eq, noArray⟩ := kept _ rfl
    cases eq
    rcases examplesValue_cases raw with ⟨elements, read, -⟩ | ⟨-, eq⟩
    · exact absurd read (noArray elements)
    · exact eq
  · next elements =>
    obtain ⟨_, eq, -⟩ := kept _ rfl
    cases eq
  · next v noText _ =>
    obtain ⟨raw, rfl, -⟩ := kept v rfl
    exact absurd rfl (noText raw)
  · rfl

/-- What is not kept has become something else. -/
theorem examplesAgain_eq_self_iff {e : Json} : examplesAgain e = e ↔ IsKept e := by
  refine ⟨?_, examplesAgain_of_isKept⟩
  rintro same v rfl
  cases v with
  | str raw =>
    refine ⟨raw, rfl, fun elements read => ?_⟩
    have written : examplesAgain (.arr [.str raw]) = .arr elements := examplesValue_of_parse? read
    rw [written] at same
    rw [same] at read
    exact Json.parse?_ne_single raw read
  | arr elements =>
    have inside := congrArg sizeOf (Json.arr.inj same)
    simp at inside
    omega
  | null | bool _ | num _ | obj _ => simp [examplesAgain] at same

end Field

namespace Schema

open ShapeLines.Field (examplesAgain examplesValue IsKept)

variable {fields : List Field} {version id : String} {d d' : Draft} {doc doc' : Json}
  {shape : Shape} {f g : Field} {way w : List Hop} {t : Schema} {e : Json}

namespace Drafted

variable (drafted : Drafted fields d)

include drafted

theorem exists_of_mem_boundFields (mem : g ∈ boundFields id d.root) :
    ∃ w t, d.root.at? w = some t ∧ g.fullname = Way.place w ∧ g.way = w ∧ g.Placed := by
  obtain ⟨f, isField, rfl⟩ := List.mem_map.mp mem
  obtain ⟨w, t, found, -, ne, rfl⟩ := drafted.mem_fields_iff.mp isField
  have regular := drafted.regular_of_at? found
  have fullname : (Field.bindInPlace id (shownField w (carried false w d.root) t)).fullname =
      Way.place w := fullname_shownField w (carried false w d.root) t
  exact ⟨w, t, found, fullname, Field.way_of_place regular fullname,
    placed_of_place regular ne fullname⟩

/-- The fields of a draft are fields with different ways themselves. -/
theorem boundFields (ok : Draft.ofFields (boundFields id d.root) = .ok d') :
    Drafted (Schema.boundFields id d.root) d' := by
  refine drafted_ofFields (fun g mem => ?_) ?_ ok
  · obtain ⟨-, -, -, -, -, placed⟩ := drafted.exists_of_mem_boundFields mem
    exact placed
  · unfold Schema.boundFields List.Nodup
    rw [List.pairwise_map, List.pairwise_map]
    refine List.Pairwise.imp_of_mem (fun {a b} memA memB ne eq => ne ?_) drafted.fields_pairwise
    obtain ⟨v, -, -, placeA, wayA, -⟩ :=
      drafted.exists_of_mem_boundFields (List.mem_map_of_mem (f := Field.bindInPlace id) memA)
    obtain ⟨w, -, -, placeB, wayB, -⟩ :=
      drafted.exists_of_mem_boundFields (List.mem_map_of_mem (f := Field.bindInPlace id) memB)
    rw [wayA, wayB] at eq
    subst eq
    exact placeA.trans placeB.symm

/-- The examples of a node are those of a field. -/
theorem exists_examplesText (noExtra : ∀ f ∈ fields, f.extra.get? "examples" = none)
    (found : d.root.at? way = some t)
    (value : Entries.get? "examples" t.marks.keywords = some e) :
    ∃ f ∈ fields, ∃ raw, f.examplesText = some raw ∧ e = examplesValue raw := by
  rcases Draft.ends_or_away fields way with ⟨f, mem, rfl⟩ | away
  · rw [(drafted.node_of_mem mem found).2.1, Field.get?_keywords, Field.extraAt, noExtra f mem,
      Field.attributeAt_examples] at value
    obtain ⟨raw, text, rfl⟩ := Option.map_eq_some_iff.mp value
    exact ⟨f, mem, raw, text, rfl⟩
  · rw [drafted.keywords_of_away found away] at value
    contradiction

/-- A node with examples is written again with what the text of the examples denotes. -/
theorem examples_boundFields (again : Drafted (Schema.boundFields id d.root) d')
    (ne : way ≠ []) (found : d.root.at? way = some t)
    (value : Entries.get? "examples" t.marks.keywords = some e) :
    ∃ t', d'.root.at? way = some t' ∧
      Entries.get? "examples" t'.marks.keywords = some (examplesValue (Field.examplesRaw e)) := by
  have shown : t.isShown (carried false way d.root) = true := by
    by_contra hidden
    rw [keywords_of_not_shown (by simpa using hidden)] at value
    contradiction
  have regular := drafted.regular_of_at? found
  obtain ⟨g, eq⟩ : ∃ g, g = (shownField way (carried false way d.root) t).bindInPlace id := ⟨_, rfl⟩
  have mem : g ∈ Schema.boundFields id d.root := by
    rw [eq]
    exact List.mem_map_of_mem (drafted.mem_fields_iff.mpr ⟨way, t, found, shown, ne, rfl⟩)
  have leads : g.way = way := by
    rw [eq]
    exact Field.way_of_place regular (fullname_shownField way (carried false way d.root) t)
  have taken : Field.TakenFrom t.marks.keywords (shownField way (carried false way d.root) t) :=
    Field.takenFrom_ofKeywords _ _ _ (drafted.neat.tidy way t found).ascending
  have text : g.examplesText = some (Field.examplesRaw e) := by
    rw [eq]
    exact taken.examplesText.trans (by rw [value]; rfl)
  have noExtra : g.extra.get? "examples" = none := by
    rw [eq]
    exact (taken.extra "examples").trans (if_pos (.inl (by decide)))
  obtain ⟨t', found'⟩ := again.exists_at? mem
  refine ⟨t', leads ▸ found', ?_⟩
  rw [(again.node_of_mem mem found').2.1, Field.get?_keywords, Field.extraAt, noExtra,
    Field.attributeAt_examples, text]
  rfl

end Drafted

/-- The examples of a node are among the keywords of its schema, and the root has none. -/
theorem Drafted.get?_examples_iff (drafted : Drafted fields d) (version : String) :
    (∃ node, (document version d.root).at? way = some (.obj node) ∧
      Entries.get? "examples" node = some e) ↔
    way ≠ [] ∧ ∃ t, d.root.at? way = some t ∧
      Entries.get? "examples" t.marks.keywords = some e := by
  have member {t : Schema} (found : d.root.at? way = some t) :
      Entries.get? "examples" t.members = Entries.get? "examples" t.marks.keywords :=
    get?_members (drafted.neat.tidy way t found) "examples"
  rw [at?_document drafted.neat]
  by_cases root : way = []
  · subst root
    have bare := drafted.keywords_of_away (at?_nil d.root) drafted.nonempty
    have none : Entries.get? "examples" d.root.members = none := by
      rw [member (at?_nil d.root), bare]
      rfl
    simp [document, Entries.get?_insert_of_ne, none]
  · simp only [Option.map_eq_some_iff, ne_eq, root, not_false_eq_true, true_and, if_false]
    constructor
    · rintro ⟨node, ⟨t, found, eq⟩, value⟩
      cases eq
      exact ⟨t, found, (member found).symm.trans value⟩
    · rintro ⟨t, found, value⟩
      exact ⟨_, ⟨t, found, rfl⟩, (member found).trans value⟩

/-- When the document of fields is read, and a document is made of what has been read, a node has
`examplesAgain` of the examples that it had; these are the same ones exactly if they are kept. -/
theorem ofFields_ofSchemaJson_examples (plain : ∀ f ∈ fields, Fullname.IsPlain f.fullname)
    (distinct : (fields.map Field.fullname).Nodup)
    (noExtra : ∀ f ∈ fields, f.extra.get? "examples" = none)
    (numbers : ∀ f ∈ fields, ∀ raw ∈ f.examplesText, ∀ n ∈ (examplesValue raw).numbers,
      n.ReadsBack)
    (ok : Schema.ofFields version fields = .ok doc) (read : Shape.ofSchemaJson doc = .ok shape)
    (again : Schema.ofFields version shape.fields = .ok doc') (way : List Hop)
    (node : List (String × Json)) (e : Json) (found : doc.at? way = some (.obj node))
    (value : Entries.get? "examples" node = some e) :
    ∃ node', doc'.at? way = some (.obj node') ∧
      Entries.get? "examples" node' = some (examplesAgain e) ∧
      (examplesAgain e = e ↔ IsKept e) := by
  obtain ⟨d, declared, rfl⟩ := draft_of_ok ok
  have placed : ∀ f ∈ fields, f.Placed := fun f mem => Field.placed_of_isPlain (plain f mem)
  have drafted := drafted_ofFields placed (Field.nodup_way plain distinct) declared
  rw [ofSchemaJson_document drafted.neat] at read
  cases read
  obtain ⟨d', declaredAgain, rfl⟩ := draft_of_ok again
  have drafted' : Drafted (boundFields Header.defaultId d.root) d' :=
    drafted.boundFields declaredAgain
  obtain ⟨ne, t, at', valueAt⟩ := (drafted.get?_examples_iff version).mp ⟨node, found, value⟩
  obtain ⟨f, mem, raw, text, rfl⟩ := drafted.exists_examplesText noExtra at' valueAt
  obtain ⟨t', found', value'⟩ := drafted.examples_boundFields drafted' ne at' valueAt
  rw [Field.examplesValue_examplesRaw (Field.exists_elements_examplesValue raw)
    (Field.fits_examplesValue raw) (numbers f mem raw text)] at value'
  obtain ⟨node', foundAgain, valueAgain⟩ :=
    (drafted'.get?_examples_iff version).mpr ⟨ne, t', found', value'⟩
  exact ⟨node', foundAgain, valueAgain, Field.examplesAgain_eq_self_iff⟩

/-- An array of one number, an array of one text that denotes an array, and a text. -/
def ratingFields : List Field :=
  [{ fullname := "rating", examplesText := some "[5]" },
   { fullname := "range", examplesText := some "[\"[1,2]\"]" },
   { fullname := "note", examplesText := some "fine" }]

/-- The document of these fields, with the examples of two of them. -/
def ratingDocument (range rating : List Json) : Json :=
  .obj [("$schema", .str "v1"),
    ("properties", .obj [
      ("note", .obj [("examples", .arr [.str "fine"]), ("type", .str "string")]),
      ("range", .obj [("examples", .arr range), ("type", .str "string")]),
      ("rating", .obj [("examples", .arr rating), ("type", .str "string")])]),
    ("type", .str "object")]

instance (n : Json.Number) : Decidable n.ReadsBack :=
  inferInstanceAs (Decidable (Json.parse? (Json.num n).text = some (.num n)))

theorem numbers_ratingFields : ∀ f ∈ ratingFields, ∀ raw ∈ f.examplesText,
    ∀ n ∈ (examplesValue raw).numbers, n.ReadsBack := by
  decide +kernel

theorem ofFields_ratingFields : Schema.ofFields "v1" ratingFields =
    .ok (ratingDocument [.str "[1,2]"] [.num (.int 5 (by decide))]) := by
  decide +kernel

theorem exists_shape_ratingDocument : ∃ shape,
    Shape.ofSchemaJson (ratingDocument [.str "[1,2]"] [.num (.int 5 (by decide))]) = .ok shape ∧
    Schema.ofFields "v1" shape.fields =
      .ok (ratingDocument [.num (.int 1 (by decide)), .num (.int 2 (by decide))] [.str "5"]) := by
  refine ⟨_, rfl, ?_⟩
  decide +kernel

theorem ofFields_ofSchemaJson_examples_note : ∃ doc shape doc' node',
    Schema.ofFields "v1" ratingFields = .ok doc ∧ Shape.ofSchemaJson doc = .ok shape ∧
    Schema.ofFields "v1" shape.fields = .ok doc' ∧
    doc'.at? [.property "note"] = some (.obj node') ∧
    Entries.get? "examples" node' = some (.arr [.str "fine"]) := by
  obtain ⟨shape, read, again⟩ := exists_shape_ratingDocument
  obtain ⟨node', found, value, -⟩ := ofFields_ofSchemaJson_examples (by decide) (by decide)
    (by decide) numbers_ratingFields ofFields_ratingFields read again [.property "note"] _
    (.arr [.str "fine"]) rfl rfl
  exact ⟨_, shape, _, node', ofFields_ratingFields, read, again, found, value⟩

/-- The only example of `rating` has become a text, that of `range` the examples themselves. -/
theorem ofFields_ofSchemaJson_examples_changed :
    (∀ f ∈ ratingFields, Fullname.IsPlain f.fullname) ∧
    (ratingFields.map Field.fullname).Nodup ∧
    (∀ f ∈ ratingFields, ∀ raw ∈ f.examplesText, ∀ n ∈ (examplesValue raw).numbers,
      n.ReadsBack) ∧
    ∃ doc shape doc', Schema.ofFields "v1" ratingFields = .ok doc ∧
      Shape.ofSchemaJson doc = .ok shape ∧ Schema.ofFields "v1" shape.fields = .ok doc' ∧
      ∀ name ∈ ["rating", "range"], ∃ node e, doc.at? [.property name] = some (.obj node) ∧
        Entries.get? "examples" node = some e ∧
        ∀ node', doc'.at? [.property name] = some (.obj node') →
          Entries.get? "examples" node' ≠ some e := by
  obtain ⟨shape, read, again⟩ := exists_shape_ratingDocument
  refine ⟨by decide, by decide, numbers_ratingFields, _, shape, _, ofFields_ratingFields, read,
    again, fun name mem => ?_⟩
  simp only [List.mem_cons, List.not_mem_nil, or_false] at mem
  rcases mem with rfl | rfl
  · refine ⟨_, _, rfl, rfl, fun node' found value => ?_⟩
    cases found
    cases value
  · refine ⟨_, _, rfl, rfl, fun node' found value => ?_⟩
    cases found
    cases value

end Schema

end ShapeLines
