import ShapeLines.Proofs.Schema.Declarable
import ShapeLines.Proofs.Schema.Rebuilt

/-!
# A document through its fields and back

Fields that are read from a document need not be those it was written from, but they make the same
document again, save for the order in which objects list the names of required properties. This
holds of any fields that can be declared, if no two of them have the same segments and their numbers
are read back from their own texts.
-/

namespace ShapeLines.Schema

variable {fields : List Field} {version : String} {doc : Json}

/-- Placed fields with different segments describe different ways. -/
theorem nodup_way_of_segments (placed : ∀ f ∈ fields, f.Placed)
    (distinct : (fields.map Field.segments).Nodup) : (fields.map Field.way).Nodup := by
  unfold List.Nodup at distinct ⊢
  rw [List.pairwise_map] at distinct ⊢
  refine List.Pairwise.imp_of_mem (fun {a b} memA memB ne eq => ne ?_) distinct
  exact Way.flatMap_hops_inj (placed a memA).plain (placed b memB).plain eq

/-- A document is written again from the fields that are read from it, up to the order of required
names. -/
theorem toSchema_ofSchemaJson (unbracketed : ∀ f ∈ fields, f.Unbracketed)
    (distinct : (fields.map Field.segments).Nodup) (numbers : ∀ f ∈ fields, f.NumbersReadBack)
    (ok : Schema.ofFields version fields = .ok doc) :
    ∃ s doc', Shape.ofSchemaJson doc = .ok s ∧ s.toSchema = .ok doc' ∧ doc.Rearranged doc' := by
  obtain ⟨d, built, rfl⟩ := draft_of_ok ok
  obtain ⟨placed, built⟩ := Draft.ofFields_filter unbracketed built
  have distinctWays : ((fields.filter Field.hasSegments).map Field.way).Nodup :=
    nodup_way_of_segments placed (distinct.sublist (List.filter_sublist.map _))
  have drafted := drafted_ofFields placed distinctWays built
  have steady : ∀ w t, d.root.at? w = some t → t.Steady := fun w t found =>
    steady_of_numbersReadBack drafted (fun f mem => numbers f (List.mem_filter.mp mem).1) found
  obtain ⟨d', rebuilt⟩ := ofFields_boundFields drafted steady Header.defaultId
  have again := drafted_boundFields drafted steady rebuilt
  refine ⟨_, d'.root.document version, ofSchemaJson_document drafted.neat version, ?_, ?_⟩
  · unfold Shape.toSchema Schema.ofFields
    have same : (Shape.ofDescribed ⟨version, Header.defaultId, d.root⟩).fields =
        boundFields Header.defaultId d.root := rfl
    rw [same, rebuilt]
    rfl
  · exact rearranged_document drafted.neat again.neat (alike_rebuilt drafted steady again) version

/-- A container that is passed over, an array that hands its flag on, and values without titles. -/
def archiveFields : List Field :=
  [{ fullname := "tags", type := .array, required := true },
   { fullname := "tags[]" },
   { fullname := "box", type := .object },
   { fullname := "box.size", type := .scalar .integer, required := true,
     enumValues := ["10", "20"], enumNames := ["small"] },
   { fullname := ".." },
   { fullname := "author", required := true }]

theorem toSchema_ofSchemaJson_archive :
    (∀ f ∈ archiveFields, f.Unbracketed) ∧ (archiveFields.map Field.segments).Nodup ∧
      (∀ f ∈ archiveFields, f.NumbersReadBack) ∧
      ∃ doc s doc', Schema.ofFields "v1" archiveFields = .ok doc ∧
        Shape.ofSchemaJson doc = .ok s ∧ s.toSchema = .ok doc' ∧ doc.Rearranged doc' := by
  have unbracketed : ∀ f ∈ archiveFields, f.Unbracketed := by decide
  have distinct : (archiveFields.map Field.segments).Nodup := by decide
  have numbers : ∀ f ∈ archiveFields, f.NumbersReadBack := by decide
  obtain ⟨doc, ok⟩ : ∃ doc, Schema.ofFields "v1" archiveFields = .ok doc := ⟨_, rfl⟩
  obtain ⟨s, doc', read, written, rearranged⟩ :=
    toSchema_ofSchemaJson unbracketed distinct numbers ok
  exact ⟨unbracketed, distinct, numbers, doc, s, doc', ok, read, written, rearranged⟩

end ShapeLines.Schema
