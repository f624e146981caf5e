import ShapeLines.Proofs.Shape.Entries
import ShapeLines.Proofs.Shape.ReadField
import ShapeLines.Proofs.Shape.TextRoundTrip

/-!
# Reading the lines of a written shape

The lines of a written shape are read one by one: the first as the header, each other one as a field
of its own, whose bindings are filled in at the end. A legible shape, in which every list and every
further key is kept, is read as it was.
-/

namespace ShapeLines

open Results
open Text (Trimmed)

namespace Shape

/-- A shape that is read from its text as it was. -/
structure Legible (s : Shape) : Prop where
  header : s.header.Stored
  fields : ∀ f ∈ s.fields, f.Legible s.header

theorem Stored.onLine {s : Shape} (stored : s.Stored) (keeps : ∀ f ∈ s.fields, f.KeepsLists)
    (order : KeyOrder) : ∀ ps ∈ s.linePairs order, ∀ p ∈ ps, Field.OnLine p := by
  obtain ⟨id, version, idText, versionText⟩ := stored.header
  refine List.forall_mem_cons.mpr ⟨fun p mem => ?_, fun ps mem p inLine => ?_⟩
  · exact ((Header.entry id version idText versionText).2 p mem).onLine
  · obtain ⟨f, inFields, rfl⟩ := List.mem_map.mp mem
    exact (stored.fields f inFields).onLine (keeps f inFields) p
      ((List.mergeSort_perm _ _).mem_iff.mp inLine)

/-- What the text of a shape is read as: its header, and what is read from the line of each field.
-/
theorem parse_text_eq_ok_iff {s s' : Shape} (stored : s.Stored)
    (keeps : ∀ f ∈ s.fields, f.KeepsLists) (order : KeyOrder) :
    parse (s.text order) = .ok s' ↔ ∃ fields,
      List.Forall₂ (fun f g =>
        Line.Entry.ofChars (Field.lineOf (f.orderedPairs order s.header)) = .ok (.field g))
        s.fields fields ∧
      s' = ⟨s.header, fields.map (·.fillBindings s.header.id)⟩ := by
  obtain ⟨id, version, idText, versionText⟩ := stored.header
  obtain ⟨readHeader, reads⟩ := Header.entry id version idText versionText
  have onLine := stored.onLine keeps order
  have solid : ∀ line ∈ (s.linePairs order).map Field.lineOf, Trimmed line ∧ line ≠ [] := by
    intro line mem
    obtain ⟨ps, inLines, rfl⟩ := List.mem_map.mp mem
    have whole := Field.lineOf_solid (onLine ps inLines) (linePairs_ne_nil order s ps inLines)
    exact ⟨whole.1, whole.2.2⟩
  have lines : Text.solidLines (s.text order).toList = (s.linePairs order).map Field.lineOf := by
    rw [Text.solidLines, lines_text_of_onLine onLine,
      List.map_congr_left fun line mem => (solid line mem).1, List.map_id',
      List.filter_eq_self.mpr fun line mem => by simpa using (solid line mem).2]
  rw [parse_eq_ok_iff, lines, linePairs, List.map_cons]
  constructor
  · rintro ⟨entries, declare, headers, fields⟩
    obtain ⟨entry, behind, read, declareBehind, rfl⟩ := List.forall₂_cons_left_iff.mp declare
    obtain rfl := Except.ok.inj (read.symm.trans readHeader)
    obtain ⟨header, none⟩ := List.cons.inj headers
    have declared := Line.Declare.fields declareBehind none
    refine ⟨behind.filterMap Line.Entry.field?, ?_, ?_⟩
    · simpa [Line.DeclareFields, List.forall₂_map_left_iff] using declared
    · obtain ⟨header', fields'⟩ := s'
      obtain rfl : s.header = header' := header
      rw [Shape.mk.injEq]
      exact ⟨rfl, fields⟩
  · rintro ⟨declared, read, rfl⟩
    have fields : Line.DeclareFields ((s.fields.map (Field.orderedPairs order s.header)).map
        Field.lineOf) declared := by
      simpa [Line.DeclareFields, List.forall₂_map_left_iff] using read
    refine ⟨.header s.header :: declared.map .field, .cons readHeader fields.declare, ?_, ?_⟩
    · exact congrArg (s.header :: ·) (Line.filterMap_header?_map_field declared)
    · exact congrArg _ (Line.filterMap_field?_map_field declared).symm

theorem Legible.reread {s : Shape} (l : s.Legible) (order : KeyOrder) :
    parse (s.text order) = .ok s := by
  have stored : s.Stored := ⟨l.header, fun f mem => (l.fields f mem).stored⟩
  rw [parse_text_eq_ok_iff stored (fun f mem => (l.fields f mem).keepsLists)]
  refine ⟨s.fields.map fun f => Field.declared (Field.meaning (f.orderedPairs order s.header)),
    List.forall₂_map_right_iff.mpr (List.forall₂_same.mpr fun f mem => ?_), ?_⟩
  · exact (l.fields f mem).entry order
  · have filled : ∀ f ∈ s.fields,
        (Field.declared (Field.meaning (f.orderedPairs order s.header))).fillBindings s.header.id =
          f := fun f mem => (l.fields f mem).stored.fillBindings order
    have same := (List.map_congr_left filled).trans (List.map_id s.fields)
    rw [List.map_map]
    exact congrArg (Shape.mk s.header) same.symm

end Shape

end ShapeLines
