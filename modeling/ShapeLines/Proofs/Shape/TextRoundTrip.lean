import ShapeLines.Line.Block
import ShapeLines.Proofs.Shape.WrittenField

/-!
# Reading a written shape

A shape whose texts can stand on a line is read back from its text exactly, in whatever order the
keys are written. The lines of the text are the lines that were written; the first is the header,
every other one a field.
-/

namespace ShapeLines

open Text (Storable)

namespace Header

theorem ofPairs_headerPairs {h : Header} (id : h.id ≠ "") (version : h.version ≠ "") :
    Line.Entry.ofPairs (Field.meaning (Shape.headerPairs h)) = .ok (.header h) := by
  have pairs : Field.meaning (Shape.headerPairs h) =
      [("version", h.version), ("direction", h.direction.name), ("id", h.id)] := rfl
  have direction : Direction.ofName? h.direction.name = some h.direction := by
    cases h.direction <;> rfl
  simp [pairs, Line.Entry.ofPairs, Line.hasKey, ofPairs, needed, directionOf, lastValue?, id,
    version, direction, Except.map, bind, Except.bind, pure, Except.pure]

theorem entry {h : Header} (id : h.id ≠ "") (version : h.version ≠ "")
    (idText : Storable h.id) (versionText : Storable h.version) :
    Line.Entry.ofChars (Field.lineOf (Shape.headerPairs h)) = .ok (.header h) ∧
      ∀ p ∈ Shape.headerPairs h, Field.ReadsBack p := by
  have directionText : Storable h.direction.name := by
    cases h.direction <;> decide
  have reads : ∀ p ∈ Shape.headerPairs h, Field.ReadsBack p := by
    simp only [Shape.headerPairs, List.forall_mem_cons, List.not_mem_nil, false_implies,
      implies_true, and_true]
    exact ⟨.text (by decide) versionText fun isList => absurd isList (by decide),
      .text (by decide) directionText fun isList => absurd isList (by decide),
      .text (by decide) idText fun isList => absurd isList (by decide)⟩
  refine ⟨?_, reads⟩
  rw [Line.Entry.ofChars, Field.pairs_lineOf reads (by simp [Shape.headerPairs])]
  exact ofPairs_headerPairs id version

end Header

namespace Line

theorem addLine_lineOf {ps : List Field.WrittenPair} (reads : ∀ p ∈ ps, Field.ReadsBack p)
    (ne : ps ≠ []) {entry : Entry} (h : Entry.ofChars (Field.lineOf ps) = .ok entry) (d : Declared)
    (n : Nat) :
    d.addLine (Field.lineOf ps, n) = (d.add entry).mapError fun fault => ⟨n, fault⟩ := by
  obtain ⟨trimmed, -, some⟩ := Field.lineOf_solid (fun p hp => (reads p hp).onLine) ne
  have same : Text.trim (Field.lineOf ps) = Field.lineOf ps := trimmed
  rw [Declared.addLine]
  simp only [same, h, Except.bind]
  rw [if_neg (by simpa using some)]

theorem addLines_fields (order : KeyOrder) (h : Header) {fields : List Field}
    (w : ∀ f ∈ fields, f.Writable) (d : Declared) (n : Nat) :
    (((fields.map (Field.orderedPairs order h)).map Field.lineOf).zipIdx n).foldlM
        Declared.addLine d =
      .ok { d with
        fields := d.fields ++
          fields.map fun f => Field.declared (Field.meaning (f.orderedPairs order h)) } := by
  induction fields generalizing d n with
  | nil => simp [pure, Except.pure]
  | cons f fields ih =>
    have hf := w f (List.mem_cons_self ..)
    have reads : ∀ p ∈ f.orderedPairs order h, Field.ReadsBack p := by
      intro p hp
      exact hf.readsBack h p ((List.mergeSort_perm _ _).mem_iff.mp hp)
    have line := addLine_lineOf reads (Shape.orderedPairs_ne_nil order h f) (hf.entry order h) d n
    rw [List.map_cons, List.map_cons, List.zipIdx_cons, List.foldlM_cons, line]
    have rest := ih (fun g hg => w g (List.mem_cons_of_mem _ hg))
      { d with fields := d.fields ++
        [Field.declared (Field.meaning (f.orderedPairs order h))] } (n + 1)
    simp only [Declared.add, Except.mapError, bind, Except.bind]
    rw [rest]
    simp

end Line

namespace Shape

/-- A shape that can be written: what must not be empty is not, every text can stand on a line, and
no further key is taken for one that a field reads itself. -/
structure Writable (s : Shape) : Prop where
  id : s.header.id ≠ ""
  version : s.header.version ≠ ""
  idText : Storable s.header.id
  versionText : Storable s.header.version
  fields : ∀ f ∈ s.fields, f.Writable

instance (s : Shape) : Decidable s.Writable :=
  decidable_of_iff (s.header.id ≠ "" ∧ s.header.version ≠ "" ∧ Storable s.header.id ∧
      Storable s.header.version ∧ ∀ f ∈ s.fields, f.Writable)
    ⟨fun h => ⟨h.1, h.2.1, h.2.2.1, h.2.2.2.1, h.2.2.2.2⟩,
      fun h => ⟨h.id, h.version, h.idText, h.versionText, h.fields⟩⟩

theorem Writable.readsBack {s : Shape} (w : s.Writable) (order : KeyOrder) :
    ∀ ps ∈ s.linePairs order, ∀ p ∈ ps, Field.ReadsBack p := by
  intro ps hps
  rcases List.mem_cons.mp hps with rfl | hps
  · exact (Header.entry w.id w.version w.idText w.versionText).2
  · obtain ⟨f, hf, rfl⟩ := List.mem_map.mp hps
    intro p hp
    exact (w.fields f hf).readsBack _ p ((List.mergeSort_perm _ _).mem_iff.mp hp)

theorem lines_text {s : Shape} (w : s.Writable) (order : KeyOrder) :
    Text.lines (s.text order).toList = (s.linePairs order).map Field.lineOf :=
  lines_text_of_onLine fun ps hps p hp => (w.readsBack order ps hps p hp).onLine

/-- Reading inverts writing, in every order of the keys. -/
theorem parse_text (order : KeyOrder) (s : Shape) (w : s.Writable) :
    parse (s.text order) = .ok s := by
  obtain ⟨header, reads⟩ := Header.entry w.id w.version w.idText w.versionText
  have first := Line.addLine_lineOf reads (by simp [headerPairs]) header {} 1
  have rest := Line.addLines_fields order s.header w.fields { header := some s.header } 2
  have filled : s.fields.map (fun f =>
      (Field.declared (Field.meaning (f.orderedPairs order s.header))).fillBindings s.header.id) =
      s.fields := by
    have each := fun f hf => Field.fillBindings_declared (w.fields f hf) order s.header
    exact (List.map_congr_left each).trans (List.map_id _)
  rw [parse, Line.numbered, lines_text w, linePairs, List.map_cons, List.zipIdx_cons,
    Line.readBlock, List.foldlM_cons, first]
  simp only [Line.Declared.add, Except.mapError, bind, Except.bind, Option.isSome_none,
    Bool.false_eq_true, ↓reduceIte]
  rw [rest]
  simp [Line.Declared.shape, Function.comp_def, filled]

/-- A shape whose texts hold what the line format itself uses. -/
def bracketed : Shape where
  header := ⟨"r,\\", "true", .outbound⟩
  fields :=
    [{ fullname := "items[].a=b", type := .scalar .integer, required := true,
       enumValues := ["[1,\"2]", "true", ""], enumNames := ["a\\", "b,c=", "["],
       defaultText := some "x\\,enum=[1]", src := "s", dst := "r,\\.items.#.a=b",
       extra := KeyMap.ofList [("id", "7"), ("enum [", "true"), ("title", "")] },
     { fullname := "true", src := "r,\\.true", dst := "r,\\.true" }]

theorem parse_text_bracketed :
    bracketed.Writable ∧
      parse (bracketed.text ⟨["title", "enum", "title"]⟩) = .ok bracketed := by
  have w : bracketed.Writable := by decide
  exact ⟨w, parse_text _ _ w⟩

end Shape

end ShapeLines
