import ShapeLines.Proofs.Line.Writer
import ShapeLines.Proofs.Shape.WrittenLine

/-!
# The lines of a written shape

The text of a shape is the line of its header and the lines of its fields, joined by line feeds:
each of these lines is written by calls of its own, which hold at least one pair.
-/

namespace ShapeLines

open ShapeLines.Field (WrittenPair pieceOf lineOf)

namespace LineWriter

theorem toList_text_ofPair (p : WrittenPair) : (Call.ofPair p).text.toList = pieceOf p := by
  obtain ⟨key, value | text⟩ := p
  · rw [Call.ofPair, Call.text, pieceOf]
    split
    · rfl
    · simp [escaped]
  · simp [Call.ofPair, Call.text, pieceOf]

theorem isEnd_ofPair (p : WrittenPair) : (Call.ofPair p).isEnd = false := by
  obtain ⟨key, value | text⟩ := p <;> rfl

def lineCalls (ps : List WrittenPair) : List Call :=
  ps.map Call.ofPair ++ [Call.endLine]

theorem toList_lineText (ps : List WrittenPair) :
    (lineText (ps.map Call.ofPair)).toList = lineOf ps := by
  rw [lineText, String.toList_intercalate, lineOf, List.map_map, List.map_map]
  congr 1
  exact List.map_congr_left fun p _ => toList_text_ofPair p

/-- The calls for lines that hold pairs write these lines. -/
theorem linesOf_flatMap_lineCalls {lines : List (List WrittenPair)} (ne : ∀ ps ∈ lines, ps ≠ []) :
    (linesOf (lines.flatMap lineCalls)).map String.toList = lines.map lineOf := by
  induction lines with
  | nil => rfl
  | cons ps lines ih =>
    obtain ⟨first, others⟩ := List.forall_mem_cons.mp ne
    have own : linesOf (ps.map Call.ofPair) = [lineText (ps.map Call.ofPair)] := by
      have pairs : ∀ c ∈ ps.map Call.ofPair, c.isEnd = false := by
        rw [List.forall_mem_map]
        exact fun p _ => isEnd_ofPair p
      have whole := Text.runs_append (l := []) (by simpa using first) pairs (by simp)
      rw [List.append_nil] at whole
      rw [linesOf, whole]
      rfl
    rw [List.flatMap_cons, lineCalls, List.append_assoc, List.singleton_append,
      linesOf_append_endLine, own, List.singleton_append, List.map_cons, toList_lineText,
      ih others, List.map_cons]

end LineWriter

namespace Shape

def headerPairs (h : Header) : List WrittenPair :=
  [("version", .text h.version), ("direction", .text h.direction.name), ("id", .text h.id)]

/-- The pairs of each line of a shape. -/
def linePairs (order : KeyOrder) (s : Shape) : List (List WrittenPair) :=
  headerPairs s.header :: s.fields.map (Field.orderedPairs order s.header)

theorem calls_eq (order : KeyOrder) (s : Shape) :
    s.calls order = (s.linePairs order).flatMap LineWriter.lineCalls := by
  rw [calls, linePairs, List.flatMap_cons, List.flatMap_map]
  rfl

theorem orderedPairs_ne_nil (order : KeyOrder) (h : Header) (f : Field) :
    f.orderedPairs order h ≠ [] := by
  have perm : (f.orderedPairs order h).Perm (f.writtenPairs h) := List.mergeSort_perm ..
  intro none
  rw [none] at perm
  simp [Field.writtenPairs] at perm

theorem linePairs_ne_nil (order : KeyOrder) (s : Shape) : ∀ ps ∈ s.linePairs order, ps ≠ [] := by
  intro ps hps
  rcases List.mem_cons.mp hps with rfl | hps
  · simp [headerPairs]
  · obtain ⟨f, -, rfl⟩ := List.mem_map.mp hps
    exact orderedPairs_ne_nil order s.header f

theorem toList_text (order : KeyOrder) (s : Shape) :
    (s.text order).toList = List.intercalate ['\n'] ((s.linePairs order).map lineOf) := by
  rw [text, LineWriter.finish_run_eq, String.toList_intercalate, calls_eq,
    LineWriter.linesOf_flatMap_lineCalls (linePairs_ne_nil order s)]
  rfl

/-- Pairs that stay together on a line give the lines of the text. -/
theorem lines_text_of_onLine {s : Shape} {order : KeyOrder}
    (onLine : ∀ ps ∈ s.linePairs order, ∀ p ∈ ps, Field.OnLine p) :
    Text.lines (s.text order).toList = (s.linePairs order).map lineOf := by
  have solid : ∀ l ∈ (s.linePairs order).map lineOf,
      Text.Trimmed l ∧ Text.OneLine l ∧ l ≠ [] := by
    intro l hl
    obtain ⟨ps, hps, rfl⟩ := List.mem_map.mp hl
    exact Field.lineOf_solid (onLine ps hps) (linePairs_ne_nil order s ps hps)
  rw [toList_text]
  exact Text.lines_intercalate (fun l hl => (solid l hl).2.1)
    (fun l hl => (Text.trimmed_iff.mp (solid l hl).1).2) fun l hl => (solid l hl).2.2

end Shape

end ShapeLines
