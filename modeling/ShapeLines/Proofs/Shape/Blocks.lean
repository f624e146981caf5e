import ShapeLines.Line.Block
import ShapeLines.Proofs.Results
import ShapeLines.Proofs.Text.Lines
import ShapeLines.Proofs.Text.Runs

/-!
# Reading several shapes

A text of several shapes is read run by run: each maximal run of lines that are not blank is read as
a text of its own. The reader goes from line to line and holds the block that is still open; what it
has yet to read are the runs of that block and of the lines ahead of it. Only the line numbers in
faults tell the two readings apart. A fault in a run is reported at the line where it stands in the
whole text, also if the header is missing, which is reported at the first line of the run.
-/

namespace ShapeLines

/-- The same fault, `count` lines further down. -/
def LineError.later (count : Nat) (e : LineError) : LineError :=
  { e with line := e.line + count }

namespace Line

open Results
open Text (Run IsRun OneLine)

variable {d : Declared} {count n : Nat}

def isBlankLine (line : List Char) : Bool :=
  line.all Text.isBlank

def runText (r : Run (List Char)) : String :=
  String.ofList (List.intercalate ['\n'] r.elements)

/-! ## Faults further down -/

/-- A line counts for what is left of it when it is trimmed. Further down it has the same fault. -/
theorem addLine_later {line same : List Char} (trimmed : Text.trim line = Text.trim same) :
    d.addLine (line, n + count) = (d.addLine (same, n)).mapError (·.later count) := by
  unfold Declared.addLine
  dsimp only
  rw [trimmed]
  split
  · rfl
  · cases (Entry.ofChars (Text.trim same)).bind d.add <;> rfl

theorem addLines_later {lines same : List (List Char)}
    (trimmed : lines.map Text.trim = same.map Text.trim) :
    (lines.zipIdx (n + count)).foldlM Declared.addLine d =
      ((same.zipIdx n).foldlM Declared.addLine d).mapError (·.later count) := by
  induction lines generalizing same d n with
  | nil =>
    rw [List.map_nil, eq_comm, List.map_eq_nil_iff] at trimmed
    rw [trimmed]
    rfl
  | cons line lines ih =>
    cases same with
    | nil => simp at trimmed
    | cons first same =>
      obtain ⟨here, rest⟩ := List.cons.inj trimmed
      rw [List.zipIdx_cons, List.zipIdx_cons, List.foldlM_cons, List.foldlM_cons,
        addLine_later here]
      have numbers : n + count + 1 = n + 1 + count := by omega
      simp only [numbers, ih rest]
      exact mapError_bind _ _ _

theorem shape_later : d.shape (n + count) = (d.shape n).mapError (·.later count) := by
  unfold Declared.shape
  cases d.header <;> rfl

theorem firstNumber_zipIdx {lines : List (List Char)} (ne : lines ≠ []) :
    firstNumber (lines.zipIdx n) = n := by
  cases lines with
  | nil => exact absurd rfl ne
  | cons line lines => rfl

theorem readBlock_later {lines same : List (List Char)}
    (trimmed : lines.map Text.trim = same.map Text.trim) (ne : lines ≠ []) :
    readBlock (lines.zipIdx (n + count)) =
      (readBlock (same.zipIdx n)).mapError (·.later count) := by
  have ne' : same ≠ [] := by
    rintro rfl
    exact ne (List.map_eq_nil_iff.mp trimmed)
  unfold readBlock
  rw [firstNumber_zipIdx ne, firstNumber_zipIdx ne', addLines_later trimmed, ← mapError_bind]
  simp only [shape_later]

/-- A run of lines is read as its own text is, apart from the line numbers. -/
theorem readBlock_numbered {ls : List (List Char)} {r : Run (List Char)}
    (one : ∀ line ∈ ls, OneLine line) (isRun : IsRun isBlankLine 1 ls r) :
    readBlock r.numbered = (Shape.parse (runText r)).mapError (·.later (r.first - 1)) := by
  obtain ⟨before, after, rfl, first, ne, solid, -, -⟩ := isRun
  have nonempty : ∀ line ∈ r.elements, line ≠ [] := by
    rintro line mem rfl
    exact absurd (solid [] mem) (by simp [isBlankLine])
  have number : r.first = 1 + (r.first - 1) := by omega
  have same := Text.map_trim_lines_intercalate (fun line mem => one line (by simp [mem])) nonempty
  rw [Run.numbered, number, readBlock_later same.symm ne, Shape.parse, numbered, runText,
    String.toList_ofList, ← number]

/-! ## Blocks are runs of lines -/

section Gathering

variable {g : Gathered}

/-- Ending a block reads the run of its lines, if it has any. -/
theorem close_eq (solid : ∀ line ∈ g.block, line.isBlank = false) :
    g.close = ((Text.runs Numbered.isBlank g.block).mapM readBlock).map fun shapes =>
      { shapes := g.shapes ++ shapes } := by
  obtain ⟨shapes, block⟩ := g
  cases block with
  | nil => simp [Gathered.close, Text.runs, Except.map, pure, Except.pure]
  | cons line block =>
    have one := Text.runs_append (l := []) (List.cons_ne_nil line block) solid (by simp)
    rw [List.append_nil] at one
    rw [one, List.mapM_cons]
    show (readBlock (line :: block)).map _ = _
    cases readBlock (line :: block) <;> rfl

/-- From any state on, the open block and the lines that are left are read run by run. -/
theorem shapes_gathered (lines : List Numbered)
    (solid : ∀ line ∈ g.block, line.isBlank = false) :
    ((lines.foldlM Gathered.addLine g).bind Gathered.close).map Gathered.shapes =
      ((Text.runs Numbered.isBlank (g.block ++ lines)).mapM readBlock).map (g.shapes ++ ·) := by
  induction lines generalizing g with
  | nil =>
    show g.close.map Gathered.shapes = _
    rw [close_eq solid, List.append_nil]
    cases (Text.runs Numbered.isBlank g.block).mapM readBlock <;> rfl
  | cons line lines ih =>
    rw [List.foldlM_cons]
    cases blank : line.isBlank with
    | true =>
      -- no run goes through the blank line, so the block ends with the runs before it
      rw [Gathered.addLine, if_pos blank, close_eq solid, Text.runs_append_gap blank,
        List.mapM_append]
      cases (Text.runs Numbered.isBlank g.block).mapM readBlock with
      | error e => rfl
      | ok shapes =>
        refine (ih (g := { shapes := g.shapes ++ shapes }) (List.forall_mem_nil _)).trans ?_
        rw [List.nil_append]
        cases (Text.runs Numbered.isBlank lines).mapM readBlock with
        | error e => rfl
        | ok rest => exact congrArg Except.ok (List.append_assoc ..)
    | false =>
      have solid' : ∀ l ∈ g.block ++ [line], l.isBlank = false := by
        rw [List.forall_mem_append, List.forall_mem_singleton]
        exact ⟨solid, blank⟩
      rw [List.append_cons, Gathered.addLine, if_neg (Bool.eq_false_iff.mp blank)]
      exact ih (g := { g with block := g.block ++ [line] }) solid'

end Gathering

/-- A text of several shapes is read as the runs of its lines are, one after the other. -/
theorem parseMany_eq_mapM_runs (text : String) : Shape.parseMany text =
    (Text.runs Numbered.isBlank (numbered text.toList)).mapM readBlock := by
  rw [Shape.parseMany, shapes_gathered (numbered text.toList) (List.forall_mem_nil _),
    List.nil_append]
  cases (Text.runs Numbered.isBlank (numbered text.toList)).mapM readBlock <;> rfl

end Line

/-! ## Reading run by run -/

namespace Shape

open Results
open Text (Run IsRun)
open Line (isBlankLine runText)

/-- A text of several shapes is read run by run, where the runs are the maximal ones of lines that
are not blank, in the order in which they stand. The shapes are those that the texts of the runs
describe. The first run whose text describes no shape decides the fault, which is the fault in that
text as many lines further down as there are lines before the run. -/
theorem parseMany_run_by_run (text : String) : ∃ runs : List (Run (List Char)),
    (∀ r, r ∈ runs ↔ IsRun isBlankLine 1 (Text.lines text.toList) r) ∧
    runs.Pairwise (fun r next => r.first < next.first) ∧
    (∀ shapes, parseMany text = .ok shapes ↔
      List.Forall₂ (fun r s => parse (runText r) = .ok s) runs shapes) ∧
    ∀ e, parseMany text = .error e ↔ ∃ before r after fault,
      runs = before ++ r :: after ∧ (∀ b ∈ before, ∃ s, parse (runText b) = .ok s) ∧
      parse (runText r) = .error fault ∧ e = fault.later (r.first - 1) := by
  obtain ⟨runs, mem, sorted, cut⟩ := Text.exists_runs isBlankLine (Text.lines text.toList) 1
  have many : parseMany text =
      runs.mapM fun r => (parse (runText r)).mapError (·.later (r.first - 1)) := by
    rw [Line.parseMany_eq_mapM_runs]
    refine (congrArg _ cut).trans ?_
    exact mapM_map_congr fun r inRuns =>
      Line.readBlock_numbered (fun line => Text.oneLine_of_mem_lines) ((mem r).mp inRuns)
  refine ⟨runs, mem, sorted, fun shapes => ?_, fun e => ?_⟩
  · simp only [many, mapM_eq_ok_iff, mapError_eq_ok_iff]
  · simp only [many, mapM_eq_error_iff, mapError_eq_ok_iff, mapError_eq_error_iff]
    constructor
    · rintro ⟨before, r, after, eq, fine, fault, failed, rfl⟩
      exact ⟨before, r, after, fault, eq, fine, failed, rfl⟩
    · rintro ⟨before, r, after, fault, eq, fine, failed, rfl⟩
      exact ⟨before, r, after, eq, fine, fault, failed, rfl⟩

end Shape

end ShapeLines
