import ShapeLines.Proofs.Line.Faults
import ShapeLines.Proofs.Shape.Entries

/-!
# Where a fault lies

Reading stops at the first line that is at fault by itself or is a second header, and reports that
line. So a fault is decided by the lines up to its own: whatever follows, it is the same, and without
its line there is no other fault than that the header is missing. Only that fault is found at the end
of a text. It is reported at the first line, and each line that is not blank is a field then.
-/

namespace ShapeLines

open Results
open Text (OneLine)

/-- The text has the given lines, or it is these lines joined by line feeds. -/
def Text.MadeOf (ls : List (List Char)) (s : List Char) : Prop :=
  lines s = ls ∨ s = List.intercalate ['\n'] ls

/-- Both have the same lines that are not blank. -/
theorem Text.MadeOf.solidLines_eq {ls : List (List Char)} {s : List Char} (made : MadeOf ls s)
    (one : ∀ line ∈ ls, OneLine line) : solidLines s = (ls.map trim).filter (· ≠ []) := by
  rcases made with rfl | rfl
  · rfl
  · rw [solidLines_intercalate]
    induction ls with
    | nil => rfl
    | cons line ls ih =>
      obtain ⟨first, others⟩ := List.forall_mem_cons.mp one
      rw [List.flatMap_cons, solidLines_of_oneLine first, ih others, List.map_cons,
        ← List.filter_append, List.singleton_append]

namespace Line

variable {d : Declared} {e : LineError} {n : Nat} {line : List Char} {lines : List (List Char)}

theorem DeclareFields.exists_field {fields : List Field} (declare : DeclareFields lines fields)
    (mem : line ∈ lines) : ∃ f, Entry.ofChars line = .ok (.field f) := by
  induction declare with
  | nil => cases mem
  | cons read _ ih =>
    rcases List.mem_cons.mp mem with rfl | later
    · exact ⟨_, read⟩
    · exact ih later

/-- A line cannot be taken if it is at fault by itself or is a second header. -/
theorem addLine_eq_error_iff : d.addLine (line, n) = .error e ↔
    Text.trim line ≠ [] ∧ e.line = n ∧
      (Entry.ofChars (Text.trim line) = .error e.fault ∨
        e.fault = .duplicateHeader ∧ d.header.isSome ∧
          ∃ h, Entry.ofChars (Text.trim line) = .ok (.header h)) := by
  obtain ⟨number, fault⟩ := e
  unfold Declared.addLine
  dsimp only
  by_cases blank : Text.trim line = []
  · simp [blank]
  · rw [if_neg (by simpa using blank), mapError_eq_error_iff]
    simp only [bind_eq_error_iff, LineError.mk.injEq]
    constructor
    · rintro ⟨cause, failed, rfl, rfl⟩
      refine ⟨blank, rfl, failed.imp_right ?_⟩
      rintro ⟨entry, read, twice⟩
      cases entry with
      | field f => cases twice
      | header h =>
        unfold Declared.add at twice
        dsimp only at twice
        split at twice
        · next known =>
          cases twice
          exact ⟨rfl, known, h, read⟩
        · cases twice
    · rintro ⟨-, rfl, failed⟩
      refine ⟨fault, failed.imp_right ?_, rfl, rfl⟩
      rintro ⟨rfl, known, h, read⟩
      exact ⟨.header h, read, if_pos known⟩

/-- That the header is missing is not found at a line. -/
theorem fault_ne_of_addLine (failed : d.addLine (line, n) = .error e) :
    e.fault ≠ .missingHeader := by
  obtain ⟨-, -, own | ⟨twice, -⟩⟩ := addLine_eq_error_iff.mp failed
  · intro missing
    have single := Entry.ofOneLine_of_ofChars own
    rw [missing] at single
    exact single
  · simp [twice]

/-- A run of lines fails at the first line that cannot be taken. -/
theorem addLines_eq_error_iff : (lines.zipIdx n).foldlM Declared.addLine d = .error e ↔
    ∃ before line after d', lines = before ++ line :: after ∧
      (before.zipIdx n).foldlM Declared.addLine d = .ok d' ∧
      d'.addLine (line, n + before.length) = .error e := by
  rw [foldlM_eq_error_iff]
  constructor
  · rintro ⟨front, numbered, back, d', cut, run, failed⟩
    obtain ⟨before, rest, rfl, rfl, tail⟩ := List.zipIdx_eq_append_iff.mp cut
    obtain ⟨line, after, rfl, rfl, -⟩ := List.zipIdx_eq_cons_iff.mp tail.symm
    exact ⟨before, line, after, d', rfl, run, failed⟩
  · rintro ⟨before, line, after, d', rfl, run, failed⟩
    exact ⟨before.zipIdx n, (line, n + before.length), after.zipIdx (n + before.length + 1), d',
      by rw [List.zipIdx_append, List.zipIdx_cons], run, failed⟩

end Line

namespace Shape

open Line (Declared DeclareFields Entry)

variable {text : String} {e : LineError}

theorem parse_eq (text : String) :
    parse text = (((Text.lines text.toList).zipIdx 1).foldlM Declared.addLine {}).bind (·.shape 1) := by
  rw [parse, Line.readBlock, Line.numbered]
  cases Text.lines text.toList <;> rfl

/-- Lines that can all be taken describe a shape, unless they have no header. -/
theorem parse_of_taken {d : Declared}
    (taken : ((Text.lines text.toList).zipIdx 1).foldlM Declared.addLine {} = .ok d) :
    (∃ s, parse text = .ok s) ∨ parse text = .error ⟨1, .missingHeader⟩ := by
  rw [parse_eq, taken]
  show (∃ s, d.shape 1 = .ok s) ∨ d.shape 1 = .error ⟨1, .missingHeader⟩
  unfold Declared.shape
  cases d.header with
  | none => exact .inr rfl
  | some header => exact .inl ⟨_, rfl⟩

/-- A text fails at the first line that cannot be taken, or because none is a header. -/
theorem parse_eq_error_iff : parse text = .error e ↔
    (∃ before line after d, Text.lines text.toList = before ++ line :: after ∧
      (before.zipIdx 1).foldlM Declared.addLine {} = .ok d ∧
      d.addLine (line, 1 + before.length) = .error e) ∨
    e = ⟨1, .missingHeader⟩ ∧ ∃ fields, DeclareFields (Text.solidLines text.toList) fields := by
  rw [parse_eq, bind_eq_error_iff, Line.addLines_eq_error_iff]
  refine or_congr_right ⟨?_, ?_⟩
  · rintro ⟨d, taken, failed⟩
    obtain ⟨entries, declare, headers, -⟩ := Line.addLines_eq_ok_iff.mp taken
    unfold Declared.shape at failed
    split at failed
    · next none =>
      rw [none] at headers
      cases failed
      exact ⟨rfl, _, declare.fields headers.symm⟩
    · cases failed
  · rintro ⟨rfl, fields, declare⟩
    refine ⟨⟨none, fields⟩, Line.addLines_eq_ok_iff.mpr ⟨_, declare.declare, ?_, ?_⟩, rfl⟩
    · rw [Line.filterMap_header?_map_field]
      rfl
    · rw [Line.filterMap_field?_map_field]
      rfl

/-- A fault other than a missing header lies in the line that it names, which is not blank. Every
text that has the same lines up to there has this fault; a text of the lines before it has no fault,
or its header is missing. A missing header is reported at the first line, and then each line that is
not blank declares a field. -/
theorem parse_fault_local (failed : parse text = .error e) :
    (e.fault ≠ .missingHeader → ∃ before line after,
      Text.lines text.toList = before ++ line :: after ∧ e.line = before.length + 1 ∧
      Text.trim line ≠ [] ∧
      (∀ text' after', Text.lines text'.toList = before ++ line :: after' →
        parse text' = .error e) ∧
      ∀ text', Text.MadeOf before text'.toList →
        (∃ s, parse text' = .ok s) ∨ parse text' = .error ⟨1, .missingHeader⟩) ∧
    (e.fault = .missingHeader → e.line = 1 ∧ ∀ line ∈ Text.lines text.toList,
      Text.trim line ≠ [] → ∃ f, Entry.ofChars (Text.trim line) = .ok (.field f)) := by
  rcases parse_eq_error_iff.mp failed with
    ⟨before, line, after, d, cut, taken, here⟩ | ⟨rfl, fields, declare⟩
  · refine ⟨fun _ => ?_, fun missing => absurd missing (Line.fault_ne_of_addLine here)⟩
    obtain ⟨solid, number, -⟩ := Line.addLine_eq_error_iff.mp here
    refine ⟨before, line, after, cut, by omega, solid, fun text' after' same => ?_,
      fun text' made => ?_⟩
    · exact parse_eq_error_iff.mpr (.inl ⟨before, line, after', d, same, taken, here⟩)
    · have one : ∀ l ∈ before, OneLine l := fun l mem =>
        Text.oneLine_of_mem_lines (t := text.toList) (by simp [cut, mem])
      obtain ⟨entries, declare, header, fields⟩ := Line.addLines_eq_ok_iff.mp taken
      rw [← made.solidLines_eq one] at declare
      exact parse_of_taken (Line.addLines_eq_ok_iff.mpr ⟨entries, declare, header, fields⟩)
  · refine ⟨fun other => absurd rfl other, fun _ => ⟨rfl, fun line mem solid => ?_⟩⟩
    exact declare.exists_field (List.mem_filter.mpr
      ⟨List.mem_map_of_mem mem, by simpa using solid⟩)

/-- A header between two fields, of which the second is at fault, and faults of other kinds behind. -/
def unclosedText : String :=
  "fullname=a,src=x\n \nid=P,version=v,direction=in\r\n" ++
    "fullname=b,dst=y,enum=[\"u\\\"]\n=c\nid=Q,version=v,direction=up"

def headlessText : String :=
  "\nfullname=a,src=x\n\t\nid=P,fullname=b,dst=y"

theorem parse_fault_local_unclosed :
    (parse unclosedText = .error ⟨4, .malformedList "enum"⟩ ∧ ∃ before line after,
      Text.lines unclosedText.toList = before ++ line :: after ∧ 4 = before.length + 1 ∧
      Text.trim line ≠ [] ∧
      (∀ text' after', Text.lines text'.toList = before ++ line :: after' →
        parse text' = .error ⟨4, .malformedList "enum"⟩) ∧
      ∀ text', Text.MadeOf before text'.toList →
        (∃ s, parse text' = .ok s) ∨ parse text' = .error ⟨1, .missingHeader⟩) ∧
    (parse headlessText = .error ⟨1, .missingHeader⟩ ∧
      ∀ line ∈ Text.lines headlessText.toList,
        Text.trim line ≠ [] → ∃ f, Entry.ofChars (Text.trim line) = .ok (.field f)) := by
  have unclosed : parse unclosedText = .error ⟨4, .malformedList "enum"⟩ := by decide +kernel
  have headless : parse headlessText = .error ⟨1, .missingHeader⟩ := by decide +kernel
  exact ⟨⟨unclosed, (parse_fault_local unclosed).1 (by decide)⟩, headless,
    ((parse_fault_local headless).2 rfl).2⟩

end Shape

end ShapeLines
