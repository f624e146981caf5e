import ShapeLines.Line.Block
import ShapeLines.Proofs.Results
import ShapeLines.Proofs.Text.Lines

/-!
# The entries of a text

A text is read as one shape exactly if each of its lines that is not blank declares an entry and one
of these entries is the header. The shape then has that header and the fields in the order of their
lines. So the result depends on nothing but the lines that are not blank, as they are when they are
trimmed, and it depends on the place of the header not at all.
-/

namespace ShapeLines

open Results

namespace Line

variable {d d' : Declared} {entry : Entry} {lines : List (List Char)} {entries : List Entry}
  {n : Nat}

def Entry.header? : Entry → Option Header
  | .header h => some h
  | .field _ => none

def Entry.field? : Entry → Option Field
  | .header _ => none
  | .field f => some f

/-- Each line declares its entry. -/
def Declare (lines : List (List Char)) (entries : List Entry) : Prop :=
  List.Forall₂ (fun line entry => Entry.ofChars line = .ok entry) lines entries

/-- Each line declares a field. -/
def DeclareFields (lines : List (List Char)) (fields : List Field) : Prop :=
  List.Forall₂ (fun line field => Entry.ofChars line = .ok (.field field)) lines fields

theorem Declare.exists_line (declare : Declare lines entries) :
    ∀ entry ∈ entries, ∃ line ∈ lines, Entry.ofChars line = .ok entry := by
  induction declare with
  | nil => exact List.forall_mem_nil _
  | @cons line entry lines entries read _ ih =>
    refine List.forall_mem_cons.mpr ⟨⟨line, List.mem_cons_self, read⟩, fun other mem => ?_⟩
    obtain ⟨line', inLines, readOther⟩ := ih other mem
    exact ⟨line', List.mem_cons_of_mem line inLines, readOther⟩

theorem Declare.fields (declare : Declare lines entries)
    (none : entries.filterMap Entry.header? = []) :
    DeclareFields lines (entries.filterMap Entry.field?) := by
  induction declare with
  | nil => exact .nil
  | @cons line entry lines entries read _ ih =>
    cases entry with
    | header h => cases none
    | field f => exact .cons read (ih none)

/-- With one header every other line declares a field. -/
theorem Declare.around {header : Header} (declare : Declare lines entries)
    (one : entries.filterMap Entry.header? = [header]) :
    ∃ before line after, lines = before ++ line :: after ∧
      Entry.ofChars line = .ok (.header header) ∧
      DeclareFields (before ++ after) (entries.filterMap Entry.field?) := by
  induction declare with
  | nil => cases one
  | @cons line entry lines entries read declare ih =>
    cases entry with
    | header h =>
      obtain ⟨rfl, none⟩ := List.cons.inj one
      have fields : DeclareFields lines (entries.filterMap Entry.field?) :=
        Declare.fields declare none
      exact ⟨[], line, lines, rfl, read, fields⟩
    | field f =>
      obtain ⟨before, line', after, rfl, readHeader, fields⟩ := ih one
      exact ⟨line :: before, line', after, rfl, readHeader, .cons read fields⟩

theorem DeclareFields.declare {fields : List Field} (declare : DeclareFields lines fields) :
    Declare lines (fields.map .field) :=
  List.forall₂_map_right_iff.mpr declare

theorem filterMap_header?_map_field (fields : List Field) :
    (fields.map Entry.field).filterMap Entry.header? = [] := by
  induction fields with
  | nil => rfl
  | cons f fields ih => exact ih

theorem filterMap_field?_map_field (fields : List Field) :
    (fields.map Entry.field).filterMap Entry.field? = fields := by
  rw [List.filterMap_map]
  exact List.filterMap_some

theorem Declared.eq_iff :
    d = d' ↔ d'.header.toList = d.header.toList ∧ d'.fields = d.fields := by
  obtain ⟨header, fields⟩ := d
  obtain ⟨header', fields'⟩ := d'
  cases header <;> cases header' <;> simp [eq_comm]

/-- What stands at the start of at most one element is at most one element. -/
theorem exists_toList_eq {α : Type} {found : Option α} {l l' : List α}
    (h : found.toList = l ++ l') : ∃ front : Option α, front.toList = l := by
  cases l with
  | nil => exact ⟨none, rfl⟩
  | cons a l =>
    cases found with
    | none => cases h
    | some b =>
      obtain ⟨-, rest⟩ := List.cons.inj h
      obtain ⟨rfl, -⟩ := List.append_eq_nil_iff.mp rest.symm
      exact ⟨some a, rfl⟩

/-- One entry more. A header is taken only if there is none. -/
theorem add_eq_ok_iff : d.add entry = .ok d' ↔
    d'.header.toList = d.header.toList ++ entry.header?.toList ∧
      d'.fields = d.fields ++ entry.field?.toList := by
  cases entry with
  | field field =>
    rw [Declared.add, Except.ok.injEq, Declared.eq_iff]
    simp [Entry.header?, Entry.field?]
  | header header =>
    rw [Declared.add]
    cases before : d.header with
    | some first =>
      have twice (found : Option Header) : found.toList ≠ [first, header] := by
        cases found <;> simp
      simp [Entry.header?, twice]
    | none =>
      simp only [Option.isSome_none, Bool.false_eq_true, if_false, Except.ok.injEq]
      rw [Declared.eq_iff]
      simp [Entry.header?, Entry.field?]

theorem addLine_eq_ok_iff {line : List Char} : d.addLine (line, n) = .ok d' ↔
    ∃ entries, Declare ([Text.trim line].filter (· ≠ [])) entries ∧
      d'.header.toList = d.header.toList ++ entries.filterMap Entry.header? ∧
      d'.fields = d.fields ++ entries.filterMap Entry.field? := by
  unfold Declared.addLine
  dsimp only
  by_cases blank : Text.trim line = []
  · simp [blank, Declare, Declared.eq_iff]
  · rw [if_neg (by simpa using blank), mapError_eq_ok_iff, bind_eq_ok_iff,
      List.filter_cons_of_pos (by simpa using blank)]
    simp only [add_eq_ok_iff]
    constructor
    · rintro ⟨entry, read, header, fields⟩
      refine ⟨[entry], .cons read .nil, ?_, ?_⟩
      · rw [header]
        cases entry <;> rfl
      · rw [fields]
        cases entry <;> rfl
    · rintro ⟨entries, declare, header, fields⟩
      obtain ⟨entry, rest, read, none, rfl⟩ := List.forall₂_cons_left_iff.mp declare
      obtain rfl := List.forall₂_nil_left_iff.mp none
      refine ⟨entry, read, ?_, ?_⟩
      · rw [header]
        cases entry <;> rfl
      · rw [fields]
        cases entry <;> rfl

/-- A run of lines is taken if those that are not blank declare entries that can be added. -/
theorem addLines_eq_ok_iff : (lines.zipIdx n).foldlM Declared.addLine d = .ok d' ↔
    ∃ entries, Declare ((lines.map Text.trim).filter (· ≠ [])) entries ∧
      d'.header.toList = d.header.toList ++ entries.filterMap Entry.header? ∧
      d'.fields = d.fields ++ entries.filterMap Entry.field? := by
  induction lines generalizing d n with
  | nil => simp [Declare, pure, Except.pure, Declared.eq_iff]
  | cons line lines ih =>
    have split : ((line :: lines).map Text.trim).filter (· ≠ []) =
        [Text.trim line].filter (· ≠ []) ++ (lines.map Text.trim).filter (· ≠ []) := by
      rw [List.map_cons, ← List.singleton_append, List.filter_append]
    rw [List.zipIdx_cons, List.foldlM_cons, split]
    refine bind_eq_ok_iff.trans ?_
    simp only [addLine_eq_ok_iff, ih]
    constructor
    · rintro ⟨between, ⟨first, declareFirst, header, fields⟩, rest, declareRest, header', fields'⟩
      refine ⟨first ++ rest, List.rel_append declareFirst declareRest, ?_, ?_⟩
      · rw [header', header, List.filterMap_append, List.append_assoc]
      · rw [fields', fields, List.filterMap_append, List.append_assoc]
    · rintro ⟨entries, declare, header, fields⟩
      obtain ⟨first, rest, rfl, declareFirst, declareRest⟩ := forall₂_append_left_iff.mp declare
      rw [List.filterMap_append, ← List.append_assoc] at header fields
      obtain ⟨between, headers⟩ := exists_toList_eq header
      exact ⟨⟨between, d.fields ++ first.filterMap Entry.field?⟩,
        ⟨first, declareFirst, headers, rfl⟩, rest, declareRest, by rw [headers]; exact header, fields⟩

end Line

namespace Shape

open Line (Entry Declare DeclareFields)

/-- A text is read as the shape that the entries of its lines make up. -/
theorem parse_eq_ok_iff {text : String} {s : Shape} : parse text = .ok s ↔
    ∃ entries, Declare (Text.solidLines text.toList) entries ∧
      entries.filterMap Entry.header? = [s.header] ∧
      s.fields = (entries.filterMap Entry.field?).map (·.fillBindings s.header.id) := by
  obtain ⟨header, fields⟩ := s
  rw [parse, Line.readBlock, bind_eq_ok_iff]
  simp only [Line.numbered, Line.addLines_eq_ok_iff, Line.Declared.shape]
  constructor
  · rintro ⟨⟨found, declared⟩, ⟨entries, declare, headers, all⟩, shape⟩
    cases found with
    | none => cases shape
    | some found =>
      cases Except.ok.inj shape
      have fields : declared = entries.filterMap Entry.field? := all
      exact ⟨entries, declare, headers.symm, by rw [fields]⟩
  · rintro ⟨entries, declare, headers, rfl⟩
    exact ⟨⟨some header, entries.filterMap Entry.field?⟩, ⟨entries, declare, headers.symm, rfl⟩, rfl⟩

/-- Of the lines that are not blank exactly one is the header, the others are the fields. -/
theorem exists_around_header {text : String} {s : Shape} (read : parse text = .ok s) :
    ∃ before line after fields, Text.solidLines text.toList = before ++ line :: after ∧
      Entry.ofChars line = .ok (.header s.header) ∧ DeclareFields (before ++ after) fields ∧
      s.fields = fields.map (·.fillBindings s.header.id) := by
  obtain ⟨entries, declare, headers, fields⟩ := parse_eq_ok_iff.mp read
  obtain ⟨before, line, after, whole, readHeader, declareFields⟩ := declare.around headers
  exact ⟨before, line, after, _, whole, readHeader, declareFields, fields⟩

end Shape

end ShapeLines
