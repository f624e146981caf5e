import ShapeLines.Proofs.Line.Tells
import ShapeLines.Proofs.Shape.Entries
import ShapeLines.Proofs.Shape.WrittenField

/-!
# What reading can give

A shape that is read from text has a header and fields of which each comes from one line. So its
texts are such that a token can give them: they are trimmed, and only the values of lists can hold
line feeds. A binding that was left out is filled in and may be any text, but then it is the implied
one and is not written again.
-/

namespace ShapeLines

open Results
open Text (Storable OneLine)
open Entries (valuesAt)
open Line (IsTold lastOf)

theorem impliedBinding_ne_nil {id : String} (ne : id ≠ "") (fullname : String) :
    impliedBinding id fullname ≠ "" := by
  unfold impliedBinding
  dsimp only
  rw [if_neg ne]
  split
  · exact ne
  · simp [ne]

/-- What holds of the id and the version of every header that is read. -/
structure Header.Stored (h : Header) : Prop where
  id : h.id ≠ ""
  version : h.version ≠ ""
  idText : Storable h.id
  versionText : Storable h.version

namespace Line

variable {key value : String} {ps : List Pair}

theorem IsTold.storable (told : IsTold (key, value)) (plain : key ∉ listKeys) : Storable value :=
  ⟨told.trimmed, told.oneLine plain⟩

theorem mem_of_lastOf (last : lastOf key ps = some value) : (key, value) ∈ ps :=
  Entries.mem_valuesAt_iff.mp (List.mem_of_getLast? last)

end Line

namespace Field

variable {h : Header} {f : Field} {ps : List Line.Pair}

/-! ## The field of a line -/

/-- The fields that a line can declare, before their bindings are filled in. -/
inductive Spoken : Field → Prop
  | line {ps : List Line.Pair} (told : ∀ pair ∈ ps, IsTold pair)
      (fullname : (declared ps).fullname ≠ "")
      (binding : ¬((declared ps).src = "" ∧ (declared ps).dst = "")) : Spoken (declared ps)

/-- A binding that is written was given, or it is the implied one and the other one was given. -/
theorem storable_binding {given other implied : String} (givenText : given ≠ "" → Storable given)
    (otherText : other ≠ "" → Storable other) (some : ¬(given = "" ∧ other = ""))
    (writes : (if given = "" then implied else given) ≠ implied ∨
      (if other = "" then implied else other) = implied) :
    Storable (if given = "" then implied else given) := by
  by_cases empty : given = ""
  · have otherGiven : other ≠ "" := fun none => some ⟨empty, none⟩
    simp only [empty, otherGiven, ↓reduceIte, ne_eq, not_true, false_or] at writes ⊢
    exact writes ▸ otherText otherGiven
  · rw [if_neg empty]
    exact givenText empty

theorem Spoken.stored (spoken : Spoken f) (id : h.id ≠ "") : (f.fillBindings h.id).Stored h := by
  obtain @⟨ps, told, fullname, binding⟩ := spoken
  have last : ∀ key, key ∉ Line.listKeys → ∀ v ∈ lastOf key ps, Storable v :=
    fun key plain v mem => (told _ (Line.mem_of_lastOf mem)).storable plain
  have text : ∀ key, key ∉ Line.listKeys → ∀ v ∈ (lastOf key ps).toList, Storable v :=
    fun key plain v mem => last key plain v (Option.mem_toList.mp mem)
  have orEmpty : ∀ key, key ∉ Line.listKeys → Storable ((lastOf key ps).getD "") := by
    intro key plain
    cases given : lastOf key ps with
    | none => decide
    | some v => exact last key plain v given
  have list : ∀ key, ∀ v ∈ valuesAt key ps, Text.Trimmed v.toList :=
    fun key v mem => (told _ (Entries.mem_valuesAt_iff.mp mem)).trimmed
  have kept : ∀ e ∈ (declared ps).extra.entries, IsTold e ∧ e.1 ∉ ownKeys := by
    intro e mem
    have extra : e ∈ extrasOf ps := (Entries.mem_update mem).resolve_left List.not_mem_nil
    obtain ⟨inPairs, other⟩ := List.mem_filter.mp extra
    exact ⟨told e inPairs, by simpa using other⟩
  have lists : ∀ key ∈ Line.listKeys, key ∈ ownKeys := by decide
  have implied := impliedBinding_ne_nil id (declared ps).fullname
  have src : Storable (declared ps).src := orEmpty "src" (by decide)
  have dst : Storable (declared ps).dst := orEmpty "dst" (by decide)
  constructor
  case fullname => exact fullname
  case src =>
    show (if _ then _ else _) ≠ ""
    split <;> assumption
  case dst =>
    show (if _ then _ else _) ≠ ""
    split <;> assumption
  case srcText =>
    exact fun writes => storable_binding (fun _ => src) (fun _ => dst) binding
      (writes.imp_right fun both => both.1.2)
  case dstText =>
    exact fun writes => storable_binding (fun _ => dst) (fun _ => src) (binding ∘ And.symm)
      (writes.imp_right fun both => both.1.1)
  case texts =>
    simp only [plainTexts, List.forall_mem_append, List.forall_mem_singleton]
    refine ⟨⟨⟨⟨⟨orEmpty "fullname" (by decide), text "format" (by decide)⟩,
      text "default" (by decide)⟩, text "example" (by decide)⟩, text "examples" (by decide)⟩, ?_⟩
    intro v mem
    obtain ⟨e, inExtra, rfl⟩ := List.mem_map.mp mem
    obtain ⟨toldEntry, other⟩ := kept e inExtra
    exact toldEntry.storable fun isList => other (lists e.1 isList)
  case lists => exact forall_lists.mpr ⟨list "enum", list "enumNames", list "const"⟩
  case extraKeys => exact fun e mem => ⟨(kept e mem).1.label, (kept e mem).2⟩

end Field

/-! ## The lines of a block -/

namespace Header

variable {h : Header} {ps : List Line.Pair}

theorem mem_of_needed {key value : String} (read : needed key ps = .ok value) :
    (key, value) ∈ ps ∧ value ≠ "" := by
  unfold needed lastValue? at read
  split at read
  · cases read
  · next found =>
    split at read
    · cases read
    · next ne =>
      obtain rfl := Except.ok.inj read
      obtain ⟨pair, last, rfl⟩ := Option.map_eq_some_iff.mp found
      have same : pair.1 = key := by simpa using List.find?_some last
      exact ⟨same ▸ List.mem_reverse.mp (List.mem_of_find?_eq_some last), ne⟩

theorem stored_of_ofPairs (told : ∀ pair ∈ ps, IsTold pair) (read : ofPairs ps = .ok h) :
    h.Stored := by
  obtain ⟨id, readId, more⟩ := bind_eq_ok_iff.mp read
  obtain ⟨version, readVersion, rest⟩ := bind_eq_ok_iff.mp more
  obtain ⟨direction, -, same⟩ := bind_eq_ok_iff.mp rest
  obtain rfl := Except.ok.inj same
  obtain ⟨idMem, idNe⟩ := mem_of_needed readId
  obtain ⟨versionMem, versionNe⟩ := mem_of_needed readVersion
  exact ⟨idNe, versionNe, (told _ idMem).storable (by decide),
    (told _ versionMem).storable (by decide)⟩

end Header

namespace Line

/-- What holds of the entry of a line. -/
def Entry.Sound : Entry → Prop
  | .header h => h.Stored
  | .field f => f.Spoken

theorem exists_pairs_of_header {line : List Char} {h : Header}
    (read : Entry.ofChars line = .ok (.header h)) :
    ∃ ps, pairs line = .ok ps ∧ Header.ofPairs ps = .ok h := by
  obtain ⟨ps, readPairs, readEntry⟩ := bind_eq_ok_iff.mp read
  refine ⟨ps, readPairs, ?_⟩
  unfold Entry.ofPairs at readEntry
  split at readEntry
  · obtain ⟨header, readHeader, same⟩ := map_eq_ok_iff.mp readEntry
    exact Entry.header.inj same ▸ readHeader
  · obtain ⟨field, -, other⟩ := map_eq_ok_iff.mp readEntry
    cases other

theorem exists_pairs_of_field {line : List Char} {f : Field}
    (read : Entry.ofChars line = .ok (.field f)) :
    ∃ ps, pairs line = .ok ps ∧ Field.ofPairs ps = .ok f := by
  obtain ⟨ps, readPairs, readEntry⟩ := bind_eq_ok_iff.mp read
  refine ⟨ps, readPairs, ?_⟩
  unfold Entry.ofPairs at readEntry
  split at readEntry
  · obtain ⟨header, -, other⟩ := map_eq_ok_iff.mp readEntry
    cases other
  · obtain ⟨field, readField, same⟩ := map_eq_ok_iff.mp readEntry
    exact Entry.field.inj same ▸ readField

theorem Entry.sound_of_ofChars {line : List Char} {entry : Entry} (one : OneLine line)
    (read : ofChars line = .ok entry) : entry.Sound := by
  cases entry with
  | header h =>
    obtain ⟨ps, readPairs, readHeader⟩ := exists_pairs_of_header read
    exact Header.stored_of_ofPairs ((tells_of_pairs readPairs).isTold one) readHeader
  | field f =>
    obtain ⟨ps, readPairs, readField⟩ := exists_pairs_of_field read
    obtain ⟨rfl, -, fullname, binding⟩ := Field.ofPairs_eq_ok_iff.mp readField
    exact Field.Spoken.line ((tells_of_pairs readPairs).isTold one) fullname binding

end Line

namespace Shape

/-- What holds of every shape that is read. -/
structure Stored (s : Shape) : Prop where
  header : s.header.Stored
  fields : ∀ f ∈ s.fields, f.Stored s.header

theorem stored_of_parse {text : String} {s : Shape} (read : parse text = .ok s) : s.Stored := by
  obtain ⟨entries, declare, headers, fields⟩ := parse_eq_ok_iff.mp read
  have sound : ∀ entry ∈ entries, entry.Sound := fun entry mem => by
    obtain ⟨line, inText, readEntry⟩ := declare.exists_line entry mem
    exact Line.Entry.sound_of_ofChars (Text.oneLine_of_mem_solidLines inText) readEntry
  have stored : s.header.Stored := by
    have mem : s.header ∈ entries.filterMap Line.Entry.header? := by simp [headers]
    obtain ⟨entry, inEntries, isHeader⟩ := List.mem_filterMap.mp mem
    cases entry with
    | header h => exact Option.some.inj isHeader ▸ sound _ inEntries
    | field f => cases isHeader
  refine ⟨stored, fun f mem => ?_⟩
  rw [fields] at mem
  obtain ⟨g, declared, rfl⟩ := List.mem_map.mp mem
  obtain ⟨entry, inEntries, isField⟩ := List.mem_filterMap.mp declared
  cases entry with
  | header h => cases isField
  | field f =>
    have spoken : f.Spoken := sound _ inEntries
    exact (Option.some.inj isField ▸ spoken).stored stored.id

end Shape

end ShapeLines
