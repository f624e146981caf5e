import ShapeLines.Proofs.Shape.ReadField

/-!
# The fields of a text, line by line

Of the lines of a text that is read as a shape one is the header, and each other one that is not
blank gives one field, in the order of the lines. The texts of a field are trimmed, whatever way
they have come: as the value of a token, as a key alone or out of a list literal. At least one of its
bindings is written on its line; the other one is, too, or it is the implied one.
-/

namespace ShapeLines

open Text (Trimmed OneLine)
open Line (lastOf)

namespace Line

variable {line : List Char} {key value : String} {ps : List Pair}

/-- A token of the line gives `value` to `key`, and no other value is given to the key later. -/
structure Gives (line : List Char) (key value : String) : Prop where
  token : ∃ w t, w <:+: line ∧ tokens w = [t] ∧ pairOf (Text.trim t) = .ok (key, value)
  last : ∃ ps, pairs line = .ok ps ∧ lastOf key ps = some value
  trimmed : Trimmed value.toList

theorem gives_of_lastOf (one : OneLine line) (read : pairs line = .ok ps) (plain : key ∉ listKeys)
    (last : lastOf key ps = some value) : Gives line key value := by
  have tells := tells_of_pairs read
  have mem := mem_of_lastOf last
  exact ⟨tells.exists_token _ mem plain, ⟨ps, read, last⟩, (tells.isTold one _ mem).trimmed⟩

/-- A value that is not left out has been given. -/
theorem gives_of_ne (one : OneLine line) (read : pairs line = .ok ps) (plain : key ∉ listKeys)
    (ne : (lastOf key ps).getD "" ≠ "") : Gives line key ((lastOf key ps).getD "") := by
  cases last : lastOf key ps with
  | none => simp [last] at ne
  | some value => exact gives_of_lastOf one read plain last

end Line

open Line (Gives)

namespace Field

variable {id : String} {line : List Char} {f g : Field}

/-- What holds of a field that is read from `line` in a shape whose id is `id`. -/
structure FromLine (id : String) (line : List Char) (f : Field) : Prop where
  declared : ∃ g, Line.Entry.ofChars line = .ok (.field g) ∧ f = g.fillBindings id
  fullname : f.fullname ≠ ""
  src : f.src ≠ ""
  dst : f.dst ≠ ""
  given : Gives line "src" f.src ∨ Gives line "dst" f.dst
  srcText : Gives line "src" f.src ∨ f.src = impliedBinding id f.fullname
  dstText : Gives line "dst" f.dst ∨ f.dst = impliedBinding id f.fullname
  texts : ∀ t ∈ f.plainTexts, Trimmed t.toList
  lists : ∀ vs ∈ f.lists, ∀ v ∈ vs, Trimmed v.toList
  extraKeys : ∀ e ∈ f.extra.entries, e.1 ≠ "" ∧ Trimmed e.1.toList ∧ e.1 ∉ ownKeys

/-- A binding is filled in with what was given, or with the implied one. -/
theorem filled_cases {P : String → Prop} {given : String} (known : given ≠ "" → P given)
    (implied : String) :
    P (if given = "" then implied else given) ∨
      (if given = "" then implied else given) = implied := by
  split
  · exact .inr rfl
  · next some => exact .inl (known some)

theorem fromLine_of_ofChars (ne : id ≠ "") (one : OneLine line)
    (read : Line.Entry.ofChars line = .ok (.field g)) : FromLine id line (g.fillBindings id) := by
  have stored : (g.fillBindings id).Stored ⟨id, "", .convert⟩ :=
    Spoken.stored (h := ⟨id, "", .convert⟩) (Line.Entry.sound_of_ofChars one read) ne
  obtain ⟨ps, readPairs, readField⟩ := Line.exists_pairs_of_field read
  obtain ⟨same, -, -, binding⟩ := ofPairs_eq_ok_iff.mp readField
  have src : g.src ≠ "" → Gives line "src" g.src := by
    rw [same]
    exact Line.gives_of_ne one readPairs (by decide)
  have dst : g.dst ≠ "" → Gives line "dst" g.dst := by
    rw [same]
    exact Line.gives_of_ne one readPairs (by decide)
  refine ⟨⟨g, read, rfl⟩, stored.fullname, stored.src, stored.dst, ?_, filled_cases src _,
    filled_cases dst _, fun t mem => (stored.texts t mem).1, stored.lists, fun e mem => ?_⟩
  · show Gives line "src" (if _ then _ else _) ∨ Gives line "dst" (if _ then _ else _)
    by_cases empty : g.src = ""
    · have some : g.dst ≠ "" := fun none => binding ⟨empty, none⟩
      rw [if_neg some]
      exact .inr (dst some)
    · rw [if_neg empty]
      exact .inl (src empty)
  · obtain ⟨label, other⟩ := stored.extraKeys e mem
    exact ⟨by simpa using label.ne, label.trimmed, other⟩

end Field

namespace Shape

/-- Exactly one line that is not blank is the header, and the others give the fields in order. -/
theorem fields_fromLines {text : String} {s : Shape} (read : parse text = .ok s) :
    ∃ before line after, Text.solidLines text.toList = before ++ line :: after ∧
      Line.Entry.ofChars line = .ok (.header s.header) ∧
      (s.header.id ≠ "" ∧ Trimmed s.header.id.toList) ∧
      (s.header.version ≠ "" ∧ Trimmed s.header.version.toList) ∧
      List.Forall₂ (Field.FromLine s.header.id) (before ++ after) s.fields := by
  have stored := (stored_of_parse read).header
  obtain ⟨before, line, after, fields, lines, readHeader, declare, same⟩ := exists_around_header read
  refine ⟨before, line, after, lines, readHeader, ⟨stored.id, stored.idText.1⟩,
    ⟨stored.version, stored.versionText.1⟩, ?_⟩
  have one : ∀ l ∈ before ++ after, OneLine l := fun l mem =>
    Text.oneLine_of_mem_solidLines (s := text.toList) (by
      rw [lines]
      rcases List.mem_append.mp mem with front | back <;> simp [*])
  rw [same, List.forall₂_map_right_iff]
  exact ((List.forall₂_and_left _ _).mpr ⟨one, declare⟩).imp fun l f both =>
    Field.fromLine_of_ofChars stored.id both.1 both.2

/-- A text in which the header comes late, with lists that are no arrays, keys alone and escapes. -/
def laxText : String :=
  " fullname = a\\,b[].c ,src= x , enum = [' s ',\"l\"] , note, title= a=b \r\n" ++
    "\n id=P, version =v1 ,direction=out\nenum=[\" u \",2],fullname=q,dst,src=, const= w "

def laxShape : Shape where
  header := ⟨"P", "v1", .outbound⟩
  fields :=
    [{ fullname := "a,b[].c", enumValues := ["' s '", "l"], src := "x", dst := "P.a,b.#.c",
       extra := KeyMap.ofList [("note", "true"), ("title", "a=b")] },
     { fullname := "q", enumValues := ["u", "2"], constValues := ["w"], src := "P.q", dst := "true" }]

theorem fields_fromLines_lax : parse laxText = .ok laxShape ∧
    ∃ before line after, Text.solidLines laxText.toList = before ++ line :: after ∧
      Line.Entry.ofChars line = .ok (.header laxShape.header) ∧
      (laxShape.header.id ≠ "" ∧ Trimmed laxShape.header.id.toList) ∧
      (laxShape.header.version ≠ "" ∧ Trimmed laxShape.header.version.toList) ∧
      List.Forall₂ (Field.FromLine "P") (before ++ after) laxShape.fields := by
  have read : parse laxText = .ok laxShape := by decide +kernel
  exact ⟨read, fields_fromLines read⟩

end Shape

end ShapeLines
