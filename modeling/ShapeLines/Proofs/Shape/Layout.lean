import Mathlib.Logic.Relation
import ShapeLines.Proofs.Line.Relaid
import ShapeLines.Proofs.Shape.Entries

/-!
# The layout of a text

The result of reading a text does not depend on its layout: on how its lines end, on blank lines, on
blanks and keys alone that can be written otherwise, and on the place of the header. An edit leaves
the lines that are not blank as they are, or it changes the layout of one of them, or it moves the
header. In each case they still declare the same fields in the same order, and the same header.
-/

namespace ShapeLines

open Results (forall₂_append_left_iff)
open Text (Spacing OneLine solidLines)
open Line (Declare Entry LineRelaid)

namespace Text

variable {front back line b : List Char}

/-- A line starts behind the text. -/
def StartsLine (front : List Char) : Prop :=
  front = [] ∨ ∃ text, front = text ++ ['\n']

/-- A line ends before the text. -/
def EndsLine (back : List Char) : Prop :=
  back = [] ∨ (∃ text, back = '\n' :: text) ∨ ∃ text, back = '\r' :: '\n' :: text

def solidOf (ls : List (List Char)) : List (List Char) :=
  (ls.map trim).filter (· ≠ [])

theorem solidOf_append (ls ls' : List (List Char)) :
    solidOf (ls ++ ls') = solidOf ls ++ solidOf ls' := by
  rw [solidOf, List.map_append, List.filter_append]
  rfl

theorem solidLines_eq (s : List Char) : solidLines s = solidOf (lines s) := rfl

@[simp] theorem solidLines_nil : solidLines [] = [] := rfl

theorem solidLines_append_spacing (spacing : Spacing b) (s : List Char) :
    solidLines (s ++ b) = solidLines s := by
  induction s using feedInduction with
  | one s one =>
    rw [solidLines_of_oneLine (one.append spacing.oneLine), solidLines_of_oneLine one,
      spacing.blank.append_trim]
  | feed front back _ ih =>
    rw [List.append_assoc, List.cons_append, solidLines_append_feed, solidLines_append_feed, ih]

theorem solidLines_spacing (spacing : Spacing b) : solidLines b = [] :=
  solidLines_append_spacing spacing []

/-- The carriage return before a line feed is a blank at the end of the line. -/
theorem solidLines_append_return (s t : List Char) :
    solidLines (s ++ '\r' :: '\n' :: t) = solidLines s ++ solidLines t := by
  have parts : s ++ '\r' :: '\n' :: t = (s ++ ['\r']) ++ '\n' :: t := by simp
  rw [parts, solidLines_append_feed, solidLines_append_spacing (by decide)]

theorem StartsLine.solidLines_append (starts : StartsLine front) (s : List Char) :
    solidLines (front ++ s) = solidLines front ++ solidLines s := by
  rcases starts with rfl | ⟨text, rfl⟩
  · rfl
  · rw [List.append_assoc, List.singleton_append, solidLines_append_feed, solidLines_append_feed,
      solidLines_nil, List.append_nil]

theorem EndsLine.solidLines_append (ends : EndsLine back) (s : List Char) :
    solidLines (s ++ back) = solidLines s ++ solidLines back := by
  rcases ends with rfl | ⟨text, rfl⟩ | ⟨text, rfl⟩
  · simp
  · rw [solidLines_append_feed]
    exact congrArg _ (solidLines_append_feed [] text).symm
  · rw [solidLines_append_return]
    exact congrArg _ (solidLines_append_return [] text).symm

end Text

open Text (StartsLine EndsLine)

namespace Shape

/-- The edits that leave what a text says. -/
inductive Relaid : List Char → List Char → Prop
  /-- A line may end in a carriage return and a line feed. -/
  | feed (front back : List Char) : Relaid (front ++ '\n' :: back) (front ++ '\r' :: '\n' :: back)
  | blankBefore {front b : List Char} (starts : StartsLine front) (spacing : Spacing b)
      (back : List Char) : Relaid (front ++ back) (front ++ (b ++ '\n' :: back))
  | blankBehind {b : List Char} (text : List Char) (spacing : Spacing b) :
      Relaid text (text ++ '\n' :: b)
  | line {front back line line' : List Char} (starts : StartsLine front) (one : OneLine line)
      (relaid : LineRelaid line line') (ends : EndsLine back) :
      Relaid (front ++ (line ++ back)) (front ++ (line' ++ back))
  /-- The header may stand anywhere among the other lines. -/
  | header {text text' line : List Char} {front back front' back' : List (List Char)}
      (header : ∃ h, Entry.ofChars (Text.trim line) = .ok (.header h))
      (cut : Text.lines text = front ++ line :: back)
      (moved : Text.lines text' = front' ++ line :: back')
      (others : front' ++ back' = front ++ back) : Relaid text text'

end Shape

namespace Line

variable {line line' : List Char} {entries : List Entry}

/-- What a line declares if it is not blank, it declares in any layout. -/
theorem LineRelaid.declare (relaid : LineRelaid line line') (one : OneLine line)
    (declare : Declare (solidLines line) entries) : Declare (solidLines line') entries := by
  rw [Text.solidLines_of_oneLine one] at declare
  rw [Text.solidLines_of_oneLine (relaid.oneLine one)]
  by_cases blank : Text.trim line = []
  · have blank' := Text.trim_eq_nil_iff.mpr (relaid.blank (Text.trim_eq_nil_iff.mp blank))
    rw [blank] at declare
    rw [blank']
    exact declare
  · rw [List.filter_cons_of_pos (by simpa using blank)] at declare
    obtain ⟨entry, rest, read, none, rfl⟩ := List.forall₂_cons_left_iff.mp declare
    have read' := relaid.ofChars_eq_ok_iff.mp read
    have solid : Text.trim line' ≠ [] := by
      intro empty
      have nothing : Entry.ofChars [] = .error .missingFullname := by decide +kernel
      rw [empty, nothing] at read'
      cases read'
    rw [List.filter_cons_of_pos (by simpa using solid)]
    exact .cons read' none

end Line

namespace Shape

variable {t t' : List Char} {entries : List Entry}

/-- Wherever the header stands, the others declare the same fields in the same order. -/
theorem declare_moved {line : List Char} {front back front' back' : List (List Char)} {h : Header}
    (readHeader : Entry.ofChars (Text.trim line) = .ok (.header h))
    (others : front' ++ back' = front ++ back)
    (declare : Declare (Text.solidOf (front ++ line :: back)) entries) :
    ∃ entries', Declare (Text.solidOf (front' ++ line :: back')) entries' ∧
      entries'.Perm entries ∧
      entries'.filterMap Entry.field? = entries.filterMap Entry.field? := by
  have parts (lines lines' : List (List Char)) : Text.solidOf (lines ++ line :: lines') =
      Text.solidOf lines ++ (Text.solidOf [line] ++ Text.solidOf lines') := by
    rw [← Text.solidOf_append, ← Text.solidOf_append, List.singleton_append]
  rw [parts] at declare
  obtain ⟨before, rest, rfl, declareBefore, declareRest⟩ := forall₂_append_left_iff.mp declare
  obtain ⟨own, after, rfl, declareOwn, declareAfter⟩ := forall₂_append_left_iff.mp declareRest
  have declareOthers : Declare (Text.solidOf (front' ++ back')) (before ++ after) := by
    rw [others, Text.solidOf_append]
    exact List.rel_append declareBefore declareAfter
  rw [Text.solidOf_append] at declareOthers
  obtain ⟨before', after', whole, declareBefore', declareAfter'⟩ :=
    forall₂_append_left_iff.mp declareOthers
  have noField : own.filterMap Entry.field? = [] := by
    refine List.filterMap_eq_nil_iff.mpr fun entry mem => ?_
    obtain ⟨line', inLine, read⟩ := Declare.exists_line declareOwn entry mem
    obtain rfl := List.mem_singleton.mp (List.mem_of_mem_filter inLine)
    obtain rfl := Except.ok.inj (read.symm.trans readHeader)
    rfl
  refine ⟨before' ++ (own ++ after'), ?_, ?_, ?_⟩
  · rw [parts]
    exact List.rel_append declareBefore' (List.rel_append declareOwn declareAfter')
  · have front : (before' ++ (own ++ after')).Perm (own ++ (before ++ after)) := by
      rw [whole]
      exact List.perm_append_comm_assoc before' own after'
    exact front.trans (List.perm_append_comm_assoc own before after)
  · simp only [List.filterMap_append, noField, List.nil_append]
    rw [← List.filterMap_append, ← List.filterMap_append, whole]

/-- An edit leaves the fields in order, and whatever headers there are. -/
theorem Relaid.declare (relaid : Relaid t t') (declare : Declare (solidLines t) entries) :
    ∃ entries', Declare (solidLines t') entries' ∧ entries'.Perm entries ∧
      entries'.filterMap Entry.field? = entries.filterMap Entry.field? := by
  have same (lines : solidLines t' = solidLines t) :
      ∃ entries', Declare (solidLines t') entries' ∧ entries'.Perm entries ∧
        entries'.filterMap Entry.field? = entries.filterMap Entry.field? :=
    ⟨entries, lines ▸ declare, .refl entries, rfl⟩
  cases relaid with
  | feed front back =>
    exact same (by rw [Text.solidLines_append_return, Text.solidLines_append_feed])
  | blankBefore starts spacing back =>
    refine same ?_
    rw [starts.solidLines_append, starts.solidLines_append, Text.solidLines_append_feed,
      Text.solidLines_spacing spacing, List.nil_append]
  | blankBehind _ spacing =>
    refine same ?_
    rw [Text.solidLines_append_feed, Text.solidLines_spacing spacing, List.append_nil]
  | line starts one relaid ends =>
    rw [starts.solidLines_append, ends.solidLines_append] at declare
    obtain ⟨before, rest, rfl, declareBefore, declareRest⟩ := forall₂_append_left_iff.mp declare
    obtain ⟨own, after, rfl, declareOwn, declareAfter⟩ := forall₂_append_left_iff.mp declareRest
    refine ⟨before ++ (own ++ after), ?_, .refl _, rfl⟩
    rw [starts.solidLines_append, ends.solidLines_append]
    exact List.rel_append declareBefore
      (List.rel_append (relaid.declare one declareOwn) declareAfter)
  | header header cut moved others =>
    obtain ⟨h, readHeader⟩ := header
    rw [Text.solidLines_eq, cut] at declare
    rw [Text.solidLines_eq, moved]
    exact declare_moved readHeader others declare

theorem Relaid.parse_eq_ok {s : Shape} (relaid : Relaid t t')
    (read : parse (String.ofList t) = .ok s) : parse (String.ofList t') = .ok s := by
  rw [parse_eq_ok_iff, String.toList_ofList] at read ⊢
  obtain ⟨entries, declare, headers, fields⟩ := read
  obtain ⟨entries', declare', reordered, sameFields⟩ := relaid.declare declare
  refine ⟨entries', declare', ?_, by rw [fields, sameFields]⟩
  have perm := reordered.filterMap Entry.header?
  rw [headers] at perm
  exact List.perm_singleton.mp perm

/-- However a text that is read as a shape is laid out anew, it is read as the same shape. -/
theorem parse_relaid {text text' : String} {s : Shape} (read : parse text = .ok s)
    (relaid : Relation.ReflTransGen Relaid text.toList text'.toList) : parse text' = .ok s := by
  have steps {t : List Char} (relaid : Relation.ReflTransGen Relaid text.toList t) :
      parse (String.ofList t) = .ok s := by
    induction relaid with
    | refl => rwa [String.ofList_toList]
    | tail _ last ih => exact last.parse_eq_ok ih
  have final := steps relaid
  rwa [String.ofList_toList] at final

/-- Three lines, the last one with a list literal. -/
def tightText : String :=
  "id=P,version=v,direction=in\nfullname=a\\,b,src=x,required\nfullname=q,dst=y,enum=[\"u,v\"]"

/-- The same text with the header on the second line, blank lines, a carriage return, blanks around
`=` and a flag that is written out. -/
def looseText : String :=
  " \t\nfullname =\ta\\,b,src=x,required=true\r\nid=P,version=v,direction=in\n" ++
    "fullname=q,dst=y,enum=[\"u,v\"]\n\u3000"

def tightShape : Shape where
  header := ⟨"P", "v", .inbound⟩
  fields :=
    [{ fullname := "a,b", required := true, src := "x", dst := "P.a,b" },
     { fullname := "q", enumValues := ["u,v"], src := "P.q", dst := "y" }]

theorem parse_relaid_loose : parse tightText = .ok tightShape ∧
    Relation.ReflTransGen Relaid tightText.toList looseText.toList ∧
    parse looseText = .ok tightShape := by
  have read : parse tightText = .ok tightShape := by decide +kernel
  let first := "fullname=a\\,b,src=x,required".toList
  let flagged := "fullname=a\\,b,src=x,required=true".toList
  let spaced := "fullname =\ta\\,b,src=x,required=true".toList
  let header := "id=P,version=v,direction=in".toList
  let last := "fullname=q,dst=y,enum=[\"u,v\"]".toList
  let rest := header ++ '\n' :: last
  have moved : Relaid tightText.toList (first ++ '\n' :: rest) :=
    @Relaid.header _ _ header [] [first, last] [first] [last]
      ⟨⟨"P", "v", .inbound⟩, by decide +kernel⟩ (by decide +kernel) (by decide +kernel) rfl
  have flag : LineRelaid first flagged :=
    @LineRelaid.piece _ _ _ _ ["fullname=a\\,b".toList, "src=x".toList] [] (by decide +kernel)
      (by decide +kernel) (@Line.PieceRelaid.flag "required".toList [] (by decide +kernel)
        (by decide +kernel) (by decide)) (by decide +kernel)
  have equals : LineRelaid flagged spaced :=
    @LineRelaid.piece _ _ _ _ [] ["src=x".toList, "required=true".toList] (by decide +kernel)
      (by decide +kernel) (@Line.PieceRelaid.equals "fullname".toList "a\\,b".toList [' '] ['\t']
        (by decide +kernel) (by decide +kernel) (by decide +kernel)) (by decide +kernel)
  have ends : EndsLine ('\n' :: rest) := .inr (.inl ⟨rest, rfl⟩)
  have withFlag : Relaid (first ++ '\n' :: rest) (flagged ++ '\n' :: rest) :=
    .line (.inl rfl) (by decide +kernel) flag ends
  have withBlanks : Relaid (flagged ++ '\n' :: rest) (spaced ++ '\n' :: rest) :=
    .line (.inl rfl) (by decide +kernel) equals ends
  have withReturn := Relaid.feed spaced rest
  have withBlankLine : Relaid (spaced ++ '\r' :: '\n' :: rest)
      (" \t".toList ++ '\n' :: (spaced ++ '\r' :: '\n' :: rest)) :=
    @Relaid.blankBefore [] " \t".toList (.inl rfl) (by decide) _
  have withBlankEnd : Relaid (" \t".toList ++ '\n' :: (spaced ++ '\r' :: '\n' :: rest))
      looseText.toList := by
    have whole : looseText.toList =
        (" \t".toList ++ '\n' :: (spaced ++ '\r' :: '\n' :: rest)) ++ '\n' :: ['\u3000'] := by
      decide +kernel
    rw [whole]
    exact .blankBehind _ (by decide)
  have chain : Relation.ReflTransGen Relaid tightText.toList looseText.toList :=
    (((((Relation.ReflTransGen.single moved).tail withFlag).tail withBlanks).tail withReturn).tail
      withBlankLine).tail withBlankEnd
  exact ⟨read, chain, parse_relaid read chain⟩

end Shape

end ShapeLines
