import ShapeLines.Proofs.Json.Brackets
import ShapeLines.Proofs.Json.QuotedText
import ShapeLines.Proofs.KeyMap

/-!
# Values and their texts

A value is read back from its text if it is in canonical form, is nested no deeper than the reader
follows, and has only numbers that are read back. Whatever is read is in canonical form and nested
no deeper than that. Words are where the text of a token can run into the next one: a number or a
literal is always followed by a mark or by nothing, which ends it.
-/

namespace ShapeLines

theorem Entries.insert_eq_concat {α : Type} {key : String} {l : List (String × α)} (value : α)
    (above : ∀ e ∈ l, e.1 < key) : insert key value l = l ++ [(key, value)] := by
  induction l with
  | nil => rfl
  | cons e rest ih =>
    have lt := above e List.mem_cons_self
    have notBelow : ¬ key < e.1 := fun gt => String.lt_irrefl _ (String.lt_trans lt gt)
    have ne : key ≠ e.1 := by
      intro eq
      rw [eq] at lt
      exact String.lt_irrefl _ lt
    rw [insert, if_neg notBelow, if_neg ne, ih fun d mem => above d (List.mem_cons_of_mem _ mem)]
    rfl

namespace Json

mutual

/-- How many arrays and objects stand one in the other at most. -/
def depth : Json → Nat
  | .arr elements => elementsDepth elements + 1
  | .obj members => membersDepth members + 1
  | _ => 0

def elementsDepth : List Json → Nat
  | [] => 0
  | v :: rest => max (depth v) (elementsDepth rest)

def membersDepth : List (String × Json) → Nat
  | [] => 0
  | (_, v) :: rest => max (depth v) (membersDepth rest)

end

mutual

def numbers : Json → List Number
  | .num n => [n]
  | .arr elements => elementNumbers elements
  | .obj members => memberNumbers members
  | _ => []

def elementNumbers : List Json → List Number
  | [] => []
  | v :: rest => numbers v ++ elementNumbers rest

def memberNumbers : List (String × Json) → List Number
  | [] => []
  | (_, v) :: rest => numbers v ++ memberNumbers rest

end

/-- The number is read back from its text. -/
def Number.ReadsBack (n : Number) : Prop :=
  parse? (Json.num n).text = some (.num n)

variable {v w : Json} {elements : List Json} {members : List (String × Json)} {k : Nat}

theorem canonicalElements_iff : CanonicalElements elements ↔ ∀ v ∈ elements, Canonical v := by
  induction elements with
  | nil => simp [CanonicalElements]
  | cons v rest ih => simp [CanonicalElements, ih]

theorem canonicalMembers_iff : CanonicalMembers members ↔ ∀ e ∈ members, Canonical e.2 := by
  induction members with
  | nil => simp [CanonicalMembers]
  | cons e rest ih => simp [CanonicalMembers, ih]

theorem elementsDepth_le_iff : elementsDepth elements ≤ k ↔ ∀ v ∈ elements, v.depth ≤ k := by
  induction elements with
  | nil => simp [elementsDepth]
  | cons v rest ih => rw [elementsDepth, Nat.max_le, ih, List.forall_mem_cons]

theorem membersDepth_le_iff : membersDepth members ≤ k ↔ ∀ e ∈ members, e.2.depth ≤ k := by
  induction members with
  | nil => simp [membersDepth]
  | cons e rest ih => rw [membersDepth, Nat.max_le, ih, List.forall_mem_cons]

/-! ## Words end where a mark begins -/

/-- Text that can stand behind any token: nothing, or a mark. -/
def StartsMarked (rest : List Char) : Prop :=
  rest = [] ∨ ∃ m tail, rest = Mark.char m :: tail

theorem startsMarked_mark (m : Mark) (tail : List Char) :
    StartsMarked ((Token.mark m).text ++ tail) :=
  .inr ⟨m, tail, rfl⟩

namespace Lexeme

theorem isWordChar_mark (m : Mark) : isWordChar m.char = false := by
  cases m <;> decide

/-- What has been scanned stays if the text goes on with a mark. -/
theorem scan?_append {mode : Mode} {word rest : List Char} {ls : List Lexeme}
    (scanned : scan? mode word = some ls) (marked : StartsMarked rest) :
    scan? mode (word ++ rest) = (scan? .between rest).map (ls ++ ·) := by
  induction word generalizing mode ls with
  | nil =>
    cases mode with
    | between =>
      cases scanned
      simp
    | inWord done =>
      cases scanned
      rcases marked with rfl | ⟨m, tail, rfl⟩
      · rfl
      · have ended : step (.inWord done) m.char =
            (.word done.reverse :: (start m.char).1, (start m.char).2) := by
          rw [step, isWordChar_mark]
          rfl
        rw [List.nil_append, scan?, scan?, ended, Option.map_map]
        rfl
    | inQuotes => cases scanned
    | escaped => cases scanned
  | cons c word ih =>
    rw [scan?] at scanned
    obtain ⟨others, scannedRest, rfl⟩ := Option.map_eq_some_iff.mp scanned
    rw [List.cons_append, scan?, ih scannedRest, Option.map_map]
    simp [Function.comp_def]

end Lexeme

namespace Token

variable {t : Token} {rest : List Char}

/-- A token that is read from its own text is read before a mark. -/
theorem ofText?_append (alone : ofText? t.text = some [t]) (marked : StartsMarked rest) :
    ofText? (t.text ++ rest) = (ofText? rest).map (t :: ·) := by
  obtain ⟨ls, scanned, read⟩ := Option.bind_eq_some_iff.mp alone
  rw [ofText?, Lexeme.scan?_append scanned marked, ofText?]
  cases Lexeme.scan? .between rest with
  | none => rfl
  | some others =>
    rw [Option.map_some, Option.bind_some, Option.bind_some, List.mapM_append, read]
    cases others.mapM ofLexeme? <;> rfl

theorem ofText?_of_standsAlone (alone : t.standsAlone) (rest : List Char) :
    ofText? (t.text ++ rest) = (ofText? rest).map (t :: ·) := by
  obtain ⟨l, scanned, read⟩ := scan?_text alone rest
  rw [ofText?, scanned, ofText?]
  cases Lexeme.scan? .between rest with
  | none => rfl
  | some others =>
    rw [Option.map_some, Option.bind_some, Option.bind_some, List.mapM_cons, read]
    cases others.mapM ofLexeme? <;> rfl

theorem ofText?_mark (m : Mark) (rest : List Char) :
    ofText? ((Token.mark m).text ++ rest) = (ofText? rest).map (.mark m :: ·) :=
  ofText?_of_standsAlone rfl rest

theorem ofText?_str (s : String) (rest : List Char) :
    ofText? ((Token.str s).text ++ rest) = (ofText? rest).map (.str s :: ·) :=
  ofText?_of_standsAlone rfl rest

end Token

/-! ## The tokens of a value -/

section

variable {rest : List Char}

theorem startsMarked_moreElements (elements : List Json) (rest : List Char) :
    StartsMarked ((moreElements elements).flatMap Token.text ++ rest) := by
  cases elements with
  | nil => exact startsMarked_mark .closeArray rest
  | cons v elements =>
    rw [moreElements, List.flatMap_cons, List.append_assoc]
    exact startsMarked_mark .comma _

theorem startsMarked_moreMembers (members : List (String × Json)) (rest : List Char) :
    StartsMarked ((moreMembers members).flatMap Token.text ++ rest) := by
  cases members with
  | nil => exact startsMarked_mark .closeObject rest
  | cons e members =>
    rw [moreMembers, List.flatMap_cons, List.append_assoc]
    exact startsMarked_mark .comma _

mutual

theorem ofText?_tokens : ∀ {v : Json} {rest : List Char},
    (∀ n ∈ v.numbers, Token.ofText? n.text = some [.num n]) → StartsMarked rest →
      Token.ofText? (v.tokens.flatMap Token.text ++ rest) =
        (Token.ofText? rest).map (v.tokens ++ ·)
  | .null, rest, _, marked => by
    simpa [tokens] using Token.ofText?_append (t := .null) rfl marked
  | .bool b, rest, _, marked => by
    have alone : Token.ofText? (Token.bool b).text = some [.bool b] := by cases b <;> rfl
    simpa [tokens] using Token.ofText?_append alone marked
  | .num n, rest, read, marked => by
    have alone := read n (by simp [numbers])
    simpa [tokens] using Token.ofText?_append (t := .num n) alone marked
  | .str s, rest, _, _ => by
    simpa [tokens] using Token.ofText?_str s rest
  | .arr [], rest, _, _ => by
    simp [tokens, Token.ofText?_mark, Option.map_map, Function.comp_def]
  | .arr (v :: elements), rest, read, _ => by
    have first := ofText?_tokens (v := v)
      (fun n mem => read n (by simp [numbers, elementNumbers, mem]))
      (startsMarked_moreElements elements rest)
    have others := @ofText?_moreElements elements rest
      (fun n mem => read n (by simp [numbers, elementNumbers, mem]))
    simp [tokens, Token.ofText?_mark, first, others, Option.map_map, Function.comp_def]
  | .obj [], rest, _, _ => by
    simp [tokens, Token.ofText?_mark, Option.map_map, Function.comp_def]
  | .obj ((key, v) :: members), rest, read, marked => by
    have first := ofText?_tokens (v := v)
      (fun n mem => read n (by simp [numbers, memberNumbers, mem]))
      (startsMarked_moreMembers members rest)
    have others := @ofText?_moreMembers members rest
      (fun n mem => read n (by simp [numbers, memberNumbers, mem]))
    simp [tokens, Token.ofText?_mark, Token.ofText?_str, first, others, Option.map_map,
      Function.comp_def]

theorem ofText?_moreElements : ∀ {elements : List Json} {rest : List Char},
    (∀ n ∈ elementNumbers elements, Token.ofText? n.text = some [.num n]) →
      Token.ofText? ((moreElements elements).flatMap Token.text ++ rest) =
        (Token.ofText? rest).map (moreElements elements ++ ·)
  | [], rest, _ => by
    simp [moreElements, Token.ofText?_mark]
  | v :: elements, rest, read => by
    have first := ofText?_tokens (v := v) (fun n mem => read n (by simp [elementNumbers, mem]))
      (startsMarked_moreElements elements rest)
    have others := @ofText?_moreElements elements rest
      (fun n mem => read n (by simp [elementNumbers, mem]))
    simp [moreElements, Token.ofText?_mark, first, others, Option.map_map, Function.comp_def]

theorem ofText?_moreMembers : ∀ {members : List (String × Json)} {rest : List Char},
    (∀ n ∈ memberNumbers members, Token.ofText? n.text = some [.num n]) →
      Token.ofText? ((moreMembers members).flatMap Token.text ++ rest) =
        (Token.ofText? rest).map (moreMembers members ++ ·)
  | [], rest, _ => by
    simp [moreMembers, Token.ofText?_mark]
  | (key, v) :: members, rest, read => by
    have first := ofText?_tokens (v := v) (fun n mem => read n (by simp [memberNumbers, mem]))
      (startsMarked_moreMembers members rest)
    have others := @ofText?_moreMembers members rest
      (fun n mem => read n (by simp [memberNumbers, mem]))
    simp [moreMembers, Token.ofText?_mark, Token.ofText?_str, first, others, Option.map_map,
      Function.comp_def]

end

end

/-! ## Reading the tokens of a value -/

section

variable {frames : List Frame} {rest : List Token}

theorem value?_openArray (room : frames.length < depthLimit)
    (open' : ∀ tail, rest ≠ .mark .closeArray :: tail) :
    value? frames (.mark .openArray :: rest) = value? (.array [] :: frames) rest := by
  rw [value?, if_pos room]
  exact fun tail eq => open' tail eq

theorem tokens_ne_closeArray (v : Json) (rest tail : List Token) :
    v.tokens ++ rest ≠ .mark .closeArray :: tail := by
  intro eq
  match v with
  | .null | .bool _ | .num _ | .str _ => simp [tokens] at eq
  | .arr [] | .arr (_ :: _) | .obj [] | .obj (_ :: _) => simp [tokens] at eq

mutual

theorem value?_tokens : ∀ {v : Json} {frames : List Frame} {rest : List Token}, v.Canonical →
    frames.length + v.depth ≤ depthLimit →
      value? frames (v.tokens ++ rest) = resume? frames v rest
  | .null, _, _, _, _ => by simp [tokens, value?]
  | .bool b, _, _, _, _ => by simp [tokens, value?]
  | .num n, _, _, _, _ => by simp [tokens, value?]
  | .str s, _, _, _, _ => by simp [tokens, value?]
  | .arr [], frames, rest, _, room => by
    have open' : frames.length < depthLimit := by
      rw [depth] at room
      omega
    simp [tokens, value?, open']
  | .arr (v :: elements), frames, rest, canonical, room => by
    rw [Canonical, CanonicalElements] at canonical
    rw [depth, elementsDepth] at room
    calc
      value? frames ((Json.arr (v :: elements)).tokens ++ rest)
        = value? (.array [] :: frames) (v.tokens ++ (moreElements elements ++ rest)) := by
          rw [tokens, List.cons_append, List.append_assoc,
            value?_openArray (by omega) fun tail => tokens_ne_closeArray v _ tail]
      _ = resume? (.array [] :: frames) v (moreElements elements ++ rest) :=
          value?_tokens canonical.1 (by rw [List.length_cons]; omega)
      _ = resume? frames (.arr (v :: elements)) rest :=
          resume?_moreElements canonical.2 (by omega)
  | .obj [], frames, rest, _, room => by
    have open' : frames.length < depthLimit := by
      rw [depth] at room
      omega
    simp [tokens, value?, open']
  | .obj ((key, v) :: members), frames, rest, canonical, room => by
    rw [Canonical, CanonicalMembers] at canonical
    rw [depth, membersDepth] at room
    have open' : frames.length < depthLimit := by omega
    calc
      value? frames ((Json.obj ((key, v) :: members)).tokens ++ rest)
        = value? (.object [] key :: frames) (v.tokens ++ (moreMembers members ++ rest)) := by
          simp [tokens, value?, open']
      _ = resume? (.object [] key :: frames) v (moreMembers members ++ rest) :=
          value?_tokens canonical.2.1 (by rw [List.length_cons]; omega)
      _ = resume? frames (.obj ((key, v) :: members)) rest :=
          resume?_moreMembers canonical.2.2 canonical.1 (by omega)

/-- What is read after an element, up to the bracket that closes the array. -/
theorem resume?_moreElements : ∀ {elements done : List Json} {v : Json} {frames : List Frame}
    {rest : List Token}, CanonicalElements elements →
    frames.length + (elementsDepth elements + 1) ≤ depthLimit →
      resume? (.array done :: frames) v (moreElements elements ++ rest) =
        resume? frames (.arr (done.reverse ++ v :: elements)) rest
  | [], done, v, frames, rest, _, _ => by simp [moreElements, resume?]
  | u :: elements, done, v, frames, rest, canonical, room => by
    rw [CanonicalElements] at canonical
    rw [elementsDepth] at room
    calc
      resume? (.array done :: frames) v (moreElements (u :: elements) ++ rest)
        = value? (.array (v :: done) :: frames) (u.tokens ++ (moreElements elements ++ rest)) := by
          simp [moreElements, resume?]
      _ = resume? (.array (v :: done) :: frames) u (moreElements elements ++ rest) :=
          value?_tokens canonical.1 (by rw [List.length_cons]; omega)
      _ = resume? frames (.arr ((v :: done).reverse ++ u :: elements)) rest :=
          resume?_moreElements canonical.2 (by omega)
      _ = resume? frames (.arr (done.reverse ++ v :: u :: elements)) rest := by simp

/-- What is read after a member, up to the brace that closes the object. -/
theorem resume?_moreMembers : ∀ {members done : List (String × Json)} {key : String} {v : Json}
    {frames : List Frame} {rest : List Token}, CanonicalMembers members →
    Entries.Ascending (done ++ (key, v) :: members) →
    frames.length + (membersDepth members + 1) ≤ depthLimit →
      resume? (.object done key :: frames) v (moreMembers members ++ rest) =
        resume? frames (.obj (done ++ (key, v) :: members)) rest
  | [], done, key, v, frames, rest, _, ascending, _ => by
    have last := Entries.insert_eq_concat v fun e mem =>
      (List.pairwise_append.mp ascending).2.2 e mem (key, v) List.mem_cons_self
    simp [moreMembers, resume?, last]
  | (next, u) :: members, done, key, v, frames, rest, canonical, ascending, room => by
    rw [CanonicalMembers] at canonical
    rw [membersDepth] at room
    have last := Entries.insert_eq_concat v fun e mem =>
      (List.pairwise_append.mp ascending).2.2 e mem (key, v) List.mem_cons_self
    calc
      resume? (.object done key :: frames) v (moreMembers ((next, u) :: members) ++ rest)
        = value? (.object (done ++ [(key, v)]) next :: frames)
            (u.tokens ++ (moreMembers members ++ rest)) := by
          simp [moreMembers, resume?, last]
      _ = resume? (.object (done ++ [(key, v)]) next :: frames) u (moreMembers members ++ rest) :=
          value?_tokens canonical.1 (by rw [List.length_cons]; omega)
      _ = resume? frames (.obj (done ++ [(key, v)] ++ (next, u) :: members)) rest :=
          resume?_moreMembers canonical.2 (by simpa using ascending) (by omega)
      _ = resume? frames (.obj (done ++ (key, v) :: (next, u) :: members)) rest := by simp

end

end

/-! ## What is read -/

/-- What has been read inside a frame is in canonical form, and not too deep for the frames around.
-/
def Frame.Fits (around : Nat) : Frame → Prop
  | .array done => CanonicalElements done ∧ around + (elementsDepth done + 1) ≤ depthLimit
  | .object members _ => Entries.Ascending members ∧ CanonicalMembers members ∧
      around + (membersDepth members + 1) ≤ depthLimit

def FramesFit : List Frame → Prop
  | [] => True
  | f :: frames => f.Fits frames.length ∧ FramesFit frames

/-- A value is in canonical form and not too deep for the frames around. -/
structure Fits (v : Json) (frames : List Frame) : Prop where
  canonical : v.Canonical
  shallow : frames.length + v.depth ≤ depthLimit

/-- A value that is read inside frames is as it should be, and holds something if there are any. -/
structure ReadInside (frames : List Frame) (w : Json) : Prop where
  fits : w.Fits []
  holds : frames ≠ [] → w.depth ≠ 0

variable {frames next : List Frame} {ts : List Token} {key : String}

theorem ReadInside.of_inner (inside : ReadInside next w) (ne : next ≠ []) : ReadInside frames w :=
  ⟨inside.fits, fun _ => inside.holds ne⟩

theorem fits_leaf (room : frames.length ≤ depthLimit) (canonical : v.Canonical)
    (leaf : v.depth = 0) : v.Fits frames :=
  ⟨canonical, by omega⟩

theorem FramesFit.length_le (fit : FramesFit frames) : frames.length ≤ depthLimit := by
  cases frames with
  | nil => exact Nat.zero_le _
  | cons f frames =>
    obtain ⟨here, -⟩ := fit
    rw [List.length_cons]
    cases f with
    | array done =>
      have room := here.2
      omega
    | object members key =>
      have room := here.2.2
      omega

theorem canonical_arr (canonical : CanonicalElements elements) : Canonical (.arr elements) := by
  rwa [Canonical]

theorem canonical_obj (ascending : Entries.Ascending members)
    (canonical : CanonicalMembers members) : Canonical (.obj members) := by
  rw [Canonical]
  exact ⟨ascending, canonical⟩

theorem fits_push {done : List Json} (fit : FramesFit (.array done :: frames))
    (fits : v.Fits (.array done :: frames)) : FramesFit (.array (v :: done) :: frames) := by
  obtain ⟨⟨canonical, room⟩, outer⟩ := fit
  obtain ⟨canonical', room'⟩ := fits
  refine ⟨⟨?_, ?_⟩, outer⟩
  · rw [CanonicalElements]
    exact ⟨canonical', canonical⟩
  · rw [elementsDepth]
    rw [List.length_cons] at room'
    omega

theorem fits_insert (fit : FramesFit (.object members key :: frames))
    (fits : v.Fits (.object members key :: frames)) (next : String) :
    FramesFit (.object (Entries.insert key v members) next :: frames) := by
  obtain ⟨⟨ascending, canonical, room⟩, outer⟩ := fit
  obtain ⟨canonical', room'⟩ := fits
  rw [List.length_cons] at room'
  refine ⟨⟨ascending.insert key v, ?_, ?_⟩, outer⟩
  · rw [canonicalMembers_iff] at canonical ⊢
    intro e mem
    rcases Entries.mem_insert mem with rfl | old
    · exact canonical'
    · exact canonical e old
  · have deepest : membersDepth (Entries.insert key v members) ≤
        max v.depth (membersDepth members) := by
      rw [membersDepth_le_iff]
      intro e mem
      rcases Entries.mem_insert mem with rfl | old
      · exact Nat.le_max_left ..
      · exact Nat.le_trans (membersDepth_le_iff.mp (Nat.le_refl _) e old) (Nat.le_max_right ..)
    omega

theorem fits_close_array {done : List Json} (fit : FramesFit (.array done :: frames)) :
    (Json.arr done.reverse).Fits frames := by
  obtain ⟨⟨canonical, room⟩, -⟩ := fit
  have same : elementsDepth done.reverse ≤ elementsDepth done := by
    rw [elementsDepth_le_iff]
    intro u mem
    exact elementsDepth_le_iff.mp (Nat.le_refl _) u (List.mem_reverse.mp mem)
  refine ⟨canonical_arr ?_, ?_⟩
  · rw [canonicalElements_iff] at canonical ⊢
    exact fun u mem => canonical u (List.mem_reverse.mp mem)
  · rw [depth]
    omega

theorem fits_close_object (fit : FramesFit (.object members key :: frames)) :
    (Json.obj members).Fits frames := by
  obtain ⟨⟨ascending, canonical, room⟩, -⟩ := fit
  exact ⟨canonical_obj ascending canonical, by rw [depth]; exact room⟩

/-- Closing the last frame gives what is read. -/
theorem ReadInside.of_closed {c : Json} (holds : c.depth ≠ 0)
    (read : resume? frames c ts = some w) (inside : ReadInside frames w) :
    ReadInside next w := by
  refine ⟨inside.fits, fun _ => ?_⟩
  by_cases ne : frames = []
  · subst ne
    rwa [(resume?_nil read).2]
  · exact inside.holds ne

/-- What is read inside frames that fit is as it should be. The induction goes along the reader, as
for `settles`. -/
theorem readInside :
    (∀ frames ts, ∀ w, value? frames ts = some w → FramesFit frames → ReadInside frames w) ∧
      ∀ frames v ts, ∀ w, resume? frames v ts = some w → FramesFit frames → v.Fits frames →
        ReadInside frames w := by
  apply value?.mutual_induct
  case case1 | case2 | case3 | case4 =>
    intros
    rename_i ih w read fit
    rw [value?] at read
    exact ih w read fit (fits_leaf fit.length_le (by simp [Canonical]) (by simp [depth]))
  case case5 =>
    intro frames room rest ih w read fit
    rw [value?, if_pos room] at read
    have fits : (Json.arr []).Fits frames :=
      ⟨canonical_arr (by simp [CanonicalElements]), by rw [depth, elementsDepth]; omega⟩
    exact ih w read fit fits
  case case6 =>
    intro frames room rest noClose ih w read fit
    rw [value?, if_pos room] at read
    · have opened : FramesFit (.array [] :: frames) :=
        ⟨⟨by simp [CanonicalElements], by rw [elementsDepth]; omega⟩, fit⟩
      exact (ih w read opened).of_inner (by simp)
    · exact noClose
  case case8 =>
    intro frames room rest ih w read fit
    rw [value?, if_pos room] at read
    have fits : (Json.obj []).Fits frames :=
      ⟨canonical_obj .nil (by simp [CanonicalMembers]), by rw [depth, membersDepth]; omega⟩
    exact ih w read fit fits
  case case9 =>
    intro frames room key rest ih w read fit
    rw [value?, if_pos room] at read
    have opened : FramesFit (.object [] key :: frames) :=
      ⟨⟨.nil, by simp [CanonicalMembers], by rw [membersDepth]; omega⟩, fit⟩
    exact (ih w read opened).of_inner (by simp)
  case case13 =>
    intro v w read _ fits
    rw [(resume?_nil read).2]
    exact ⟨fits, fun ne => absurd rfl ne⟩
  case case15 =>
    intro v rest done frames ih w read fit fits
    rw [resume?] at read
    exact (ih w read (fits_push fit fits)).of_inner (by simp)
  case case16 =>
    intro v members key frames next rest ih w read fit fits
    rw [resume?] at read
    exact (ih w read (fits_insert fit fits next)).of_inner (by simp)
  case case19 =>
    intro v rest done frames ih w read fit fits
    rw [resume?] at read
    have closed := fits_close_array (fits_push fit fits)
    exact (ih w read fit.2 closed).of_closed (by simp [depth]) read
  case case21 =>
    intro v rest members key frames ih w read fit fits
    rw [resume?] at read
    have closed := fits_close_object (fits_insert fit fits key)
    exact (ih w read fit.2 closed).of_closed (by simp [depth]) read
  -- everywhere else nothing is read
  case case7 | case11 =>
    intro frames rest full w read
    unfold value? at read
    simp [full] at read
  case case17 =>
    intro v rest members key frames noMember w read
    rw [resume?] at read
    · cases read
    · exact noMember
  all_goals
    intros
    simp_all [value?, resume?]

/-- Whatever is read is in canonical form and no deeper than the reader follows. -/
theorem fits_of_ofChars? {s : List Char} (read : ofChars? s = some w) : w.Fits [] := by
  obtain ⟨ts, -, value⟩ := Option.bind_eq_some_iff.mp read
  exact (readInside.1 [] ts w value trivial).fits

/-- A number is read from its token alone. -/
theorem eq_num_of_value? {n : Number} (read : value? [] ts = some (.num n)) : ts = [.num n] := by
  have inside {frames : List Frame} {rest : List Token} (fit : FramesFit frames)
      (value : value? frames rest = some (.num n)) : frames = [] := by
    cases frames with
    | nil => rfl
    | cons f frames => exact absurd rfl ((readInside.1 _ _ _ value fit).holds (by simp))
  unfold value? at read
  split at read
  case h_3 =>
    obtain ⟨rfl, eq⟩ := resume?_nil read
    cases eq
    rfl
  case h_1 | h_2 | h_4 => cases (resume?_nil read).2
  case h_5 =>
    rw [if_pos (by decide)] at read
    split at read
    · cases (resume?_nil read).2
    · have opened : FramesFit [.array []] := by
        simp [FramesFit, Frame.Fits, CanonicalElements, elementsDepth, depthLimit]
      cases inside opened read
  case h_6 =>
    rw [if_pos (by decide)] at read
    split at read
    · cases (resume?_nil read).2
    · next key _ =>
      have opened : FramesFit [.object [] key] :=
        ⟨⟨.nil, by simp [CanonicalMembers], by simp [membersDepth, depthLimit]⟩, trivial⟩
      cases inside opened read
    · cases read
  case h_7 => cases read

theorem Number.ReadsBack.ofText? {n : Number} (reads : n.ReadsBack) :
    Token.ofText? n.text = some [.num n] := by
  have written : (Json.num n).text.toList = n.text := by
    simp [Json.text, tokens, Token.text]
  rw [ReadsBack, parse?, written] at reads
  obtain ⟨ts, cut, value⟩ := Option.bind_eq_some_iff.mp reads
  rw [cut, eq_num_of_value? value]

/-- A value that the reader could have given is read back from its text, if its numbers are. -/
theorem parse?_text (fits : v.Fits []) (numbers : ∀ n ∈ v.numbers, n.ReadsBack) :
    parse? v.text = some v := by
  have cut : Token.ofText? (v.tokens.flatMap Token.text) = some v.tokens := by
    have all := @ofText?_tokens v [] (fun n mem => (numbers n mem).ofText?) (.inl rfl)
    have nothing : Token.ofText? [] = some [] := rfl
    simpa [nothing] using all
  have value := @value?_tokens v [] [] fits.canonical fits.shallow
  rw [List.append_nil] at value
  rw [parse?, text, String.toList_ofList, ofChars?, cut, Option.bind_some, value, resume?]

/-! ## Values without numbers -/

theorem elementNumbers_eq_nil_iff :
    elementNumbers elements = [] ↔ ∀ v ∈ elements, v.numbers = [] := by
  induction elements with
  | nil => simp [elementNumbers]
  | cons v rest ih => simp [elementNumbers, ih]

theorem memberNumbers_eq_nil_iff :
    memberNumbers members = [] ↔ ∀ e ∈ members, e.2.numbers = [] := by
  induction members with
  | nil => simp [memberNumbers]
  | cons e rest ih => simp [memberNumbers, ih]

/-- A value without numbers that is in canonical form and at most `k` arrays and objects deep. -/
structure Numberless (k : Nat) (v : Json) : Prop where
  canonical : v.Canonical
  depth_le : v.depth ≤ k
  numbers : v.numbers = []

theorem Numberless.mono {k' : Nat} (flat : Numberless k v) (le : k ≤ k') : Numberless k' v :=
  ⟨flat.canonical, Nat.le_trans flat.depth_le le, flat.numbers⟩

theorem numberless_str (s : String) : Numberless k (.str s) :=
  ⟨by simp [Canonical], by simp [depth], rfl⟩

theorem numberless_bool (b : Bool) : Numberless k (.bool b) :=
  ⟨by simp [Canonical], by simp [depth], rfl⟩

theorem numberless_arr (each : ∀ v ∈ elements, Numberless k v) :
    Numberless (k + 1) (.arr elements) where
  canonical := canonical_arr (canonicalElements_iff.mpr fun v mem => (each v mem).canonical)
  depth_le := by
    rw [depth]
    exact Nat.succ_le_succ (elementsDepth_le_iff.mpr fun v mem => (each v mem).depth_le)
  numbers := by
    rw [numbers]
    exact elementNumbers_eq_nil_iff.mpr fun v mem => (each v mem).numbers

theorem numberless_obj (ascending : Entries.Ascending members)
    (each : ∀ e ∈ members, Numberless k e.2) : Numberless (k + 1) (.obj members) where
  canonical := canonical_obj ascending
    (canonicalMembers_iff.mpr fun e mem => (each e mem).canonical)
  depth_le := by
    rw [depth]
    exact Nat.succ_le_succ (membersDepth_le_iff.mpr fun e mem => (each e mem).depth_le)
  numbers := by
    rw [numbers]
    exact memberNumbers_eq_nil_iff.mpr fun e mem => (each e mem).numbers

theorem numberless_ofMembers (each : ∀ e ∈ members, Numberless k e.2) :
    Numberless (k + 1) (ofMembers members) := by
  refine numberless_obj (Entries.ascending_ofList members) fun e mem => each e ?_
  exact (Entries.mem_update mem).resolve_left List.not_mem_nil

theorem Numberless.parse?_text (flat : Numberless k v) (room : k ≤ depthLimit) :
    parse? v.text = some v := by
  refine Json.parse?_text ⟨flat.canonical, ?_⟩ (by simp [flat.numbers])
  rw [List.length_nil, Nat.zero_add]
  exact Nat.le_trans flat.depth_le room

theorem ofChars?_text (texts : List String) :
    ofChars? (Json.arr (texts.map .str)).text.toList = some (.arr (texts.map .str)) := by
  have flat : Numberless 1 (.arr (texts.map .str)) := by
    apply numberless_arr
    rw [List.forall_mem_map]
    exact fun s _ => numberless_str s
  exact flat.parse?_text (by decide)

end Json

end ShapeLines
