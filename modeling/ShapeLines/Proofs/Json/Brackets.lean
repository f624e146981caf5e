import ShapeLines.Json.Text

/-!
# The brackets of an array

A text that is read as an array opens with a bracket, and the bracket that closes the array is the
last mark of the text. Only square brackets need to be counted for that: while the outermost array
is open, some square bracket is open, whatever objects lie in between.
-/

namespace ShapeLines.Json

def Lexeme.mark? : Lexeme → Option Mark
  | .mark m => some m
  | _ => none

def Token.mark? : Token → Option Mark
  | .mark m => some m
  | _ => none

/-- How many square brackets are open behind a mark, given how many are open before it. -/
def openBehind (m : Option Mark) (count : Nat) : Nat :=
  match m with
  | some .openArray => count + 1
  | some .closeArray => count - 1
  | _ => count

@[simp] theorem openBehind_openArray (count : Nat) :
    openBehind (Token.mark .openArray).mark? count = count + 1 := rfl

@[simp] theorem openBehind_closeArray (count : Nat) :
    openBehind (Token.mark .closeArray).mark? count = count - 1 := rfl

/-- The last of the marks closes the last of the square brackets, of which `count` are open before
the marks. -/
def ClosesLast : Nat → List (Option Mark) → Prop
  | count, [] => count = 0
  | count, m :: rest => 0 < count ∧ ClosesLast (openBehind m count) rest

theorem Token.mark?_of_ofLexeme? {l : Lexeme} {t : Token} (read : ofLexeme? l = some t) :
    t.mark? = l.mark? := by
  cases l with
  | mark m =>
    cases read
    rfl
  | quoted body =>
    obtain ⟨s, -, rfl⟩ := Option.map_eq_some_iff.mp read
    rfl
  | word body =>
    simp only [ofLexeme?, ofWord?] at read
    split at read
    · cases read
      rfl
    · split at read
      · cases read
        rfl
      · split at read
        · cases read
          rfl
        · obtain ⟨n, -, rfl⟩ := Option.map_eq_some_iff.mp read
          rfl

theorem map_mark?_of_mapM {ls : List Lexeme} {ts : List Token}
    (read : ls.mapM Token.ofLexeme? = some ts) :
    ts.map Token.mark? = ls.map Lexeme.mark? := by
  induction ls generalizing ts with
  | nil =>
    cases read
    rfl
  | cons l ls ih =>
    rw [List.mapM_cons] at read
    obtain ⟨t, first, read⟩ := Option.bind_eq_some_iff.mp read
    obtain ⟨rest, others, eq⟩ := Option.bind_eq_some_iff.mp read
    cases eq
    rw [List.map_cons, List.map_cons, Token.mark?_of_ofLexeme? first, ih others]

/-! ## What the open frames are waiting for -/

def Frame.isArray : Frame → Bool
  | .array _ => true
  | .object _ _ => false

/-- Whether the outermost of the open frames is an array. -/
def outer? (frames : List Frame) : Option Bool :=
  frames.getLast?.map Frame.isArray

def openArrays (frames : List Frame) : Nat :=
  frames.countP Frame.isArray

@[simp] theorem openArrays_array (done : List Json) (frames : List Frame) :
    openArrays (.array done :: frames) = openArrays frames + 1 :=
  List.countP_cons_of_pos rfl

@[simp] theorem openArrays_object (members : List (String × Json)) (key : String)
    (frames : List Frame) : openArrays (.object members key :: frames) = openArrays frames :=
  List.countP_cons_of_neg Bool.false_ne_true

/-- What follows inside the open frames, and the value it leads to, if the outermost frame is an
array or if it is an object. -/
def Settles (frames : List Frame) (ts : List Token) (w : Json) : Prop :=
  match outer? frames with
  | none => True
  | some true => ClosesLast (openArrays frames) (ts.map Token.mark?)
  | some false => ∃ members, w = .obj members

theorem outer?_cons {frames : List Frame} (ne : frames ≠ []) (f : Frame) :
    outer? (f :: frames) = outer? frames := by
  obtain ⟨g, frames, rfl⟩ := List.exists_cons_of_ne_nil ne
  simp [outer?, List.getLast?_cons]

theorem outer?_array (done done' : List Json) (frames : List Frame) :
    outer? (.array done :: frames) = outer? (.array done' :: frames) := by
  cases frames <;> rfl

theorem outer?_object (members members' : List (String × Json)) (key key' : String)
    (frames : List Frame) :
    outer? (.object members key :: frames) = outer? (.object members' key' :: frames) := by
  cases frames <;> rfl

theorem openArrays_pos {frames : List Frame} (outer : outer? frames = some true) :
    0 < openArrays frames := by
  obtain ⟨f, last, isArray⟩ := Option.map_eq_some_iff.mp outer
  exact List.countP_pos_iff.mpr ⟨f, List.mem_of_getLast? last, isArray⟩

variable {frames next : List Frame} {ts rest : List Token} {t : Token} {v w : Json}

/-- One token further on, the outermost frame is the same and the count has changed by the token. -/
theorem Settles.step (settles : Settles next rest w)
    (outer : frames ≠ [] → outer? next = outer? frames)
    (count : 0 < openArrays frames → openBehind t.mark? (openArrays frames) = openArrays next) :
    Settles frames (t :: rest) w := by
  by_cases ne : frames = []
  · subst ne
    trivial
  · unfold Settles at settles ⊢
    rw [outer ne] at settles
    cases kind : outer? frames with
    | none => trivial
    | some isArray =>
      rw [kind] at settles
      cases isArray with
      | false => exact settles
      | true =>
        have pos := openArrays_pos kind
        exact ⟨pos, (count pos).symm ▸ settles⟩

theorem resume?_nil (read : resume? [] v ts = some w) : ts = [] ∧ w = v := by
  unfold resume? at read
  split at read
  · exact ⟨rfl, (Option.some.inj read).symm⟩
  all_goals contradiction

/-- The reader ends only when all frames are closed. The induction goes along the reader: each case
takes `Settles` back over the tokens that are read in it. -/
theorem settles :
    (∀ frames ts, ∀ w, value? frames ts = some w → Settles frames ts w) ∧
      ∀ frames v ts, ∀ w, resume? frames v ts = some w → Settles frames ts w := by
  apply value?.mutual_induct
  case case1 | case2 | case3 | case4 =>
    intros
    rename_i ih w read
    rw [value?] at read
    exact (ih w read).step (fun _ => rfl) fun _ => rfl
  case case5 =>
    intro frames room rest ih w read
    rw [value?, if_pos room] at read
    by_cases ne : frames = []
    · subst ne
      trivial
    · have closed : Settles (.array [] :: frames) (.mark .closeArray :: rest) w :=
        (ih w read).step (fun _ => (outer?_cons ne _).symm) fun _ => by simp
      exact closed.step (fun _ => outer?_cons ne _) fun _ => by simp
  case case6 =>
    intro frames room rest noClose ih w read
    rw [value?, if_pos room] at read
    · exact (ih w read).step (outer?_cons · _) fun _ => by simp
    · exact noClose
  case case8 =>
    intro frames room rest ih w read
    rw [value?, if_pos room] at read
    exact ((ih w read).step (fun _ => rfl) fun _ => rfl).step (fun _ => rfl) fun _ => rfl
  case case9 =>
    intro frames room key rest ih w read
    rw [value?, if_pos room] at read
    have behindKey : Settles frames (.mark .colon :: rest) w :=
      (ih w read).step (outer?_cons · _) fun _ => (openArrays_object ..).symm
    exact (behindKey.step (fun _ => rfl) fun _ => rfl).step (fun _ => rfl) fun _ => rfl
  case case15 =>
    intro v rest done frames ih w read
    rw [resume?] at read
    exact (ih w read).step (fun _ => outer?_array ..) fun _ => rfl
  case case16 =>
    intro v members key frames next rest ih w read
    rw [resume?] at read
    have behindKey : Settles (.object members key :: frames) (.mark .colon :: rest) w :=
      (ih w read).step (fun _ => outer?_object ..) fun _ => rfl
    exact (behindKey.step (fun _ => rfl) fun _ => rfl).step (fun _ => rfl) fun _ => rfl
  case case19 =>
    intro v rest done frames ih w read
    rw [resume?] at read
    by_cases ne : frames = []
    · subst ne
      obtain ⟨rfl, -⟩ := resume?_nil read
      exact ⟨Nat.one_pos, rfl⟩
    · exact (ih w read).step (fun _ => (outer?_cons ne _).symm) fun _ => by simp
  case case21 =>
    intro v rest members key frames ih w read
    rw [resume?] at read
    by_cases ne : frames = []
    · subst ne
      exact ⟨_, (resume?_nil read).2⟩
    · exact (ih w read).step (fun _ => (outer?_cons ne _).symm) fun _ => openArrays_object ..
  -- everywhere else nothing is read
  case case7 | case11 =>
    intro frames rest full w read
    unfold value? at read
    simp [full] at read
  case case17 =>
    intro v rest members key frames noMember w read
    rw [resume?] at read
    · cases read
    · exact noMember
  all_goals
    intros
    first
    | trivial
    | simp_all [value?, resume?]

/-! ## Arrays -/

theorem closesLast_of_value? {elements : List Json} (read : value? [] ts = some (.arr elements)) :
    ∃ rest, ts = .mark .openArray :: rest ∧ ClosesLast 1 (rest.map Token.mark?) := by
  unfold value? at read
  split at read
  case h_1 | h_2 | h_3 | h_4 => cases (resume?_nil read).2
  case h_5 =>
    rw [if_pos (by decide)] at read
    split at read
    · obtain ⟨rfl, -⟩ := resume?_nil read
      exact ⟨_, rfl, Nat.one_pos, rfl⟩
    · exact ⟨_, rfl, settles.1 _ _ _ read⟩
  case h_6 =>
    rw [if_pos (by decide)] at read
    split at read
    · cases (resume?_nil read).2
    · obtain ⟨members, object⟩ := settles.1 _ _ _ read
      cases object
    · cases read
  case h_7 => cases read

/-- A text that is read as an array opens with a bracket, which its last mark closes. -/
theorem exists_lexemes_of_ofChars? {s : List Char} {elements : List Json}
    (read : ofChars? s = some (.arr elements)) :
    ∃ ls, Lexeme.scan? .between s = some (.mark .openArray :: ls) ∧
      ClosesLast 1 (ls.map Lexeme.mark?) := by
  obtain ⟨ts, tokens, value⟩ := Option.bind_eq_some_iff.mp read
  obtain ⟨ls, scanned, readAll⟩ := Option.bind_eq_some_iff.mp tokens
  obtain ⟨rest, rfl, closes⟩ := closesLast_of_value? value
  cases ls with
  | nil => cases readAll
  | cons l ls =>
    rw [List.mapM_cons] at readAll
    obtain ⟨t, first, readAll⟩ := Option.bind_eq_some_iff.mp readAll
    obtain ⟨others, readRest, eq⟩ := Option.bind_eq_some_iff.mp readAll
    cases eq
    have mark := Token.mark?_of_ofLexeme? first
    have opens : l = .mark .openArray := by
      cases l with
      | mark m => simpa [Token.mark?, Lexeme.mark?, eq_comm] using mark
      | _ => cases mark
    exact ⟨ls, by rw [scanned, opens], map_mark?_of_mapM readRest ▸ closes⟩

theorem ofChars?_congr {s s' : List Char}
    (same : Lexeme.scan? .between s = Lexeme.scan? .between s') : ofChars? s = ofChars? s' := by
  rw [ofChars?, ofChars?, Token.ofText?, Token.ofText?, same]

end ShapeLines.Json
