import Mathlib.Algebra.GroupWithZero.Nat
import ShapeLines.Proofs.Json.Brackets

/-!
# The texts in a value are shorter than the text of the value

Every text in a value has been quoted where the value was read from. Escapes make a text longer, a
member that is replaced is left out, and the quotes come on top, so a value never holds the text
that it was read from.
-/

namespace ShapeLines.Json

mutual

/-- How long the texts in a value are, with a quote for each. -/
def letters : Json → Nat
  | .str s => s.length + 1
  | .arr elements => elementsLetters elements
  | .obj members => membersLetters members
  | _ => 0

def elementsLetters : List Json → Nat
  | [] => 0
  | v :: rest => letters v + elementsLetters rest

def membersLetters : List (String × Json) → Nat
  | [] => 0
  | (_, v) :: rest => letters v + membersLetters rest

end

def Token.letters : Token → Nat
  | .str s => s.length + 1
  | _ => 0

def Lexeme.letters : Lexeme → Nat
  | .quoted body => body.length + 1
  | _ => 0

def Lexeme.Mode.letters : Lexeme.Mode → Nat
  | .inQuotes done => done.length
  | .escaped done => done.length
  | _ => 0

def Frame.letters : Frame → Nat
  | .array done => elementsLetters done
  | .object members _ => membersLetters members

variable {v w : Json} {ts : List Token} {frames : List Frame}

/-! ## Scanning and decoding -/

theorem Lexeme.letters_start (c : Char) :
    ((start c).1.map letters).sum + (start c).2.letters = 0 := by
  unfold start
  split
  · rfl
  · split
    · rfl
    · split <;> rfl

theorem Lexeme.letters_step (mode : Mode) (c : Char) :
    ((step mode c).1.map letters).sum + (step mode c).2.letters ≤ mode.letters + 1 := by
  have started := letters_start c
  cases mode with
  | between =>
    rw [step, started]
    exact Nat.zero_le _
  | inWord done =>
    rw [step]
    split
    · simp [Mode.letters]
    · simp only [List.map_cons, List.sum_cons, letters]
      omega
  | inQuotes done =>
    rw [step]
    split
    · simp [letters, Mode.letters]
    · split <;> simp [Mode.letters]
  | escaped done => simp [step, Mode.letters]

theorem Lexeme.letters_scan? {mode : Mode} {s : List Char} {ls : List Lexeme}
    (scanned : scan? mode s = some ls) : (ls.map letters).sum ≤ mode.letters + s.length := by
  induction s generalizing mode ls with
  | nil =>
    cases mode with
    | between | inWord =>
      cases scanned
      simp [letters]
    | inQuotes | escaped => cases scanned
  | cons c s ih =>
    rw [scan?] at scanned
    obtain ⟨others, scannedRest, rfl⟩ := Option.map_eq_some_iff.mp scanned
    have first := letters_step mode c
    have rest := ih scannedRest
    simp only [List.map_append, List.sum_append_nat, List.length_cons]
    omega

theorem Quoted.length_decode? {body s : List Char} (read : decode? body = some s) :
    s.length ≤ body.length := by
  fun_induction decode? body generalizing s
  case case1 =>
    cases read
    exact Nat.le_refl _
  case case5 | case8 | case10 | case12 =>
    rename_i ih
    obtain ⟨tail, decoded, rfl⟩ := Option.map_eq_some_iff.mp read
    have shorter := ih decoded
    simp only [List.length_cons]
    omega
  all_goals contradiction

theorem Token.letters_ofWord? {word : List Char} {t : Token} (read : ofWord? word = some t) :
    t.letters = 0 := by
  unfold ofWord? at read
  split at read
  · cases read
    rfl
  · split at read
    · cases read
      rfl
    · split at read
      · cases read
        rfl
      · obtain ⟨n, -, rfl⟩ := Option.map_eq_some_iff.mp read
        rfl

theorem Token.letters_ofLexeme? {l : Lexeme} {t : Token} (read : ofLexeme? l = some t) :
    t.letters ≤ l.letters := by
  cases l with
  | mark m =>
    cases read
    exact Nat.le_refl _
  | quoted body =>
    obtain ⟨s, decoded, rfl⟩ := Option.map_eq_some_iff.mp read
    have shorter := Quoted.length_decode? decoded
    simpa [letters, Lexeme.letters] using shorter
  | word body =>
    rw [letters_ofWord? read]
    exact Nat.zero_le _

theorem Token.letters_mapM {ls : List Lexeme} (read : ls.mapM ofLexeme? = some ts) :
    (ts.map letters).sum ≤ (ls.map Lexeme.letters).sum := by
  induction ls generalizing ts with
  | nil =>
    cases read
    exact Nat.le_refl _
  | cons l ls ih =>
    rw [List.mapM_cons] at read
    obtain ⟨t, first, read⟩ := Option.bind_eq_some_iff.mp read
    obtain ⟨others, readRest, eq⟩ := Option.bind_eq_some_iff.mp read
    cases eq
    exact Nat.add_le_add (letters_ofLexeme? first) (ih readRest)

theorem Token.letters_ofText? {s : List Char} (cut : ofText? s = some ts) :
    (ts.map letters).sum ≤ s.length := by
  obtain ⟨ls, scanned, read⟩ := Option.bind_eq_some_iff.mp cut
  have scan : (ls.map Lexeme.letters).sum ≤ 0 + s.length := Lexeme.letters_scan? scanned
  rw [Nat.zero_add] at scan
  exact Nat.le_trans (letters_mapM read) scan

/-! ## Reading -/

def framesLetters (frames : List Frame) : Nat :=
  (frames.map Frame.letters).sum

def tokensLetters (ts : List Token) : Nat :=
  (ts.map Token.letters).sum

@[simp] theorem framesLetters_cons (f : Frame) (frames : List Frame) :
    framesLetters (f :: frames) = f.letters + framesLetters frames := rfl

@[simp] theorem tokensLetters_cons (t : Token) (ts : List Token) :
    tokensLetters (t :: ts) = t.letters + tokensLetters ts := rfl

theorem elementsLetters_reverse (elements : List Json) :
    elementsLetters elements.reverse = elementsLetters elements := by
  have sum (elements : List Json) : elementsLetters elements = (elements.map Json.letters).sum := by
    induction elements with
    | nil => rfl
    | cons v rest ih => rw [elementsLetters, ih, List.map_cons, List.sum_cons]
  rw [sum, sum, List.map_reverse, List.sum_reverse]

theorem membersLetters_insert (key : String) (v : Json) (members : List (String × Json)) :
    membersLetters (Entries.insert key v members) ≤ v.letters + membersLetters members := by
  induction members with
  | nil => exact Nat.le_refl _
  | cons e rest ih =>
    rw [Entries.insert]
    split
    · exact Nat.le_refl _
    · split
      · simp only [membersLetters]
        omega
      · simp only [membersLetters]
        omega

/-- What is read holds no more than what is open and what is left to read. The induction goes along
the reader, as for `settles`. -/
theorem letters_le :
    (∀ frames ts, ∀ w, value? frames ts = some w →
        w.letters ≤ framesLetters frames + tokensLetters ts) ∧
      ∀ frames v ts, ∀ w, resume? frames v ts = some w →
        w.letters ≤ framesLetters frames + v.letters + tokensLetters ts := by
  apply value?.mutual_induct
  case case1 | case2 | case3 | case4 =>
    intros
    rename_i ih w read
    rw [value?] at read
    have below := ih w read
    simp only [tokensLetters_cons, Token.letters, letters] at below ⊢
    omega
  case case5 =>
    intro frames room rest ih w read
    rw [value?, if_pos room] at read
    have below := ih w read
    simp only [tokensLetters_cons, Token.letters, letters, elementsLetters] at below ⊢
    omega
  case case6 =>
    intro frames room rest noClose ih w read
    rw [value?, if_pos room] at read
    · have below := ih w read
      simp only [framesLetters_cons, tokensLetters_cons, Token.letters, Frame.letters,
        elementsLetters] at below ⊢
      omega
    · exact noClose
  case case8 =>
    intro frames room rest ih w read
    rw [value?, if_pos room] at read
    have below := ih w read
    simp only [tokensLetters_cons, Token.letters, letters, membersLetters] at below ⊢
    omega
  case case9 =>
    intro frames room key rest ih w read
    rw [value?, if_pos room] at read
    have below := ih w read
    simp only [framesLetters_cons, tokensLetters_cons, Token.letters, Frame.letters,
      membersLetters] at below ⊢
    omega
  case case13 =>
    intro v w read
    rw [(resume?_nil read).2]
    omega
  case case15 =>
    intro v rest done frames ih w read
    rw [resume?] at read
    have below := ih w read
    simp only [framesLetters_cons, tokensLetters_cons, Token.letters, Frame.letters,
      elementsLetters] at below ⊢
    omega
  case case16 =>
    intro v members key frames next rest ih w read
    rw [resume?] at read
    have below := ih w read
    have inserted := membersLetters_insert key v members
    simp only [framesLetters_cons, tokensLetters_cons, Token.letters, Frame.letters] at below ⊢
    omega
  case case19 =>
    intro v rest done frames ih w read
    rw [resume?] at read
    have below := ih w read
    simp only [framesLetters_cons, tokensLetters_cons, Token.letters, Frame.letters, letters,
      elementsLetters_reverse, elementsLetters] at below ⊢
    omega
  case case21 =>
    intro v rest members key frames ih w read
    rw [resume?] at read
    have below := ih w read
    have inserted := membersLetters_insert key v members
    simp only [framesLetters_cons, tokensLetters_cons, Token.letters, Frame.letters, letters]
      at below ⊢
    omega
  -- everywhere else nothing is read
  case case7 | case11 =>
    intro frames rest full w read
    unfold value? at read
    simp [full] at read
  case case17 =>
    intro v rest members key frames noMember w read
    rw [resume?] at read
    · cases read
    · exact noMember
  all_goals
    intros
    simp_all [value?, resume?]

theorem letters_le_length {s : String} (read : parse? s = some v) : v.letters ≤ s.length := by
  obtain ⟨ts, cut, value⟩ := Option.bind_eq_some_iff.mp read
  have held := letters_le.1 [] ts v value
  have given := Token.letters_ofText? cut
  have nothing : framesLetters [] = 0 := rfl
  rw [nothing, Nat.zero_add] at held
  exact Nat.le_trans held given

/-- No text is read as an array of which it is the only element. -/
theorem parse?_ne_single (s : String) : parse? s ≠ some (.arr [.str s]) := by
  intro read
  have shorter := letters_le_length read
  simp only [letters, elementsLetters] at shorter
  omega

end ShapeLines.Json
