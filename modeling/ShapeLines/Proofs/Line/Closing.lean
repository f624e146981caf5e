import ShapeLines.Line.ListLiteral
import ShapeLines.Proofs.Json.Brackets

/-!
# Where an array ends

The search for the bracket that closes a literal is no reader of JSON, but it passes over quoted
texts as the reader does, and it counts the same square brackets. So on the text of an array it
stops at the end of the array.
-/

namespace ShapeLines

open Json (ClosesLast openBehind)

namespace Json.Lexeme

variable {c : Char} {s : List Char} {ls : List Lexeme} {done : List Char}

theorem isGap_iff : isGap c = true ↔ c = ' ' ∨ c = '\t' ∨ c = '\n' ∨ c = '\r' := by
  simp [isGap, or_assoc]

theorem char_of_ofChar? {m : Mark} (mark : Mark.ofChar? c = some m) : c = m.char := by
  unfold Mark.ofChar? at mark
  split at mark
  all_goals first
    | cases mark; rfl
    | cases mark

/-- How a text goes on between lexemes. -/
theorem scan?_between_cons (c : Char) (s : List Char) :
    (isGap c = true ∧ scan? .between (c :: s) = scan? .between s) ∨
    (c = '"' ∧ scan? .between (c :: s) = scan? (.inQuotes []) s) ∨
    (∃ m : Mark, c = m.char ∧
      scan? .between (c :: s) = (scan? .between s).map (.mark m :: ·)) ∨
    (isWordChar c = true ∧ scan? .between (c :: s) = scan? (.inWord [c]) s) := by
  by_cases gap : isGap c = true
  · exact .inl ⟨gap, by simp [scan?, step, start, gap]⟩
  · by_cases quote : c = '"'
    · exact .inr (.inl ⟨quote, by simp [scan?, step, start, quote, isGap]⟩)
    · cases mark : Mark.ofChar? c with
      | some m =>
        refine .inr (.inr (.inl ⟨m, char_of_ofChar? mark, ?_⟩))
        simp [scan?, step, start, gap, quote, mark]
      | none =>
        refine .inr (.inr (.inr ⟨by simp [isWordChar, gap, quote, mark], ?_⟩))
        simp [scan?, step, start, gap, quote, mark]

/-- A word that no further character belongs to ends there. -/
theorem scan?_inWord_of_head (ends : ∀ c ∈ s.head?, isWordChar c = false) (done : List Char) :
    scan? (.inWord done) s = (scan? .between s).map (.word done.reverse :: ·) := by
  cases s with
  | nil => rfl
  | cons c s =>
    simp [scan?, step, ends c rfl, Function.comp_def]

theorem exists_word (scanned : scan? (.inWord done) s = some ls) :
    ∃ body rest, ls = .word body :: rest := by
  induction s generalizing done with
  | nil => exact ⟨_, _, (Option.some.inj scanned).symm⟩
  | cons c s ih =>
    cases word : isWordChar c with
    | true =>
      have rest : scan? (.inWord (c :: done)) s = some ls := by
        simpa [scan?, step, word] using scanned
      exact ih rest
    | false =>
      rw [scan?_inWord_of_head (by simpa using word)] at scanned
      obtain ⟨rest, -, rfl⟩ := Option.map_eq_some_iff.mp scanned
      exact ⟨_, _, rfl⟩

theorem exists_quoted {mode : Mode} (inside : ∃ done, mode = .inQuotes done ∨ mode = .escaped done)
    (scanned : scan? mode s = some ls) : ∃ body rest, ls = .quoted body :: rest := by
  induction s generalizing mode with
  | nil => rcases inside with ⟨done, rfl | rfl⟩ <;> cases scanned
  | cons c s ih =>
    rcases inside with ⟨done, rfl | rfl⟩
    · by_cases quote : c = '"'
      · obtain ⟨rest, -, rfl⟩ : ∃ rest, scan? .between s = some rest ∧
            .quoted done.reverse :: rest = ls := by
          simpa [scan?, step, quote] using scanned
        exact ⟨_, _, rfl⟩
      · by_cases backslash : c = '\\'
        · exact ih ⟨_, .inr rfl⟩ (by simpa [scan?, step, quote, backslash] using scanned)
        · exact ih ⟨_, .inl rfl⟩ (by simpa [scan?, step, quote, backslash] using scanned)
    · exact ih ⟨_, .inl rfl⟩ (by simpa [scan?, step] using scanned)

theorem isGap_of_scan?_nil (scanned : scan? .between s = some []) : ∀ c ∈ s, isGap c = true := by
  induction s with
  | nil => simp
  | cons c s ih =>
    rcases scan?_between_cons c s with ⟨gap, eq⟩ | ⟨-, eq⟩ | ⟨m, -, eq⟩ | ⟨-, eq⟩
    · exact List.forall_mem_cons.mpr ⟨gap, ih (eq ▸ scanned)⟩
    · obtain ⟨body, rest, first⟩ := exists_quoted ⟨[], .inl rfl⟩ (eq ▸ scanned)
      cases first
    · rw [eq, Option.map_eq_some_iff] at scanned
      obtain ⟨rest, -, first⟩ := scanned
      cases first
    · obtain ⟨body, rest, first⟩ := exists_word (eq ▸ scanned)
      cases first

/-- Only gaps stand in front of a mark that comes first. -/
theorem exists_of_scan?_mark {m : Mark} (scanned : scan? .between s = some (.mark m :: ls)) :
    ∃ front body, s = front ++ m.char :: body ∧ (∀ c ∈ front, isGap c = true) ∧
      scan? .between body = some ls := by
  induction s with
  | nil => cases scanned
  | cons c s ih =>
    rcases scan?_between_cons c s with ⟨gap, eq⟩ | ⟨-, eq⟩ | ⟨m', rfl, eq⟩ | ⟨-, eq⟩
    · obtain ⟨front, body, rfl, gaps, rest⟩ := ih (eq ▸ scanned)
      exact ⟨c :: front, body, rfl, List.forall_mem_cons.mpr ⟨gap, gaps⟩, rest⟩
    · obtain ⟨body, rest, first⟩ := exists_quoted ⟨[], .inl rfl⟩ (eq ▸ scanned)
      cases first
    · rw [eq, Option.map_eq_some_iff] at scanned
      obtain ⟨rest, scanned, first⟩ := scanned
      cases first
      exact ⟨[], s, rfl, by simp, scanned⟩
    · obtain ⟨body, rest, first⟩ := exists_word (eq ▸ scanned)
      cases first

end Json.Lexeme

namespace Line

open Json Json.Lexeme

variable {c : Char} {s inside after : List Char} {ls : List Lexeme} {mode : Mode} {depth : Nat}

/-- The search stops at a closing bracket, or it goes on behind the character. -/
theorem splitClosing?_cons (scan : Scan) (depth : Nat) (c : Char) :
    (c = ']' ∧ ∀ s, splitClosing? scan depth (c :: s) = some ([], s)) ∨
      ∃ scan' depth', ∀ s, splitClosing? scan depth (c :: s) =
        extend c (splitClosing? scan' depth' s) := by
  cases scan with
  | escaped => exact .inr ⟨.quoted, depth, fun s => rfl⟩
  | quoted => exact .inr ⟨_, depth, fun s => rfl⟩
  | plain =>
    by_cases close : c = ']'
    · subst close
      cases depth with
      | zero => exact .inl ⟨rfl, fun s => rfl⟩
      | succ depth => exact .inr ⟨.plain, depth, fun s => rfl⟩
    · by_cases open' : c = '['
      · subst open'
        exact .inr ⟨.plain, depth + 1, fun s => rfl⟩
      · refine .inr ⟨if c = '"' then .quoted else .plain, depth, fun s => ?_⟩
        rw [splitClosing?.eq_def]
        simp [close, open']

theorem extend_eq_some_iff {parts : Option (List Char × List Char)} :
    extend c parts = some (inside, after) ↔
      ∃ rest, inside = c :: rest ∧ parts = some (rest, after) := by
  rw [extend, Option.map_eq_some_iff]
  constructor
  · rintro ⟨⟨rest, after⟩, rfl, eq⟩
    cases eq
    exact ⟨rest, rfl, rfl⟩
  · rintro ⟨rest, rfl, rfl⟩
    exact ⟨_, rfl, rfl⟩

theorem eq_of_splitClosing? {scan : Scan}
    (found : splitClosing? scan depth s = some (inside, after)) : s = inside ++ ']' :: after := by
  induction s generalizing scan depth inside with
  | nil => cases found
  | cons c s ih =>
    rcases splitClosing?_cons scan depth c with ⟨rfl, eq⟩ | ⟨scan', depth', eq⟩
    · rw [eq] at found
      cases found
      rfl
    · rw [eq, extend_eq_some_iff] at found
      obtain ⟨rest, rfl, found⟩ := found
      rw [ih found]
      rfl

theorem splitClosing?_append {scan : Scan}
    (found : splitClosing? scan depth s = some (inside, after)) (t : List Char) :
    splitClosing? scan depth (s ++ t) = some (inside, after ++ t) := by
  induction s generalizing scan depth inside with
  | nil => cases found
  | cons c s ih =>
    rcases splitClosing?_cons scan depth c with ⟨rfl, eq⟩ | ⟨scan', depth', eq⟩
    · rw [eq] at found
      cases found
      exact eq _
    · rw [eq, extend_eq_some_iff] at found
      obtain ⟨rest, rfl, found⟩ := found
      rw [List.cons_append, eq, ih found]
      rfl

/-- Where the search stands when the reader stands at `mode`. -/
def Scan.ofMode : Mode → Scan
  | .between => .plain
  | .inWord _ => .plain
  | .inQuotes _ => .quoted
  | .escaped _ => .escaped

/-- The search stops where the lexemes end, and up to there finds the same lexemes. -/
def Stops (mode : Mode) (depth : Nat) (s : List Char) (ls : List Lexeme) : Prop :=
  ∃ inside after, splitClosing? (.ofMode mode) depth s = some (inside, after) ∧
    (∀ c ∈ after, isGap c = true) ∧ scan? mode (inside ++ [']']) = some ls

theorem splitClosing?_plain_cons (open' : c ≠ '[') (close : c ≠ ']') (quote : c ≠ '"') :
    splitClosing? .plain depth (c :: s) = extend c (splitClosing? .plain depth s) := by
  rw [splitClosing?.eq_def]
  simp [open', close, quote]

/-- A character that the search passes over, after which the reader is at `next`. -/
theorem Stops.cons {next : Mode} {depth' : Nat} {rest : List Lexeme}
    (stops : Stops next depth' s rest)
    (search : splitClosing? (.ofMode mode) depth (c :: s) =
      extend c (splitClosing? (.ofMode next) depth' s))
    (emitted : (step mode c).1 ++ rest = ls) (reader : (step mode c).2 = next) :
    Stops mode depth (c :: s) ls := by
  obtain ⟨inside, after, found, gaps, same⟩ := stops
  refine ⟨c :: inside, after, by rw [search, found]; rfl, gaps, ?_⟩
  rw [List.cons_append, scan?, reader, same, Option.map_some, emitted]

theorem isWordChar_iff : isWordChar c = true ↔
    isGap c = false ∧ c ≠ '"' ∧ Mark.ofChar? c = none := by
  simp [isWordChar, and_assoc]

/-- The search passes over what is neither a square bracket nor a quote. -/
theorem Stops.plain {next : Mode} {rest : List Lexeme} (stops : Stops next depth s rest)
    (here : Scan.ofMode mode = .plain) (there : Scan.ofMode next = .plain)
    (open' : c ≠ '[') (close : c ≠ ']') (quote : c ≠ '"') (emitted : (step mode c).1 ++ rest = ls)
    (reader : (step mode c).2 = next) : Stops mode depth (c :: s) ls :=
  stops.cons (by rw [here, there, splitClosing?_plain_cons open' close quote]) emitted reader

theorem Stops.gap (stops : Stops .between depth s ls) (gap : isGap c = true) :
    Stops .between depth (c :: s) ls := by
  refine stops.plain rfl rfl ?_ ?_ ?_ (by simp [step, start, gap]) (by simp [step, start, gap])
  all_goals
    rintro rfl
    cases gap

theorem Stops.wordChar {done : List Char} (stops : Stops (.inWord (c :: done)) depth s ls)
    (word : isWordChar c = true) (outside : mode = .inWord done ∨ mode = .between ∧ done = []) :
    Stops mode depth (c :: s) ls := by
  obtain ⟨gap, quote, mark⟩ := isWordChar_iff.mp word
  have noBracket : c ≠ '[' ∧ c ≠ ']' := by
    constructor <;> rintro rfl <;> cases mark
  rcases outside with rfl | ⟨rfl, rfl⟩
  · refine stops.plain rfl rfl noBracket.1 noBracket.2 quote ?_ ?_
    · simp [step, word]
    · simp [step, word]
  · refine stops.plain rfl rfl noBracket.1 noBracket.2 quote ?_ ?_
    · simp [step, start, gap, quote, mark]
    · simp [step, start, gap, quote, mark]

theorem stops_between (scanned : scan? .between (c :: s) = some ls)
    (closes : ClosesLast (depth + 1) (ls.map Lexeme.mark?))
    (ih : ∀ {mode depth ls}, scan? mode s = some ls →
      ClosesLast (depth + 1) (ls.map Lexeme.mark?) → Stops mode depth s ls) :
    Stops .between depth (c :: s) ls := by
  rcases scan?_between_cons c s with ⟨gap, eq⟩ | ⟨rfl, eq⟩ | ⟨m, rfl, eq⟩ | ⟨word, eq⟩
  · exact (ih (eq ▸ scanned) closes).gap gap
  · exact (ih (eq ▸ scanned) closes).cons rfl rfl rfl
  · rw [eq, Option.map_eq_some_iff] at scanned
    obtain ⟨rest, scanned, rfl⟩ := scanned
    obtain ⟨-, closes⟩ := closes
    cases m with
    | openArray => exact (ih scanned closes).cons rfl rfl rfl
    | closeArray =>
      cases depth with
      | zero =>
        cases rest with
        | nil => exact ⟨[], s, rfl, isGap_of_scan?_nil scanned, rfl⟩
        | cons l rest => cases closes.1
      | succ depth => exact (ih scanned closes).cons rfl rfl rfl
    | openObject => exact (ih scanned closes).cons rfl rfl rfl
    | closeObject => exact (ih scanned closes).cons rfl rfl rfl
    | comma => exact (ih scanned closes).cons rfl rfl rfl
    | colon => exact (ih scanned closes).cons rfl rfl rfl
  · exact (ih (eq ▸ scanned) closes).wordChar word (.inr ⟨rfl, rfl⟩)

/-- A word that ends before the next lexeme does not concern the search. -/
theorem Stops.word {done : List Char} (stops : Stops .between depth (c :: s) ls)
    (ends : isWordChar c = false) :
    Stops (.inWord done) depth (c :: s) (.word done.reverse :: ls) := by
  obtain ⟨inside, after, found, gaps, same⟩ := stops
  have first : ∀ d ∈ (inside ++ [']']).head?, isWordChar d = false := by
    have eq := eq_of_splitClosing? found
    cases inside with
    | nil => simpa using (by decide : isWordChar ']' = false)
    | cons d inside => simpa using (List.cons.inj eq).1 ▸ ends
  exact ⟨inside, after, found, gaps, by rw [scan?_inWord_of_head first, same, Option.map_some]⟩

/-- On lexemes of which the last closes the last of the open square brackets the search stops. -/
theorem stops_of_scan? (scanned : scan? mode s = some ls)
    (closes : ClosesLast (depth + 1) (ls.map Lexeme.mark?)) : Stops mode depth s ls := by
  induction s generalizing mode depth ls with
  | nil =>
    cases mode with
    | between =>
      cases scanned
      cases closes
    | inWord done =>
      cases scanned
      cases closes.2
    | inQuotes done => cases scanned
    | escaped done => cases scanned
  | cons c s ih =>
    cases mode with
    | between => exact stops_between scanned closes ih
    | inWord done =>
      cases word : isWordChar c with
      | true =>
        have rest : scan? (.inWord (c :: done)) s = some ls := by
          simpa [scan?, step, word] using scanned
        exact (ih rest closes).wordChar word (.inl rfl)
      | false =>
        rw [scan?_inWord_of_head (by simpa using word), Option.map_eq_some_iff] at scanned
        obtain ⟨rest, scanned, rfl⟩ := scanned
        exact (stops_between scanned closes.2 ih).word word
    | inQuotes done =>
      by_cases quote : c = '"'
      · subst quote
        obtain ⟨rest, scannedRest, rfl⟩ := Option.map_eq_some_iff.mp scanned
        exact (ih scannedRest closes.2).cons rfl rfl rfl
      · by_cases backslash : c = '\\'
        · subst backslash
          have rest : scan? (.escaped ('\\' :: done)) s = some ls := by
            simpa [scan?, step] using scanned
          exact (ih rest closes).cons rfl rfl rfl
        · have rest : scan? (.inQuotes (c :: done)) s = some ls := by
            simpa [scan?, step, quote, backslash] using scanned
          refine (ih rest closes).cons ?_ ?_ ?_
          · simp [Scan.ofMode, splitClosing?, quote, backslash]
          · simp [step, quote, backslash]
          · simp [step, quote, backslash]
    | escaped done =>
      have rest : scan? (.inQuotes (c :: done)) s = some ls := by simpa [scan?, step] using scanned
      exact (ih rest closes).cons rfl rfl rfl

/-- In a text that is read as an array the search finds the end of the array, and what it cuts out
gives the values of the array. -/
theorem exists_literal_of_ofChars? {elements : List Json}
    (read : ofChars? s = some (.arr elements)) :
    ∃ front body inside back, s = front ++ '[' :: body ∧ (∀ c ∈ front, isGap c = true) ∧
      splitClosing? .plain 0 body = some (inside, back) ∧ (∀ c ∈ back, isGap c = true) ∧
      literalValues inside = elements.map (·.plainText.toList) := by
  obtain ⟨ls, scanned, closes⟩ := exists_lexemes_of_ofChars? read
  obtain ⟨front, body, rfl, gaps, scannedBody⟩ := exists_of_scan?_mark scanned
  obtain ⟨inside, back, found, gapsBack, same⟩ := stops_of_scan? scannedBody closes
  refine ⟨front, body, inside, back, rfl, gaps, found, gapsBack, ?_⟩
  have opened : scan? .between ('[' :: (inside ++ [']'])) = some (.mark .openArray :: ls) := by
    have rest : scan? .between ('[' :: (inside ++ [']'])) =
        (scan? .between (inside ++ [']'])).map (.mark .openArray :: ·) := rfl
    rw [rest, show scan? .between (inside ++ [']']) = some ls from same, Option.map_some]
  rw [literalValues, ofChars?_congr (opened.trans scanned.symm), read]

end Line

end ShapeLines
