import ShapeLines.Json.Text

/-!
# Quoted texts read back

A text that has been quoted reads back as itself. Two things carry this: what stands between quotes
is decoded to what was encoded, and no character between the quotes is taken for the closing quote.
-/

namespace ShapeLines.Json

namespace Quoted

theorem ofLetter?_letter? {c l : Char} (h : letter? c = some l) : ofLetter? l = some c := by
  unfold letter? at h
  split at h
  all_goals first
    | cases h; rfl
    | cases h

theorem letter?_ne_u {c l : Char} (h : letter? c = some l) : l ≠ 'u' := by
  rintro rfl
  have back := ofLetter?_letter? h
  exact absurd back (by simp [ofLetter?])

theorem ne_of_letter?_eq_none {c : Char} (h : letter? c = none) : c ≠ '"' ∧ c ≠ '\\' := by
  constructor
  · rintro rfl
    simp [letter?] at h
  · rintro rfl
    simp [letter?] at h

theorem hexDigit?_digitChar : ∀ n : Nat, n < 16 → hexDigit? (Nat.digitChar n) = some n := by
  decide

theorem decode?_letter {c l : Char} (h : letter? c = some l) (rest : List Char) :
    decode? ('\\' :: l :: rest) = (decode? rest).map (c :: ·) := by
  rw [decode?.eq_3 _ _ (by simp [letter?_ne_u h])]
  simp [ofLetter?_letter? h]

theorem decode?_control {c : Char} (h : c.toNat < 0x20) (rest : List Char) :
    decode? ('\\' :: 'u' :: '0' :: '0' :: Nat.digitChar (c.toNat / 16) ::
      Nat.digitChar (c.toNat % 16) :: rest) = (decode? rest).map (c :: ·) := by
  have high := hexDigit?_digitChar (c.toNat / 16) (by omega)
  have low := hexDigit?_digitChar (c.toNat % 16) (by omega)
  have zero : hexDigit? '0' = some 0 := by decide
  have unit : unit? '0' '0' (Nat.digitChar (c.toNat / 16)) (Nat.digitChar (c.toNat % 16)) =
      some c.toNat := by
    simp only [unit?, zero, high, low, Option.bind_eq_bind, Option.bind_some, Option.pure_def,
      Option.some.injEq]
    omega
  have notLow : isLowHalf c.toNat = false := by
    simp only [isLowHalf, Bool.and_eq_false_iff, decide_eq_false_iff_not]
    omega
  have notHigh : isHighHalf c.toNat = false := by
    simp only [isHighHalf, Bool.and_eq_false_iff, decide_eq_false_iff_not]
    omega
  rw [decode?.eq_2]
  simp [unit, notLow, notHigh, Char.ofNat_toNat]

theorem decode?_plain {c : Char} (backslash : c ≠ '\\') (h : 0x20 ≤ c.toNat) (rest : List Char) :
    decode? (c :: rest) = (decode? rest).map (c :: ·) := by
  rw [decode?.eq_4 _ _ (by simp [backslash]) (by simp [backslash])]
  rw [if_neg (by simp only [backslash, false_or]; omega)]

theorem decode?_encodeChar (c : Char) (rest : List Char) :
    decode? (encodeChar c ++ rest) = (decode? rest).map (c :: ·) := by
  unfold encodeChar
  split
  · next h => exact decode?_letter h rest
  · next h =>
    split
    · next control => exact decode?_control control rest
    · next control =>
      exact decode?_plain (ne_of_letter?_eq_none h).2 (Nat.le_of_not_lt control) rest

theorem decode?_encode (s : List Char) : decode? (encode s) = some s := by
  induction s with
  | nil => rfl
  | cons c s ih =>
    rw [encode, List.flatMap_cons, decode?_encodeChar, ← encode, ih]
    rfl

end Quoted

namespace Lexeme

/-- The end of a quoted text is not looked for inside an encoded character. -/
theorem scan?_encodeChar (c : Char) (done rest : List Char) :
    scan? (.inQuotes done) (Quoted.encodeChar c ++ rest) =
      scan? (.inQuotes ((Quoted.encodeChar c).reverse ++ done)) rest := by
  unfold Quoted.encodeChar
  split
  · simp [scan?, step]
  · next h =>
    split
    · have plain : ∀ n : Nat, n < 16 → Nat.digitChar n ≠ '"' ∧ Nat.digitChar n ≠ '\\' := by decide
      have high := plain (c.toNat / 16) (by omega)
      have low := plain (c.toNat % 16) (by omega)
      simp [scan?, step, high, low]
    · have plain := Quoted.ne_of_letter?_eq_none h
      simp [scan?, step, plain]

theorem scan?_encode (s done rest : List Char) :
    scan? (.inQuotes done) (Quoted.encode s ++ rest) =
      scan? (.inQuotes ((Quoted.encode s).reverse ++ done)) rest := by
  induction s generalizing done with
  | nil => rfl
  | cons c s ih =>
    rw [Quoted.encode, List.flatMap_cons, ← Quoted.encode, List.append_assoc, scan?_encodeChar, ih]
    simp

theorem scan?_quoted (s : String) (rest : List Char) :
    scan? .between ((Token.str s).text ++ rest) =
      (scan? .between rest).map (.quoted (Quoted.encode s.toList) :: ·) := by
  have opened : scan? .between ((Token.str s).text ++ rest) =
      scan? (.inQuotes []) (Quoted.encode s.toList ++ '"' :: rest) := by
    simp [Token.text, scan?, step, start, isGap]
  rw [opened, scan?_encode]
  simp [scan?, step]

theorem scan?_mark (m : Mark) (rest : List Char) :
    scan? .between ((Token.mark m).text ++ rest) = (scan? .between rest).map (.mark m :: ·) := by
  cases m <;> simp [Token.text, Mark.char, scan?, step, start, isGap, Mark.ofChar?]

end Lexeme

/-- Whether a token is a mark or a text, so that no token has to stand apart from it. -/
def Token.standsAlone : Token → Bool
  | .mark _ => true
  | .str _ => true
  | _ => false

theorem Token.scan?_text {t : Token} (h : t.standsAlone) (rest : List Char) :
    ∃ l, Lexeme.scan? .between (t.text ++ rest) = (Lexeme.scan? .between rest).map (l :: ·) ∧
      Token.ofLexeme? l = some t := by
  cases t with
  | mark m => exact ⟨_, Lexeme.scan?_mark m rest, rfl⟩
  | str s =>
    refine ⟨_, Lexeme.scan?_quoted s rest, ?_⟩
    simp [ofLexeme?, Quoted.decode?_encode]
  | null => simp [standsAlone] at h
  | bool b => simp [standsAlone] at h
  | num n => simp [standsAlone] at h

end ShapeLines.Json
