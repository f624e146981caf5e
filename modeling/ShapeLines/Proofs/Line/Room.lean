import Mathlib.Algebra.GroupWithZero.Nat
import Mathlib.Data.List.Perm.Subperm
import ShapeLines.Proofs.Line.Tells

/-!
# The room that pairs take

The room of a text is two for each character of its tokens and one for each token. A comma that
separates takes less room than a character, and an escape takes the room of the one character that
it stands for. So a text has at most the room of its characters, and a label has it in full only if
it is read as it is written. The pairs that a line tells take no more room than the line has.
-/

namespace ShapeLines.Line

variable {s t w rest : List Char}

def room (s : List Char) : Nat :=
  ((tokens s).map fun t => 2 * t.length + 1).sum

@[simp] theorem room_nil : room [] = 1 := rfl

theorem room_of_tokens (one : tokens s = [t]) : room s = 2 * t.length + 1 := by
  simp [room, one]

theorem room_comma (rest : List Char) : room (',' :: rest) = room rest + 1 := by
  simp [room, Nat.add_comm]

theorem Sealed.room_append (h : Sealed w t) (rest : List Char) :
    room (w ++ rest) = room rest + 2 * t.length := by
  obtain ⟨u, us, eq⟩ := List.exists_cons_of_ne_nil (tokens_ne_nil rest)
  rw [room, room, h.token, eq]
  simp only [List.modifyHead_cons, List.map_cons, List.sum_cons, List.length_append]
  omega

theorem room_cons {c : Char} (comma : c ≠ ',') (backslash : c ≠ '\\') (rest : List Char) :
    room (c :: rest) = room rest + 2 :=
  (sealed_singleton comma backslash).room_append rest

theorem room_backslash (c : Char) :
    ∃ u, Sealed ['\\', c] u ∧ ∀ rest, room ('\\' :: c :: rest) = room rest + 2 * u.length := by
  obtain ⟨u, start⟩ := sealed_backslash c
  exact ⟨u, start, start.room_append⟩

theorem room_pos (s : List Char) : 0 < room s := by
  obtain ⟨u, us, eq⟩ := List.exists_cons_of_ne_nil (tokens_ne_nil s)
  rw [room, eq, List.map_cons, List.sum_cons]
  omega

/-! ## Room on both sides -/

/-- If nothing is escaped behind a text, its last token goes on. -/
theorem room_append (ends : endsEscaped s = false) (rest : List Char) :
    room (s ++ rest) + 1 = room s + room rest := by
  fun_induction endsEscaped s with
  | case1 => simp [Nat.add_comm]
  | case2 => cases ends
  | case3 c s ih =>
    obtain ⟨u, -, step⟩ := room_backslash c
    have tail := ih ends
    rw [List.cons_append, List.cons_append, step, step]
    omega
  | case4 c s last escape ih =>
    have tail := ih ends
    by_cases comma : c = ','
    · subst comma
      rw [List.cons_append, room_comma, room_comma]
      omega
    · have step := room_cons comma (ne_backslash last escape)
      rw [List.cons_append, step, step]
      omega

theorem exists_of_endsEscaped (ends : endsEscaped s = true) :
    ∃ front, s = front ++ ['\\'] ∧ endsEscaped front = false := by
  fun_induction endsEscaped s with
  | case1 => cases ends
  | case2 => exact ⟨[], rfl, rfl⟩
  | case3 c s ih =>
    obtain ⟨front, rfl, whole⟩ := ih ends
    exact ⟨'\\' :: c :: front, rfl, whole⟩
  | case4 c s last escape ih =>
    obtain ⟨front, rfl, whole⟩ := ih ends
    exact ⟨c :: front, rfl, by rwa [endsEscaped_cons (ne_backslash last escape)]⟩

/-- What stands before a comma and what stands behind it have their room each, unless a backslash
escapes the comma. -/
theorem room_append_comma (s rest : List Char) :
    room (s ++ ',' :: rest) + (if endsEscaped s then 1 else 0) = room s + room rest := by
  cases ends : endsEscaped s with
  | false =>
    have joined := room_append ends (',' :: rest)
    rw [room_comma] at joined
    simp only [Bool.false_eq_true, ↓reduceIte]
    omega
  | true =>
    obtain ⟨front, rfl, whole⟩ := exists_of_endsEscaped ends
    have joined := room_append whole ('\\' :: ',' :: rest)
    have alone := room_append whole ['\\']
    have escaped : room ('\\' :: ',' :: rest) = room rest + 2 :=
      (sealed_escaped (.inl rfl)).room_append rest
    have backslash : room ['\\'] = 3 := rfl
    rw [List.append_assoc, List.singleton_append]
    simp only [↓reduceIte]
    omega

/-- A character that ends no token and escapes nothing takes the place of a comma. -/
theorem room_append_cons {c : Char} (comma : c ≠ ',') (backslash : c ≠ '\\') (s rest : List Char) :
    room (s ++ c :: rest) = room s + room rest + 1 := by
  cases ends : endsEscaped s with
  | false =>
    have joined := room_append ends (c :: rest)
    rw [room_cons comma backslash] at joined
    omega
  | true =>
    obtain ⟨front, rfl, whole⟩ := exists_of_endsEscaped ends
    have joined := room_append whole ('\\' :: c :: rest)
    have alone := room_append whole ['\\']
    have unescaped : room ('\\' :: c :: rest) = room rest + 4 :=
      (sealed_unescaped comma backslash).room_append rest
    have single : room ['\\'] = 3 := rfl
    rw [List.append_assoc, List.singleton_append]
    omega

/-- A text has at most the room of its characters, and less if it is not read as it is written. -/
theorem room_spec (s : List Char) :
    room s ≤ 2 * s.length + 1 ∧ (2 * s.length + 1 ≤ room s → Kept s) := by
  fun_induction endsEscaped s with
  | case1 => exact ⟨Nat.le_refl 1, fun _ => rfl⟩
  | case2 => exact ⟨by decide, fun _ => rfl⟩
  | case3 c s ih =>
    obtain ⟨most, full⟩ := ih
    by_cases escape : c = ',' ∨ c = '\\'
    · have step : room ('\\' :: c :: s) = room s + 2 := (sealed_escaped escape).room_append s
      rw [step, List.length_cons, List.length_cons]
      exact ⟨by omega, fun more => by omega⟩
    · rw [not_or] at escape
      have start := sealed_unescaped escape.1 escape.2
      have step : room ('\\' :: c :: s) = room s + 4 := start.room_append s
      rw [step, List.length_cons, List.length_cons]
      exact ⟨by omega, fun more => start.kept_append (full (by omega))⟩
  | case4 c s last escape ih =>
    obtain ⟨most, full⟩ := ih
    by_cases comma : c = ','
    · subst comma
      rw [room_comma, List.length_cons]
      exact ⟨by omega, fun more => by omega⟩
    · have start := sealed_singleton comma (ne_backslash last escape)
      rw [room_cons comma (ne_backslash last escape), List.length_cons]
      exact ⟨by omega, fun more => start.kept_append (full (by omega))⟩

/-! ## What the pairs of a line take -/

/-- The characters of the token that a pair is written as, without its escapes. -/
def Pair.size (pair : Pair) : Nat :=
  pair.1.length + if pair.2 = "true" then 0 else pair.2.length + 1

/-- The room that a pair takes. The pairs of lists are left out, since they can come from literals.
-/
def Pair.room (pair : Pair) : Nat :=
  if pair.1 ∈ listKeys then 0 else 2 * pair.size + 1

theorem size_le_of_pairOf {pair : Pair} (read : pairOf t = .ok pair) : pair.size ≤ t.length := by
  rcases pairOf_spec read with ⟨-, rfl⟩ | ⟨key, value, rfl, -, -, rfl⟩
  · simp [Pair.size]
  · have front := (Text.infix_trim key).length_le
    have back := (Text.infix_trim value).length_le
    simp only [Pair.size, String.length_ofList, List.length_append, List.length_cons]
    split <;> omega

theorem sum_room_le_of_token {ps : List Pair} (one : tokens s = [t])
    (read : pairsOfTokens s = .ok ps) : (ps.map Pair.room).sum ≤ room s := by
  rcases pairsOfTokens_spec one read with rfl | ⟨pair, rfl, -, readPair⟩
  · exact Nat.zero_le _
  · have size := size_le_of_pairOf readPair
    have trimmed := (Text.infix_trim t).length_le
    rw [room_of_tokens one]
    simp only [List.map_cons, List.map_nil, List.sum_cons, List.sum_nil, Pair.room]
    split <;> omega

theorem sum_room_valuePairs {key : String} (isList : key ∈ listKeys) (values : List (List Char)) :
    ((valuePairs key values).map Pair.room).sum = 0 := by
  induction values with
  | nil => rfl
  | cons v values ih =>
    have free : Pair.room (key, String.ofList (Text.trim v)) = 0 := if_pos isList
    rw [valuePairs, List.map_cons, List.map_cons, List.sum_cons, free, ← valuePairs, ih]

/-- The pairs that a line tells take no more room than it has. -/
theorem Tells.sum_room_le {ps : List Pair} (tells : Tells s ps) :
    (ps.map Pair.room).sum ≤ room s := by
  induction tells with
  | token one read => exact sum_room_le_of_token one read
  | @tokenBefore p t rest ps more whole read behind ih =>
    have first := sum_room_le_of_token whole.tokens read
    rw [room_of_tokens whole.tokens] at first
    rw [List.map_append, List.sum_append, whole.room_append, room_comma]
    omega
  | literal s isList values =>
    rw [sum_room_valuePairs isList]
    exact Nat.zero_le _
  | literalBefore front back isList values behind ih =>
    rename_i rest key more
    have behindBack := room_append_comma back rest
    have backPos := room_pos back
    rw [List.map_append, List.sum_append, sum_room_valuePairs isList,
      room_append_cons (by decide) (by decide)]
    split at behindBack <;> omega

/-- Different pairs that are among those of a line take no more room together. -/
theorem sum_room_le_of_subset {ps qs : List Pair} (nodup : ps.Nodup) (sub : ps ⊆ qs) :
    (ps.map Pair.room).sum ≤ (qs.map Pair.room).sum := by
  obtain ⟨found, same, part⟩ := List.subperm_of_subset nodup sub
  obtain ⟨others, whole⟩ := part.exists_perm_append
  rw [(whole.map Pair.room).sum_nat, List.map_append, List.sum_append,
    (same.map Pair.room).sum_nat]
  exact Nat.le_add_right _ _

end ShapeLines.Line
