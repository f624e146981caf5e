import ShapeLines.Proofs.Line.Pairs

/-!
# Cutting lines at their commas

A line is cut at its commas in two ways. The expansion of literals searches for the next comma that
separates and goes on behind it, and for it a backslash escapes any character; the tokens of a line
are read in one go, and there only commas and backslashes are escaped. Both cut the line at the same
commas: a token is what is left of a piece when its escapes are taken away. Escaped texts with
commas between them are therefore read back as they were.
-/

namespace ShapeLines.Line

variable {s p t : List Char} {back : List (List Char)}

/-- The pieces are what stands before each comma that separates, and what stands behind the last. -/
theorem pieces_eq (s : List Char) : pieces s = match throughComma? s with
    | some (before, after) => before.dropLast :: pieces after
    | none => [s] := by
  have extended (w : List Char) {rest : List Char}
      (ih : pieces rest = match throughComma? rest with
        | some (before, after) => before.dropLast :: pieces after
        | none => [rest]) :
      (pieces rest).modifyHead (w ++ ·) =
        match (throughComma? rest).map fun q => (w ++ q.1, q.2) with
        | some (before, after) => before.dropLast :: pieces after
        | none => [w ++ rest] := by
    rw [ih]
    cases found : throughComma? rest with
    | none => rfl
    | some parts =>
      obtain ⟨p, u, before, -, -⟩ := exists_sealed_of_throughComma? found
      simp [before, ← List.append_assoc]
  fun_induction pieces s with
  | case1 => rfl
  | case2 => rfl
  | case3 c rest ih => exact extended ['\\', c] ih
  | case4 rest _ _ ih => rw [throughComma?_comma]; rfl
  | case5 c rest last escape comma ih =>
    rw [throughComma?_cons (ne_backslash last escape), if_neg comma]
    exact extended [c] ih

theorem throughComma?_of_tokens (one : tokens s = [t]) : throughComma? s = none := by
  cases found : throughComma? s with
  | none => rfl
  | some parts =>
    obtain ⟨p, u, -, rfl, whole⟩ := exists_sealed_of_throughComma? found
    rw [whole.splits, whole.tokens] at one
    exact absurd (List.cons.inj one).2 (tokens_ne_nil _)

theorem pieces_of_tokens (one : tokens s = [t]) : pieces s = [s] := by
  rw [pieces_eq, throughComma?_of_tokens one]

theorem Sealed.pieces (whole : Sealed p t) (rest : List Char) :
    pieces (p ++ ',' :: rest) = p :: pieces rest := by
  rw [pieces_eq, throughComma?_of_sealed whole]
  simp

/-- A line is one piece, or it is a piece, a comma that separates and what follows. -/
theorem one_or_comma (s : List Char) :
    (∃ t, tokens s = [t]) ∨ ∃ p t rest, Sealed p t ∧ s = p ++ ',' :: rest := by
  cases found : throughComma? s with
  | none => exact .inl (exists_tokens_of_throughComma? found)
  | some parts =>
    obtain ⟨p, t, -, eq, whole⟩ := exists_sealed_of_throughComma? found
    exact .inr ⟨p, t, parts.2, whole, eq⟩

@[elab_as_elim]
theorem commaInduction {P : List Char → Prop} (last : ∀ p t, tokens p = [t] → P p)
    (comma : ∀ p t rest, Sealed p t → P rest → P (p ++ ',' :: rest)) (s : List Char) : P s := by
  rcases one_or_comma s with ⟨t, one⟩ | ⟨p, t, rest, whole, eq⟩
  · exact last s t one
  · rw [eq]
    exact comma p t rest whole (commaInduction last comma rest)
termination_by s.length
decreasing_by
  rw [eq, List.length_append, List.length_cons]
  omega

theorem pieces_eq_cons (cut : pieces s = p :: back) :
    (back = [] ∧ s = p ∧ ∃ t, tokens p = [t]) ∨
      ∃ t rest, Sealed p t ∧ s = p ++ ',' :: rest ∧ back = pieces rest := by
  rcases one_or_comma s with ⟨t, one⟩ | ⟨q, t, rest, whole, rfl⟩
  · rw [pieces_of_tokens one] at cut
    obtain ⟨rfl, rfl⟩ := List.cons.inj cut
    exact .inl ⟨rfl, rfl, t, one⟩
  · rw [whole.pieces] at cut
    obtain ⟨rfl, rfl⟩ := List.cons.inj cut
    exact .inr ⟨t, rest, whole, rfl, rfl⟩

/-! ## Piece after piece -/

/-- What a line is cut into right behind each comma that the search finds, where the search starts
anew behind the comma. -/
def cutBehindCommas (s : List Char) : List (List Char) :=
  match _found : throughComma? s with
  | some (before, after) => before :: cutBehindCommas after
  | none => [s]
termination_by s.length
decreasing_by exact length_throughComma _found

/-- Pieces of a line, each but the last with the comma behind it. -/
def withCommas : List (List Char) → List (List Char)
  | [] => []
  | [p] => [p]
  | p :: q :: back => (p ++ [',']) :: withCommas (q :: back)

/-- A piece with its escapes taken away. -/
def unescaped : List Char → List Char
  | [] => []
  | '\\' :: ',' :: rest => ',' :: unescaped rest
  | '\\' :: '\\' :: rest => '\\' :: unescaped rest
  | c :: rest => c :: unescaped rest

theorem cutBehindCommas_of_tokens (one : tokens s = [t]) : cutBehindCommas s = [s] := by
  rw [cutBehindCommas]
  split
  · next found => rw [throughComma?_of_tokens one] at found; contradiction
  · rfl

theorem Sealed.cutBehindCommas (whole : Sealed p t) (rest : List Char) :
    cutBehindCommas (p ++ ',' :: rest) = (p ++ [',']) :: Line.cutBehindCommas rest := by
  rw [Line.cutBehindCommas]
  split
  · next found =>
    rw [throughComma?_of_sealed whole] at found
    obtain ⟨rfl, rfl⟩ := Prod.mk.inj (Option.some.inj found)
    rfl
  · next none => rw [throughComma?_of_sealed whole] at none; contradiction

theorem withCommas_cons (some : back ≠ []) :
    withCommas (p :: back) = (p ++ [',']) :: withCommas back := by
  cases back with
  | nil => contradiction
  | cons q back => rfl

theorem flatten_withCommas (ps : List (List Char)) :
    (withCommas ps).flatten = List.intercalate [','] ps := by
  fun_induction withCommas ps with
  | case1 => rfl
  | case2 p => simp
  | case3 p q back ih => rw [List.flatten_cons, ih, List.intercalate_cons_cons]

theorem cutBehindCommas_eq (s : List Char) : cutBehindCommas s = withCommas (pieces s) := by
  induction s using commaInduction with
  | last p t one => rw [cutBehindCommas_of_tokens one, pieces_of_tokens one]; rfl
  | comma p t rest whole ih =>
    rw [whole.cutBehindCommas, whole.pieces, withCommas_cons (pieces_ne_nil rest), ih]

theorem unescaped_of_tokens (one : tokens s = [t]) : unescaped s = t := by
  have extended {c : Char} {rest t : List Char} (cut : (tokens rest).modifyHead (c :: ·) = [t])
      (ih : ∀ {t}, tokens rest = [t] → unescaped rest = t) : c :: unescaped rest = t := by
    obtain ⟨u, alone, rfl⟩ := eq_of_modifyHead_eq_singleton (u := [c]) cut
    rw [ih alone]
    rfl
  fun_induction tokens s generalizing t with
  | case1 => exact (List.cons.inj one).1
  | case2 rest ih => exact extended one ih
  | case3 rest ih => exact extended one ih
  | case4 rest _ _ ih => exact absurd (List.cons.inj one).2 (tokens_ne_nil rest)
  | case5 c rest comma backslash _ ih =>
    rw [unescaped.eq_4 _ _ comma backslash]
    exact extended one ih

theorem tokens_eq_map_unescaped (s : List Char) : tokens s = (pieces s).map unescaped := by
  induction s using commaInduction with
  | last p t one => rw [pieces_of_tokens one, one, List.map_singleton, unescaped_of_tokens one]
  | comma p t rest whole ih =>
    rw [whole.splits, whole.tokens, ih, whole.pieces, List.map_cons,
      unescaped_of_tokens whole.tokens, List.singleton_append]

theorem expand_of_pieces (plain : ∀ p ∈ pieces s, opening? p = none) : expand s = .ok s := by
  induction s using commaInduction with
  | last p t one =>
    rw [pieces_of_tokens one, List.forall_mem_singleton] at plain
    rw [expand_of_opening?_eq_none plain, throughComma?_of_tokens one]
  | comma p t rest whole ih =>
    rw [whole.pieces, List.forall_mem_cons] at plain
    rw [(Expands.same whole plain.1).more, ih plain.2]
    rfl

/-- What the comma behind a piece adds opens no literal. -/
theorem opening?_of_withCommas {ps : List (List Char)}
    (closed : ∀ p ∈ withCommas ps, opening? p = none) : ∀ p ∈ ps, opening? p = none := by
  fun_induction withCommas ps with
  | case1 => exact closed
  | case2 p => exact closed
  | case3 p q back ih =>
    obtain ⟨first, others⟩ := List.forall_mem_cons.mp closed
    rw [opening?_append_comma, Option.map_eq_none_iff] at first
    exact List.forall_mem_cons.mpr ⟨first, ih others⟩

theorem tokens_intercalate_escape {vs : List (List Char)} (some : vs ≠ []) :
    tokens (List.intercalate [','] (vs.map escape)) = vs := by
  induction vs with
  | nil => contradiction
  | cons v vs ih =>
    rw [List.map_cons]
    cases vs with
    | nil => simpa using (sealed_escape v).tokens
    | cons w vs =>
      rw [List.intercalate_cons_of_ne_nil (by simp), List.append_assoc, List.singleton_append,
        (sealed_escape v).splits, (sealed_escape v).tokens, ih (by simp), List.singleton_append]

/-- The search for commas and the reading of tokens cut every line into the same pieces, a line of
which no piece opens a literal is its own expansion, and escapes are undone by reading. -/
theorem tokens_cutBehindCommas :
    (∀ s, cutBehindCommas s = withCommas (pieces s) ∧ (cutBehindCommas s).flatten = s ∧
        tokens s = (pieces s).map unescaped ∧
        ((∀ p ∈ cutBehindCommas s, opening? p = none) → expand s = .ok s)) ∧
      ∀ vs, vs ≠ [] → tokens (List.intercalate [','] (vs.map escape)) = vs := by
  refine ⟨fun s => ⟨cutBehindCommas_eq s, ?_, tokens_eq_map_unescaped s, fun closed => ?_⟩,
    fun vs => tokens_intercalate_escape⟩
  · rw [cutBehindCommas_eq, flatten_withCommas, intercalate_pieces]
  · rw [cutBehindCommas_eq] at closed
    exact expand_of_pieces (opening?_of_withCommas closed)

/-- A line with runs of backslashes before its commas and one at its end. -/
def backslashLine : List Char :=
  "a\\\\\\,b,c\\\\,\\d,,\\".toList

/-- Of three backslashes before a comma the last escapes it, of two none does. -/
theorem tokens_cutBehindCommas_backslashes :
    (∀ p ∈ cutBehindCommas backslashLine, opening? p = none) ∧
      cutBehindCommas backslashLine =
        ["a\\\\\\,b,".toList, "c\\\\,".toList, "\\d,".toList, [','], ['\\']] ∧
      tokens backslashLine = ["a\\,b".toList, "c\\".toList, "\\d".toList, [], ['\\']] ∧
      expand backslashLine = .ok backslashLine ∧
      ["a\\,b".toList, [], ['\\']] ≠ [] ∧
      tokens "a\\\\\\,b,,\\\\".toList = ["a\\,b".toList, [], ['\\']] := by
  obtain ⟨cut, -, read, same⟩ := tokens_cutBehindCommas.1 backslashLine
  have closed : ∀ p ∈ cutBehindCommas backslashLine, opening? p = none := by
    rw [cut]
    decide
  refine ⟨closed, cut.trans (by decide), read.trans (by decide), same closed, by decide, ?_⟩
  exact tokens_cutBehindCommas.2 ["a\\,b".toList, [], ['\\']] (by decide)

end ShapeLines.Line
