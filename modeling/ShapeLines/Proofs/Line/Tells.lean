import ShapeLines.Proofs.Line.Pairs
import ShapeLines.Proofs.Results

/-!
# What a line tells

A line that can be read is a sequence of tokens and list literals, and it tells the pairs of each in
turn. `Tells` follows the line in this way, so what holds of the pairs of every token and of every
literal holds of all pairs of the line. All keys are labels and all values are trimmed. A value can
hold a line feed that the line does not hold, but only under a key that holds lists.
-/

namespace ShapeLines.Line

open Results
open Text (Trimmed OneLine)

/-- How the pairs of a line come about. -/
inductive Tells : List Char → List Pair → Prop
  | token {s t : List Char} {ps : List Pair} (one : tokens s = [t])
      (read : pairsOfTokens s = .ok ps) : Tells s ps
  | tokenBefore {p t rest : List Char} {ps more : List Pair} (whole : Sealed p t)
      (read : pairsOfTokens p = .ok ps) (behind : Tells rest more) :
      Tells (p ++ ',' :: rest) (ps ++ more)
  | literal (s : List Char) {key : String} (isList : key ∈ listKeys) (values : List (List Char)) :
      Tells s (valuePairs key values)
  | literalBefore (front back : List Char) {rest : List Char} {key : String} {more : List Pair}
      (isList : key ∈ listKeys) (values : List (List Char)) (behind : Tells rest more) :
      Tells (front ++ ']' :: (back ++ ',' :: rest)) (valuePairs key values ++ more)

/-! ## Every line that can be read tells its pairs -/

theorem after?_suffix {start s rest : List Char} (h : Text.after? start s = some rest) :
    rest <:+ s :=
  ⟨start, (Text.after?_eq_some_iff.mp h).symm⟩

theorem trimStart_suffix (s : List Char) : Text.trimStart s <:+ s :=
  List.dropWhile_suffix Text.isBlank

/-- A literal is opened under a key that holds lists, and what follows the bracket ends the text. -/
theorem opening?_spec {s body : List Char} {key : String} (h : opening? s = some (key, body)) :
    key ∈ listKeys ∧ body <:+ s := by
  obtain ⟨k, isList, found⟩ := List.exists_of_findSome?_eq_some h
  simp only [Option.bind_eq_bind, Option.bind_eq_some_iff, Option.pure_def, Option.some.injEq,
    Prod.mk.injEq, afterOpening?] at found
  obtain ⟨t, afterKey, b, ⟨u, afterEquals, afterBracket⟩, rfl, rfl⟩ := found
  exact ⟨isList, (after?_suffix afterBracket).trans <| (trimStart_suffix u).trans <|
    (after?_suffix afterEquals).trans <| (trimStart_suffix t).trans <|
    (after?_suffix afterKey).trans (trimStart_suffix s)⟩

theorem literalPairs_eq_valueTexts (key : String) (inside : List Char) :
    literalPairs key inside = valueTexts key (literalValues inside) := rfl

/-- What the text tells that is left when the literals are replaced. -/
theorem tells_of_expand {s e : List Char} {ps : List Pair} (expanded : expand s = .ok e)
    (read : pairsOfTokens e = .ok ps) : Tells s ps := by
  fun_induction expand s generalizing e ps with
  | case1 s key body opens inside after closes ends =>
    obtain ⟨isList, -⟩ := opening?_spec opens
    obtain rfl := Except.ok.inj expanded
    rw [literalPairs_eq_valueTexts, pairsOfTokens_valueTexts isList] at read
    obtain rfl := Except.ok.inj read
    exact .literal s isList _
  | case2 s key body opens inside after closes rest behind ih =>
    obtain ⟨isList, front, rfl⟩ := opening?_spec opens
    obtain ⟨e', expandedRest, rfl⟩ := map_eq_ok_iff.mp expanded
    rw [literalPairs_eq_valueTexts, pairsOfTokens_append_comma (splits_valueTexts isList _),
      pairsOfTokens_valueTexts isList] at read
    obtain ⟨more, readRest, rfl⟩ := map_eq_ok_iff.mp read
    obtain ⟨back, blanks⟩ := trimStart_suffix after
    rw [behind] at blanks
    have tells := Tells.literalBefore (front ++ inside) back isList (literalValues inside)
      (ih expandedRest readRest)
    rwa [blanks, List.append_assoc, ← eq_of_splitClosing? closes] at tells
  | case3 => cases expanded
  | case4 => cases expanded
  | case5 s closed before after found ih =>
    obtain ⟨p, t, rfl, rfl, whole⟩ := exists_sealed_of_throughComma? found
    obtain ⟨e', expandedRest, rfl⟩ := map_eq_ok_iff.mp expanded
    rw [List.append_assoc, List.singleton_append, pairsOfTokens_append_comma whole.splits] at read
    obtain ⟨first, readFirst, readMore⟩ := bind_eq_ok_iff.mp read
    obtain ⟨more, readRest, rfl⟩ := map_eq_ok_iff.mp readMore
    exact .tokenBefore whole readFirst (ih expandedRest readRest)
  | case6 s closed none =>
    obtain ⟨t, one⟩ := exists_tokens_of_throughComma? none
    obtain rfl := Except.ok.inj expanded
    exact .token one read

theorem tells_of_pairs {s : List Char} {ps : List Pair} (read : pairs s = .ok ps) : Tells s ps := by
  obtain ⟨e, expanded, readExpanded⟩ := bind_eq_ok_iff.mp read
  exact tells_of_expand expanded readExpanded

/-! ## The pairs of a token -/

theorem not_mem_of_splitEquals? {s : List Char} (none : splitEquals? s = none) : '=' ∉ s := by
  induction s with
  | nil => exact List.not_mem_nil
  | cons c s ih =>
    rw [splitEquals?] at none
    split at none
    · cases none
    · next ne =>
      rw [List.mem_cons, not_or]
      exact ⟨Ne.symm ne, ih (Option.map_eq_none_iff.mp none)⟩

theorem eq_of_splitEquals? {s key value : List Char} (found : splitEquals? s = some (key, value)) :
    s = key ++ '=' :: value ∧ '=' ∉ key := by
  induction s generalizing key with
  | nil => cases found
  | cons c s ih =>
    rw [splitEquals?] at found
    split at found
    · next eq =>
      obtain ⟨rfl, rfl⟩ := Prod.mk.inj (Option.some.inj found)
      exact ⟨by rw [eq]; rfl, List.not_mem_nil⟩
    · next ne =>
      obtain ⟨⟨front, _⟩, behind, eq⟩ := Option.map_eq_some_iff.mp found
      obtain ⟨rfl, rfl⟩ := Prod.mk.inj eq
      obtain ⟨rfl, label⟩ := ih behind
      rw [List.mem_cons, not_or]
      exact ⟨rfl, Ne.symm ne, label⟩

/-- A token is a key alone, or a key and a value with `=` between them. -/
theorem pairOf_spec {t : List Char} {pair : Pair} (read : pairOf t = .ok pair) :
    ('=' ∉ t ∧ pair = (String.ofList t, "true")) ∨
      ∃ key value, t = key ++ '=' :: value ∧ '=' ∉ key ∧ Text.trim key ≠ [] ∧
        pair = (String.ofList (Text.trim key), String.ofList (Text.trim value)) := by
  unfold pairOf at read
  split at read
  · next none => exact .inl ⟨not_mem_of_splitEquals? none, (Except.ok.inj read).symm⟩
  · next key value found =>
    obtain ⟨whole, label⟩ := eq_of_splitEquals? found
    dsimp only at read
    split at read
    · cases read
    · next ne =>
      exact .inr ⟨key, value, whole, label, by simpa using ne, (Except.ok.inj read).symm⟩

/-- A token tells at most one pair. -/
theorem pairsOfTokens_spec {s t : List Char} {ps : List Pair} (one : tokens s = [t])
    (read : pairsOfTokens s = .ok ps) :
    ps = [] ∨ ∃ pair, ps = [pair] ∧ Text.trim t ≠ [] ∧ pairOf (Text.trim t) = .ok pair := by
  rw [pairsOfTokens, one, List.map_singleton] at read
  by_cases empty : Text.trim t = []
  · rw [List.filter_cons_of_neg (by simp [empty])] at read
    exact .inl (Except.ok.inj read).symm
  · rw [List.filter_cons_of_pos (by simp [empty])] at read
    obtain ⟨pair, readPair, rest⟩ := bind_eq_ok_iff.mp read
    exact .inr ⟨pair, (Except.ok.inj rest).symm, empty, readPair⟩

/-! ## What holds of the pairs -/

/-- What holds of a pair that one line tells. -/
structure IsTold (pair : Pair) : Prop where
  label : IsLabel pair.1.toList
  trimmed : Trimmed pair.2.toList
  oneLine : pair.1 ∉ listKeys → OneLine pair.2.toList

theorem isTold_of_pairOf {t : List Char} {pair : Pair} (ne : t ≠ []) (trimmed : Trimmed t)
    (one : OneLine t) (read : pairOf t = .ok pair) : IsTold pair := by
  rcases pairOf_spec read with ⟨label, rfl⟩ | ⟨key, value, rfl, label, some, rfl⟩
  · have text : IsLabel t := ⟨ne, trimmed, one, label⟩
    have flag : Trimmed "true".toList ∧ OneLine "true".toList := by decide
    exact ⟨by simpa using text, flag.1, fun _ => flag.2⟩
  · have oneKey : OneLine key := one.of_subset (List.subset_append_left key _)
    have oneValue : OneLine value :=
      one.of_subset (List.Subset.trans (List.subset_cons_self '=' value)
        (List.subset_append_right key _))
    have equals : '=' ∉ Text.trim key := fun mem => label ((Text.infix_trim key).subset mem)
    exact ⟨by simpa using ⟨some, Text.trimmed_trim key, oneKey.trim, equals⟩,
      by simpa using Text.trimmed_trim value, fun _ => by simpa using oneValue.trim⟩

theorem isTold_of_token {s t : List Char} {ps : List Pair} (one : tokens s = [t])
    (line : OneLine s) (read : pairsOfTokens s = .ok ps) : ∀ pair ∈ ps, IsTold pair := by
  rcases pairsOfTokens_spec one read with rfl | ⟨pair, rfl, ne, readPair⟩
  · exact List.forall_mem_nil _
  · have lineToken : OneLine t := line.of_subset (subset_of_mem_tokens (by simp [one]))
    exact List.forall_mem_singleton.mpr
      (isTold_of_pairOf ne (Text.trimmed_trim t) lineToken.trim readPair)

theorem isTold_of_mem_valuePairs {key : String} (isList : key ∈ listKeys)
    (values : List (List Char)) : ∀ pair ∈ valuePairs key values, IsTold pair := by
  intro pair mem
  obtain ⟨v, -, rfl⟩ := List.mem_map.mp mem
  exact ⟨(isKey_of_mem_listKeys key isList).label, by simpa using Text.trimmed_trim v,
    fun other => absurd isList other⟩

theorem Tells.isTold {s : List Char} {ps : List Pair} (tells : Tells s ps) (line : OneLine s) :
    ∀ pair ∈ ps, IsTold pair := by
  induction tells with
  | token one read => exact isTold_of_token one line read
  | @tokenBefore p t rest ps more whole read behind ih =>
    have front : OneLine p := line.of_subset (List.subset_append_left p _)
    have back : OneLine rest :=
      line.of_subset (List.Subset.trans (List.subset_cons_self ',' rest)
        (List.subset_append_right p _))
    exact List.forall_mem_append.mpr ⟨isTold_of_token whole.tokens front read, ih back⟩
  | literal s isList values => exact isTold_of_mem_valuePairs isList values
  | @literalBefore front back rest key more isList values behind ih =>
    have line' : OneLine rest := line.of_subset (by
      intro c mem
      simp [mem])
    exact List.forall_mem_append.mpr ⟨isTold_of_mem_valuePairs isList values, ih line'⟩

/-- Under a key that holds no list every pair is told by a token of the line. -/
theorem Tells.exists_token {s : List Char} {ps : List Pair} (tells : Tells s ps) :
    ∀ pair ∈ ps, pair.1 ∉ listKeys →
      ∃ w t, w <:+: s ∧ tokens w = [t] ∧ pairOf (Text.trim t) = .ok pair := by
  have own {w t : List Char} {ps : List Pair} (one : tokens w = [t])
      (read : pairsOfTokens w = .ok ps) : ∀ pair ∈ ps, pairOf (Text.trim t) = .ok pair := by
    rcases pairsOfTokens_spec one read with rfl | ⟨pair, rfl, -, readPair⟩
    · exact List.forall_mem_nil _
    · exact List.forall_mem_singleton.mpr readPair
  have notList {key : String} (isList : key ∈ listKeys) {values : List (List Char)} {pair : Pair}
      (mem : pair ∈ valuePairs key values) : pair.1 ∈ listKeys := by
    obtain ⟨v, -, rfl⟩ := List.mem_map.mp mem
    exact isList
  induction tells with
  | @token s t ps one read =>
    exact fun pair mem _ => ⟨s, t, List.infix_rfl, one, own one read pair mem⟩
  | @tokenBefore p t rest ps more whole read behind ih =>
    intro pair mem plain
    rcases List.mem_append.mp mem with here | later
    · exact ⟨p, t, (List.prefix_append p _).isInfix, whole.tokens, own whole.tokens read pair here⟩
    · obtain ⟨w, u, inRest, told⟩ := ih pair later plain
      exact ⟨w, u, inRest.trans ⟨p ++ [','], [], by simp⟩, told⟩
  | literal s isList values => exact fun pair mem plain => absurd (notList isList mem) plain
  | @literalBefore front back rest key more isList values behind ih =>
    intro pair mem plain
    rcases List.mem_append.mp mem with here | later
    · exact absurd (notList isList here) plain
    · obtain ⟨w, u, inRest, told⟩ := ih pair later plain
      exact ⟨w, u, inRest.trans ⟨front ++ ']' :: (back ++ [',']), [], by simp⟩, told⟩

end ShapeLines.Line
