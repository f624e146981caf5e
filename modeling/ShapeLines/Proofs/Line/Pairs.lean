import ShapeLines.Line.Pair
import ShapeLines.Proofs.Line.ListLiteral

/-!
# The pairs of a line, piece by piece

A line without literals is read piece by piece: its pairs are those of what stands before a comma
that separates, followed by those of what stands behind it.
-/

namespace ShapeLines.Line

open Text (Trimmed EndsSolid StartsSolid trimmed_iff)

/-! ## Pieces between commas -/

/-- The pieces of a line between the commas that separate, as they are written. -/
def pieces : List Char → List (List Char)
  | [] => [[]]
  | ['\\'] => [['\\']]
  | '\\' :: c :: rest => (pieces rest).modifyHead ('\\' :: c :: ·)
  | c :: rest => if c = ',' then [] :: pieces rest else (pieces rest).modifyHead (c :: ·)

theorem pieces_ne_nil (s : List Char) : pieces s ≠ [] := by
  fun_induction pieces s <;> simp_all

theorem intercalate_modifyHead (start : List Char) {ps : List (List Char)} (ne : ps ≠ []) :
    List.intercalate [','] (ps.modifyHead (start ++ ·)) = start ++ List.intercalate [','] ps := by
  obtain ⟨p, ps, rfl⟩ := List.exists_cons_of_ne_nil ne
  cases ps <;> simp [List.intercalate_cons_cons]

/-- A line is its pieces with commas between them. -/
theorem intercalate_pieces (s : List Char) : List.intercalate [','] (pieces s) = s := by
  fun_induction pieces s with
  | case1 => rfl
  | case2 => rfl
  | case3 c rest ih =>
    exact (intercalate_modifyHead ['\\', c] (pieces_ne_nil rest)).trans (congrArg _ ih)
  | case4 rest _ _ ih =>
    rw [List.intercalate_cons_of_ne_nil (pieces_ne_nil rest), ih]
    rfl
  | case5 c rest _ _ _ ih =>
    exact (intercalate_modifyHead [c] (pieces_ne_nil rest)).trans (congrArg _ ih)

/-- If a comma behind the line separates, every piece of the line is sealed. -/
theorem sealed_of_mem_pieces {s : List Char} (ends : endsEscaped s = false) :
    ∀ p ∈ pieces s, ∃ t, Sealed p t := by
  have extended {start : List Char} {ps : List (List Char)} (h : ∃ t, Sealed start t)
      (others : ∀ p ∈ ps, ∃ t, Sealed p t) : ∀ p ∈ ps.modifyHead (start ++ ·), ∃ t, Sealed p t := by
    obtain ⟨t, sealedStart⟩ := h
    cases ps with
    | nil => simp
    | cons p ps =>
      obtain ⟨⟨u, sealedFirst⟩, rest⟩ := List.forall_mem_cons.mp others
      exact List.forall_mem_cons.mpr ⟨⟨t ++ u, sealedStart.append sealedFirst⟩, rest⟩
  fun_induction pieces s with
  | case1 => simpa using ⟨[], Sealed.nil⟩
  | case2 => cases ends
  | case3 c rest ih => exact extended (sealed_backslash c) (ih ends)
  | case4 rest _ _ ih =>
    rw [endsEscaped_cons (by decide)] at ends
    exact List.forall_mem_cons.mpr ⟨⟨[], Sealed.nil⟩, ih ends⟩
  | case5 c rest last escape comma ih =>
    have backslash := ne_backslash last escape
    rw [endsEscaped_cons backslash] at ends
    exact extended ⟨[c], sealed_singleton comma backslash⟩ (ih ends)

/-- A comma behind `w` separates. -/
def Splits (w : List Char) : Prop :=
  ∀ rest, tokens (w ++ ',' :: rest) = tokens w ++ tokens rest

theorem Sealed.splits {w t : List Char} (h : Sealed w t) : Splits w := fun rest => by
  rw [h.token, h.tokens, tokens_comma]
  simp

theorem Splits.comma {w w' : List Char} (h : Splits w) (h' : Splits w') : Splits (w ++ ',' :: w') :=
  fun rest => by rw [List.append_assoc, List.cons_append, h, h', h, List.append_assoc]

theorem Splits.intercalate {ps : List (List Char)} (h : ∀ p ∈ ps, Splits p) :
    Splits (List.intercalate [','] ps) := by
  induction ps with
  | nil => exact Sealed.nil.splits
  | cons p ps ih =>
    obtain ⟨head, others⟩ := List.forall_mem_cons.mp h
    cases ps with
    | nil => simpa using head
    | cons q ps =>
      rw [List.intercalate_cons_cons, List.append_assoc, List.singleton_append]
      exact head.comma (ih others)

/-! ## Pairs -/

/-- The pairs of what stands before a comma that separates come first. -/
theorem pairsOfTokens_append_comma {w : List Char} (splits : Splits w) (rest : List Char) :
    pairsOfTokens (w ++ ',' :: rest) =
      (pairsOfTokens w).bind fun first => (pairsOfTokens rest).map (first ++ ·) := by
  unfold pairsOfTokens
  rw [splits, List.map_append, List.filter_append, List.mapM_append]
  cases (((tokens w).map Text.trim).filter (· ≠ [])).mapM pairOf with
  | error e => rfl
  | ok first => cases (((tokens rest).map Text.trim).filter (· ≠ [])).mapM pairOf <;> rfl

/-- The written piece `w` is read as `pair`. -/
def Denotes (w : List Char) (pair : Pair) : Prop :=
  ∃ t, Sealed w t ∧ Text.trim t ≠ [] ∧ pairOf (Text.trim t) = .ok pair

theorem Denotes.splits {w : List Char} {pair : Pair} (h : Denotes w pair) : Splits w :=
  h.choose_spec.1.splits

theorem splitEquals?_key {key : List Char} (h : ∀ c ∈ key, c ≠ '=') (v : List Char) :
    splitEquals? (key ++ '=' :: v) = some (key, v) := by
  induction key with
  | nil => rfl
  | cons c key ih =>
    rw [List.cons_append, splitEquals?, if_neg (h c (List.mem_cons_self ..)),
      ih fun d hd => h d (List.mem_cons_of_mem _ hd)]
    rfl

theorem splitEquals?_eq_none {s : List Char} (h : ∀ c ∈ s, c ≠ '=') : splitEquals? s = none := by
  induction s with
  | nil => rfl
  | cons c s ih =>
    rw [splitEquals?, if_neg (h c (List.mem_cons_self ..)),
      ih fun d hd => h d (List.mem_cons_of_mem _ hd)]
    rfl

theorem denotes_label {key : List Char} (label : IsLabel key) (whole : Sealed key key) :
    Denotes key (String.ofList key, "true") := by
  have trimmed : Text.trim key = key := label.trimmed
  refine ⟨key, whole, by rw [trimmed]; exact label.ne, ?_⟩
  rw [trimmed, pairOf, splitEquals?_eq_none fun c hc eq => label.equals (eq ▸ hc)]

/-- A value is read as what trimming leaves of it. -/
theorem denotes_pair {key : List Char} (label : IsLabel key) (kept : Kept key) (v : List Char) :
    Denotes (key ++ '=' :: escape v) (String.ofList key, String.ofList (Text.trim v)) := by
  have trimmed : Text.trim (key ++ '=' :: v) = key ++ '=' :: Text.trimEnd v := by
    rw [Text.trim, (label.startsSolid.append label.ne _).trimStart,
      Text.trimEnd_append_cons (by decide)]
  refine ⟨key ++ '=' :: v, kept.sealed_value v, ?_, ?_⟩
  · simp [trimmed]
  · have solidKey : Text.trim key = key := label.trimmed
    simp [trimmed, pairOf, splitEquals?_key fun c hc eq => label.equals (eq ▸ hc), solidKey,
      Text.trim_trimEnd, label.ne]

theorem denotes_listPair {key : String} (isList : key ∈ listKeys) (v : List Char) :
    Denotes (key.toList ++ '=' :: escape v) (key, String.ofList (Text.trim v)) := by
  have isKey := isKey_of_mem_listKeys key isList
  simpa using denotes_pair isKey.label isKey.kept v

/-- The pieces of a line that hold no literals are read one by one. -/
theorem pairsOfTokens_intercalate {ps : List (List Char × Pair)}
    (h : ∀ p ∈ ps, Denotes p.1 p.2) :
    pairsOfTokens (List.intercalate [','] (ps.map (·.1))) = .ok (ps.map (·.2)) := by
  have piece {p : List Char × Pair} (denotes : Denotes p.1 p.2) :
      pairsOfTokens p.1 = .ok [p.2] := by
    obtain ⟨t, sealedPiece, ne, read⟩ := denotes
    simp [pairsOfTokens, sealedPiece.tokens, ne, read]
  induction ps with
  | nil => rfl
  | cons p ps ih =>
    obtain ⟨head, others⟩ := List.forall_mem_cons.mp h
    cases ps with
    | nil => simpa using piece head
    | cons q ps =>
      rw [List.map_cons, List.map_cons, List.intercalate_cons_cons, List.append_assoc,
        List.singleton_append, pairsOfTokens_append_comma head.splits, piece head, ← List.map_cons,
        ih others]
      rfl

/-! ## The values of a list -/

/-- Values as they are written one by one under a key. -/
def valueTexts (key : String) (values : List (List Char)) : List Char :=
  List.intercalate [','] (values.map fun v => key.toList ++ '=' :: escape v)

def valuePairs (key : String) (values : List (List Char)) : List Pair :=
  values.map fun v => (key, String.ofList (Text.trim v))

theorem splits_valueTexts {key : String} (isList : key ∈ listKeys) (values : List (List Char)) :
    Splits (valueTexts key values) := by
  refine Splits.intercalate fun p mem => ?_
  obtain ⟨v, -, rfl⟩ := List.mem_map.mp mem
  exact (denotes_listPair isList v).splits

theorem pairsOfTokens_valueTexts {key : String} (isList : key ∈ listKeys)
    (values : List (List Char)) :
    pairsOfTokens (valueTexts key values) = .ok (valuePairs key values) := by
  have denotes : ∀ p ∈ values.map fun v => (key.toList ++ '=' :: escape v,
      (key, String.ofList (Text.trim v))), Denotes p.1 p.2 := by
    intro p mem
    obtain ⟨v, -, rfl⟩ := List.mem_map.mp mem
    exact denotes_listPair isList v
  have read := pairsOfTokens_intercalate denotes
  simpa [valueTexts, valuePairs, Function.comp_def] using read

end ShapeLines.Line
