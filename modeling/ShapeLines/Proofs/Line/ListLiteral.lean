import ShapeLines.Proofs.Line.Closing
import ShapeLines.Proofs.Line.Comma
import ShapeLines.Proofs.Text.Joined

/-!
# Expanding lines piece by piece

A line is a sequence of pieces with commas between them. `Expands w e` says that the piece `w` is
replaced by `e` and that the expansion goes on behind the comma after it. A piece that opens no list
literal is replaced by itself; the JSON text of an array under a list key is replaced by one pair
for each element, whatever the elements are.
-/

namespace ShapeLines.Line

open Json.Lexeme (isGap isGap_iff)
open Text (Trimmed OneLine StartsSolid EndsSolid trimmed_iff)

/-- What can stand in front of `=`. -/
structure IsKey (key : List Char) : Prop where
  ne : key ≠ []
  trimmed : Trimmed key
  plain : ∀ c ∈ key, c ≠ '\n' ∧ c ≠ ',' ∧ c ≠ '=' ∧ c ≠ '\\'

theorem isKey_iff {key : List Char} : IsKey key ↔
    key ≠ [] ∧ Trimmed key ∧
      key.all (fun c => c != '\n' && c != ',' && c != '=' && c != '\\') = true := by
  have plain : key.all (fun c => c != '\n' && c != ',' && c != '=' && c != '\\') = true ↔
      ∀ c ∈ key, c ≠ '\n' ∧ c ≠ ',' ∧ c ≠ '=' ∧ c ≠ '\\' := by
    simp only [List.all_eq_true, Bool.and_eq_true, bne_iff_ne, and_assoc]
  rw [plain]
  exact ⟨fun h => ⟨h.ne, h.trimmed, h.plain⟩, fun h => ⟨h.1, h.2.1, h.2.2⟩⟩

instance (key : List Char) : Decidable (IsKey key) :=
  decidable_of_iff _ isKey_iff.symm

/-- What can be read in front of `=`. -/
structure IsLabel (key : List Char) : Prop where
  ne : key ≠ []
  trimmed : Trimmed key
  oneLine : OneLine key
  equals : '=' ∉ key

/-- A label that is written as it is and read as the same token. -/
def Kept (key : List Char) : Prop :=
  tokens key = [key]

instance (key : List Char) : Decidable (Kept key) :=
  inferInstanceAs (Decidable (tokens key = [key]))

/-- What is written as it is may stand before a label that is. -/
theorem Sealed.kept_append {w key : List Char} (start : Sealed w w) (kept : Kept key) :
    Kept (w ++ key) := by
  rw [Kept, start.token, kept]
  rfl

theorem IsLabel.startsSolid {key : List Char} (h : IsLabel key) : StartsSolid key :=
  (trimmed_iff.mp h.trimmed).1

theorem IsLabel.endsSolid {key : List Char} (h : IsLabel key) : EndsSolid key :=
  (trimmed_iff.mp h.trimmed).2

/-- A label stays together with the `=` behind it. -/
theorem Kept.sealed_equals {key : List Char} (h : Kept key) :
    Sealed (key ++ ['=']) (key ++ ['=']) :=
  sealed_concat h (by decide) (by decide)

theorem Kept.sealed_value {key : List Char} (h : Kept key) (v : List Char) :
    Sealed (key ++ '=' :: escape v) (key ++ '=' :: v) := by
  simpa using h.sealed_equals.append (sealed_escape v)

theorem IsKey.label {key : List Char} (h : IsKey key) : IsLabel key where
  ne := h.ne
  trimmed := h.trimmed
  oneLine := fun feed => (h.plain _ feed).1 rfl
  equals := fun equals => (h.plain _ equals).2.2.1 rfl

theorem IsKey.sealed {key : List Char} (h : IsKey key) : Sealed key key :=
  sealed_plain fun c hc => ⟨(h.plain c hc).2.1, (h.plain c hc).2.2.2⟩

theorem IsKey.kept {key : List Char} (h : IsKey key) : Kept key :=
  h.sealed.tokens

theorem IsKey.ends {key : List Char} (h : IsKey key) : endsEscaped key = false :=
  endsEscaped_plain fun c hc => (h.plain c hc).2.2.2

/-! ## Where a literal opens -/

theorem isKey_of_mem_listKeys : ∀ key ∈ listKeys, IsKey key.toList := by
  decide

theorem afterOpening?_eq_some_iff {s body : List Char} : afterOpening? s = some body ↔
    ∃ value, Text.trimStart s = '=' :: value ∧ Text.trimStart value = '[' :: body := by
  simp only [afterOpening?, Option.bind_eq_bind, Option.bind_eq_some_iff, Text.after?_eq_some_iff,
    List.singleton_append]

/-- A literal opens where a list key, `=` and a bracket follow each other, blanks apart. -/
theorem opening?_ne_none_iff {s : List Char} : opening? s ≠ none ↔
    ∃ key ∈ listKeys, ∃ rest value body, Text.trimStart s = key.toList ++ rest ∧
      Text.trimStart rest = '=' :: value ∧ Text.trimStart value = '[' :: body := by
  rw [← Option.isSome_iff_ne_none, opening?, List.findSome?_isSome_iff]
  simp only [Option.isSome_iff_exists, Option.bind_eq_bind, Option.bind_eq_some_iff,
    Text.after?_eq_some_iff, afterOpening?_eq_some_iff]
  constructor
  · rintro ⟨key, isList, _, rest, start, body, ⟨value, equals, bracket⟩, -⟩
    exact ⟨key, isList, rest, value, body, start, equals, bracket⟩
  · rintro ⟨key, isList, rest, value, body, start, equals, bracket⟩
    exact ⟨key, isList, _, rest, start, body, ⟨value, equals, bracket⟩, rfl⟩

theorem opening?_eq_none_of_notMem {s : List Char} (equals : '=' ∉ s) : opening? s = none := by
  by_contra opens
  obtain ⟨key, -, rest, value, -, start, behind, -⟩ := opening?_ne_none_iff.mp opens
  have inRest : '=' ∈ rest := (List.dropWhile_suffix Text.isBlank).subset (by
    rw [← Text.trimStart, behind]
    exact List.mem_cons_self)
  refine equals ((List.dropWhile_suffix Text.isBlank).subset ?_)
  rw [← Text.trimStart, start]
  exact List.mem_append_right _ inRest

/-- Whether a literal opens depends on what trimming leaves of the text before the first `=` and on
the first character that is not blank behind it. -/
theorem opening?_equals_ne_none_iff {key value : List Char} (first : '=' ∉ key) :
    opening? (key ++ '=' :: value) ≠ none ↔
      String.ofList (Text.trim key) ∈ listKeys ∧ ∃ body, Text.trimStart value = '[' :: body := by
  have equalsSolid : Text.isBlank '=' = false := by decide
  rw [opening?_ne_none_iff, Text.trimStart_append_cons equalsSolid]
  constructor
  · rintro ⟨k, isList, rest, value', body, start, equals, bracket⟩
    obtain ⟨gap, whole, blank⟩ := Text.exists_eq_append_trimStart rest
    have isKey := isKey_of_mem_listKeys k isList
    have apart : '=' ∉ k.toList ++ gap := by
      rw [List.mem_append, not_or]
      exact ⟨isKey.label.equals, fun mem => absurd (blank _ mem) (by decide)⟩
    have apartKey : '=' ∉ Text.trimStart key := fun mem =>
      first ((List.dropWhile_suffix Text.isBlank).subset mem)
    rw [whole, equals, ← List.append_assoc] at start
    obtain ⟨same, rfl⟩ := Text.eq_of_append_cons apartKey apart start
    have trimmed : Text.trim key = k.toList := by
      rw [← Text.trim_trimStart, same, blank.append_trim]
      exact isKey.trimmed
    exact ⟨by rwa [trimmed, String.ofList_toList], body, bracket⟩
  · rintro ⟨isList, body, bracket⟩
    obtain ⟨tail, whole, blank⟩ := Text.exists_eq_trimEnd_append (Text.trimStart key)
    refine ⟨_, isList, tail ++ '=' :: value, value, body, ?_, ?_, bracket⟩
    · rw [String.toList_ofList, Text.trim, ← List.append_assoc, ← whole]
    · rw [blank.trimStart_append, Text.trimStart_cons, if_neg (by simp [equalsSolid])]

/-- An escaped value starts with a bracket only if the value does. -/
theorem trimStart_escape_ne {v : List Char} (solid : StartsSolid v) (bracket : ∀ s, v ≠ '[' :: s)
    (body : List Char) : Text.trimStart (escape v) ≠ '[' :: body := by
  cases v with
  | nil => simp [escape]
  | cons c v =>
    have ne : c ≠ '[' := fun eq => bracket v (by rw [eq])
    rw [escape_cons]
    split
    · rw [List.cons_append, Text.trimStart_cons, if_neg (by decide)]
      simp
    · rw [List.singleton_append, Text.trimStart_cons, if_neg (by simp [solid c v rfl])]
      simp [ne]

/-- Under a list key a bracket opens a literal, also behind blanks. -/
theorem opening?_eq_some {key : String} (isList : key ∈ listKeys) {s body : List Char}
    (opens : Text.trimStart s = '[' :: body) :
    opening? (key.toList ++ '=' :: s) = some (key, body) := by
  have bracket : afterOpening? ('=' :: s) = some body := by
    have equals : Text.trimStart ('=' :: s) = '=' :: s := by
      rw [Text.trimStart_cons, if_neg (by decide)]
    simp [afterOpening?, equals, opens, Text.after?]
  have own : (do
      let t ← Text.after? key.toList (key.toList ++ '=' :: s)
      let body ← afterOpening? t
      return (key, body)) = some (key, body) := by
    rw [Text.after?_eq_some_iff.mpr rfl, Option.bind_eq_bind, Option.bind_some, bracket]
    rfl
  have isKey := isKey_of_mem_listKeys key isList
  rw [opening?, (isKey.label.startsSolid.append isKey.ne _).trimStart,
    List.findSome?_eq_some_iff]
  simp only [listKeys, List.mem_cons, List.not_mem_nil, or_false] at isList
  -- no key that is tried before the own one is found at the start
  rcases isList with rfl | rfl | rfl
  · exact ⟨[], _, _, rfl, own, List.forall_mem_nil _⟩
  · exact ⟨["enumNames"], _, _, rfl, own, List.forall_mem_singleton.mpr rfl⟩
  · exact ⟨["enumNames", "enum"], _, _, rfl, own,
      List.forall_mem_cons.mpr ⟨rfl, List.forall_mem_singleton.mpr rfl⟩⟩

/-! ## What a comma ends -/

theorem trimStart_append_comma (s rest : List Char) :
    Text.trimStart (s ++ ',' :: rest) = Text.trimStart s ++ ',' :: rest :=
  Text.trimStart_append_cons (by decide) s rest

theorem after?_append_comma {start : List Char} (apart : ',' ∉ start) (s rest : List Char) :
    Text.after? start (s ++ ',' :: rest) = (Text.after? start s).map (· ++ ',' :: rest) := by
  induction start generalizing s with
  | nil => rfl
  | cons c start ih =>
    rw [List.mem_cons, not_or] at apart
    cases s with
    | nil => simp [Text.after?, Ne.symm apart.1]
    | cons d s =>
      rw [List.cons_append, Text.after?, Text.after?, ih apart.2]
      split <;> rfl

theorem afterOpening?_append_comma (s rest : List Char) :
    afterOpening? (s ++ ',' :: rest) = (afterOpening? s).map (· ++ ',' :: rest) := by
  unfold afterOpening?
  rw [trimStart_append_comma, after?_append_comma (by decide)]
  cases Text.after? ['='] (Text.trimStart s) with
  | none => rfl
  | some t =>
    rw [Option.map_some, Option.bind_eq_bind, Option.bind_some, trimStart_append_comma,
      after?_append_comma (by decide)]
    rfl

/-- Whether a literal opens a piece does not depend on what stands behind the comma after it. -/
theorem opening?_append_comma (s rest : List Char) :
    opening? (s ++ ',' :: rest) = (opening? s).map fun p => (p.1, p.2 ++ ',' :: rest) := by
  have apart : ∀ key ∈ listKeys, ',' ∉ key.toList := by decide
  unfold opening?
  generalize listKeys = keys at apart
  induction keys with
  | nil => rfl
  | cons key keys ih =>
    obtain ⟨here, others⟩ := List.forall_mem_cons.mp apart
    rw [List.findSome?_cons, List.findSome?_cons, ih others, trimStart_append_comma,
      after?_append_comma here]
    cases Text.after? key.toList (Text.trimStart s) with
    | none => rfl
    | some t =>
      simp only [Option.map_some, Option.bind_eq_bind, Option.bind_some, afterOpening?_append_comma]
      cases afterOpening? t <;> rfl

/-! ## Pieces -/

structure Expands (w e : List Char) : Prop where
  last : expand w = .ok e
  more : ∀ rest, expand (w ++ ',' :: rest) = (expand rest).map (e ++ ',' :: ·)

theorem Expands.comma {w e w' e' : List Char} (h : Expands w e) (h' : Expands w' e') :
    Expands (w ++ ',' :: w') (e ++ ',' :: e') where
  last := by
    rw [h.more, h'.last]
    rfl
  more rest := by
    rw [List.append_assoc, List.cons_append, h.more, h'.more]
    cases expand rest <;> simp [Except.map]

/-- Pieces with commas between them are expanded one by one. -/
theorem Expands.intercalate {α : Type} {ps : List α} {w e : α → List Char}
    (h : ∀ p ∈ ps, Expands (w p) (e p)) (ne : ps ≠ []) :
    Expands (List.intercalate [','] (ps.map w)) (List.intercalate [','] (ps.map e)) := by
  induction ps with
  | nil => exact (ne rfl).elim
  | cons p ps ih =>
    have head := h p (List.mem_cons_self ..)
    cases ps with
    | nil => simpa using head
    | cons q ps =>
      have tail := ih (fun r hr => h r (List.mem_cons_of_mem _ hr)) (by simp)
      simp only [List.map_cons, List.intercalate_cons_cons, List.append_assoc,
        List.singleton_append] at tail ⊢
      exact head.comma tail

theorem expand_of_opening?_eq_none {s : List Char} (h : opening? s = none) :
    expand s = match throughComma? s with
      | some (before, after) => (expand after).map (before ++ ·)
      | none => .ok s := by
  rw [expand]
  split
  · next ho => rw [h] at ho; contradiction
  · split
    · next hc => rw [hc]
    · next hc => rw [hc]

/-- A sealed piece that opens no literal stays. -/
theorem Expands.same {w t : List Char} (sealedPiece : Sealed w t) (closed : opening? w = none) :
    Expands w w where
  last := by
    rw [expand_of_opening?_eq_none closed, throughComma?_of_sealed_last sealedPiece]
  more rest := by
    have closedMore : opening? (w ++ ',' :: rest) = none := by
      rw [opening?_append_comma, closed]
      rfl
    rw [expand_of_opening?_eq_none closedMore, throughComma?_of_sealed sealedPiece]
    simp

theorem expands_label {key : List Char} (label : IsLabel key) (whole : Sealed key key) :
    Expands key key := by
  exact Expands.same whole (opening?_eq_none_of_notMem label.equals)

theorem expands_key {key : List Char} (h : IsKey key) : Expands key key :=
  expands_label h.label h.sealed

/-- A label and an escaped value. Under a list key the value must not open with a bracket. -/
theorem expands_pair {key v : List Char} (label : IsLabel key) (kept : Kept key)
    (solid : StartsSolid v) (bracket : String.ofList key ∈ listKeys → ∀ s, v ≠ '[' :: s) :
    Expands (key ++ '=' :: escape v) (key ++ '=' :: escape v) := by
  refine Expands.same (kept.sealed_value v) ?_
  by_contra opens
  obtain ⟨isList, body, opened⟩ := (opening?_equals_ne_none_iff label.equals).mp opens
  rw [label.trimmed] at isList
  exact trimStart_escape_ne solid (bracket isList) body opened

/-! ## Literals -/

theorem expand_of_opening? {s body inside after : List Char} {key : String}
    (ho : opening? s = some (key, body)) (hc : splitClosing? .plain 0 body = some (inside, after)) :
    expand s = match Text.trimStart after with
      | [] => .ok (literalPairs key inside)
      | c :: rest =>
        if c = ',' then (expand rest).map (literalPairs key inside ++ ',' :: ·)
        else .error (.malformedList key) := by
  rw [expand]
  split
  · next ho' =>
    rw [ho, Option.some.injEq, Prod.mk.injEq] at ho'
    obtain ⟨rfl, rfl⟩ := ho'
    split
    · next hc' =>
      rw [hc, Option.some.injEq, Prod.mk.injEq] at hc'
      obtain ⟨rfl, rfl⟩ := hc'
      split
      · next ha => rw [ha]
      · next ha => rw [ha]
    · next hc' => rw [hc] at hc'; contradiction
  · next ho' => rw [ho] at ho'; contradiction

theorem trimStart_gaps {s : List Char} (gaps : ∀ c ∈ s, isGap c = true) (t : List Char) :
    Text.trimStart (s ++ t) = Text.trimStart t := by
  induction s with
  | nil => rfl
  | cons c s ih =>
    have blank : Text.isBlank c = true := by
      rcases isGap_iff.mp (gaps c List.mem_cons_self) with rfl | rfl | rfl | rfl <;> decide
    rw [List.cons_append, Text.trimStart_cons, if_pos blank,
      ih fun d mem => gaps d (List.mem_cons_of_mem c mem)]

/-- The pairs, as they are written, that stand for the elements of an array. -/
def elementTexts (key : String) (elements : List Json) : List (List Char) :=
  elements.map fun v => key.toList ++ '=' :: escape v.plainText.toList

/-- The text of an array becomes one pair for each element. -/
theorem expands_literal {key : String} (isList : key ∈ listKeys) {text : List Char}
    {elements : List Json} (read : Json.ofChars? text = some (.arr elements)) :
    Expands (key.toList ++ '=' :: text) (List.intercalate [','] (elementTexts key elements)) := by
  obtain ⟨front, body, inside, back, rfl, gaps, close, gapsBack, values⟩ :=
    exists_literal_of_ofChars? read
  have pairs : literalPairs key inside = List.intercalate [','] (elementTexts key elements) := by
    rw [literalPairs, values, List.map_map]
    rfl
  have opens : opening? (key.toList ++ '=' :: (front ++ '[' :: body)) = some (key, body) := by
    refine opening?_eq_some isList ?_
    rw [trimStart_gaps gaps, Text.trimStart_cons, if_neg (by decide)]
  constructor
  · have ends : Text.trimStart back = [] := by
      simpa using trimStart_gaps gapsBack []
    rw [expand_of_opening? opens close, ends, pairs]
  · intro rest
    have opensMore := opening?_append_comma (key.toList ++ '=' :: (front ++ '[' :: body)) rest
    rw [opens] at opensMore
    have ends : Text.trimStart (back ++ ',' :: rest) = ',' :: rest := by
      rw [trimStart_gaps gapsBack, Text.trimStart_cons, if_neg (by decide)]
    rw [expand_of_opening? opensMore (splitClosing?_append close (',' :: rest)), ends, pairs]
    exact if_pos rfl

end ShapeLines.Line
