import ShapeLines.Json.Text
import ShapeLines.Line.Comma
import ShapeLines.Line.Error
import ShapeLines.Text.Blank

/-!
# List literals

The keys that hold lists may be given several values at once, as in `enum=["a","b"]`. Before a
line is cut into tokens, every literal that opens a token is replaced by one pair for each of its
values. A literal that is no JSON array is cut at its commas, and its values lose blanks and
quotes at the ends.
-/

namespace ShapeLines.Line

/-- The keys whose values accumulate. -/
def listKeys : List String := ["enumNames", "enum", "const"]

/-- What follows `=` and `[`, each of which blanks may precede. -/
def afterOpening? (s : List Char) : Option (List Char) := do
  let s ← Text.after? ['='] (Text.trimStart s)
  Text.after? ['['] (Text.trimStart s)

/-- If a list literal opens `s`, its key and what follows the bracket. -/
def opening? (s : List Char) : Option (String × List Char) :=
  listKeys.findSome? fun key => do
    let s ← Text.after? key.toList (Text.trimStart s)
    let body ← afterOpening? s
    return (key, body)

inductive Scan where
  | plain | quoted | escaped

def extend (c : Char) (parts : Option (List Char × List Char)) : Option (List Char × List Char) :=
  parts.map fun (inside, after) => (c :: inside, after)

/-- Splits a text at the bracket that closes a literal, while `depth` inner brackets are open.
Brackets between quotes do not count, and between quotes a backslash escapes the next character. -/
def splitClosing? (scan : Scan) (depth : Nat) : List Char → Option (List Char × List Char)
  | [] => none
  | c :: rest =>
    match scan with
    | .escaped => extend c (splitClosing? .quoted depth rest)
    | .quoted =>
      extend c (splitClosing? (if c = '\\' then .escaped else if c = '"' then .plain else .quoted)
        depth rest)
    | .plain =>
      if c = ']' then
        match depth with
        | 0 => some ([], rest)
        | depth + 1 => extend c (splitClosing? .plain depth rest)
      else if c = '[' then extend c (splitClosing? .plain (depth + 1) rest)
      else extend c (splitClosing? (if c = '"' then .quoted else .plain) depth rest)

def unquote (s : List Char) : List Char :=
  ((s.dropWhile (· = '"')).reverse.dropWhile (· = '"')).reverse

def literalValues (inside : List Char) : List (List Char) :=
  match Json.ofChars? ('[' :: (inside ++ [']'])) with
  | some (.arr elements) => elements.map (·.plainText.toList)
  | _ => ((Text.pieces ',' inside).map fun s => unquote (Text.trim s)).filter (· ≠ [])

def literalPairs (key : String) (inside : List Char) : List Char :=
  List.intercalate [','] ((literalValues inside).map fun v => key.toList ++ '=' :: escape v)

theorem length_afterOpening {s body : List Char} (h : afterOpening? s = some body) :
    body.length < s.length := by
  simp only [afterOpening?, Option.bind_eq_bind, Option.bind_eq_some_iff] at h
  obtain ⟨t, ht, hb⟩ := h
  have h1 := Text.length_after? ht
  have h2 := Text.length_after? hb
  have h3 := Text.length_trimStart_le s
  have h4 := Text.length_trimStart_le t
  simp only [List.length_cons, List.length_nil] at h1 h2
  omega

theorem length_opening {s body : List Char} {key : String} (h : opening? s = some (key, body)) :
    body.length < s.length := by
  obtain ⟨k, -, hk⟩ := List.exists_of_findSome?_eq_some h
  simp only [Option.bind_eq_bind, Option.bind_eq_some_iff] at hk
  obtain ⟨t, ht, b, hb, he⟩ := hk
  have h1 := Text.length_after? ht
  have h2 := length_afterOpening hb
  have h3 := Text.length_trimStart_le s
  simp only [Option.pure_def, Option.some.injEq, Prod.mk.injEq] at he
  rw [← he.2]
  omega

theorem length_extend {c : Char} {parts : Option (List Char × List Char)}
    {inside after : List Char} {n : Nat} (h : extend c parts = some (inside, after))
    (bound : ∀ i a, parts = some (i, a) → a.length < n) : after.length < n + 1 := by
  obtain ⟨⟨i, a⟩, hp, he⟩ := Option.map_eq_some_iff.mp h
  simp only [Prod.mk.injEq] at he
  rw [← he.2]
  exact Nat.lt_succ_of_lt (bound i a hp)

theorem length_splitClosing {scan : Scan} {depth : Nat} {s inside after : List Char}
    (h : splitClosing? scan depth s = some (inside, after)) : after.length < s.length := by
  induction s generalizing scan depth inside after with
  | nil => simp [splitClosing?] at h
  | cons c rest ih =>
    rw [splitClosing?.eq_def] at h
    simp only at h
    split at h
    · exact length_extend h fun _ _ => ih
    · exact length_extend h fun _ _ => ih
    · split at h
      · split at h
        · simp only [Option.some.injEq, Prod.mk.injEq] at h
          simp [← h.2]
        · exact length_extend h fun _ _ => ih
      · split at h
        · exact length_extend h fun _ _ => ih
        · exact length_extend h fun _ _ => ih

/-- Replaces every list literal that opens a token. After a literal there may be blanks, and then
the line must end or a comma follow. -/
def expand (s : List Char) : Except LineFault (List Char) :=
  match _ho : opening? s with
  | some (key, body) =>
    match _hc : splitClosing? .plain 0 body with
    | some (inside, after) =>
      match _ha : Text.trimStart after with
      | [] => .ok (literalPairs key inside)
      | c :: rest =>
        if c = ',' then (expand rest).map (literalPairs key inside ++ ',' :: ·)
        else .error (.malformedList key)
    | none => .error (.malformedList key)
  | none =>
    match _hc : throughComma? s with
    | some (before, after) => (expand after).map (before ++ ·)
    | none => .ok s
termination_by s.length
decreasing_by
  · have h1 := length_opening _ho
    have h2 := length_splitClosing _hc
    have h3 := Text.length_trimStart_le after
    rw [_ha, List.length_cons] at h3
    omega
  · exact length_throughComma _hc

end ShapeLines.Line
