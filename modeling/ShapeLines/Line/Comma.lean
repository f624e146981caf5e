import ShapeLines.Text.Split

/-!
# Commas that separate and commas that are escaped

On a line a comma ends a token unless a backslash escapes it. Two readings of a line are needed: one
finds the next comma that separates and keeps the text as it is, the other cuts the whole line into
tokens and takes the escapes away. Only `\,` and `\\` are escapes; before any other character a
backslash stands for itself.
-/

namespace ShapeLines.Line

/-- Splits a text right after its first comma that is not escaped. The comma ends the first part. -/
def throughComma? : List Char → Option (List Char × List Char)
  | [] => none
  | ['\\'] => none
  | '\\' :: c :: rest =>
    (throughComma? rest).map fun (before, after) => ('\\' :: c :: before, after)
  | c :: rest =>
    if c = ',' then some ([','], rest)
    else (throughComma? rest).map fun (before, after) => (c :: before, after)

/-- The tokens of a line with their escapes taken away. -/
def tokens : List Char → List (List Char)
  | [] => [[]]
  | '\\' :: ',' :: rest => (tokens rest).modifyHead (',' :: ·)
  | '\\' :: '\\' :: rest => (tokens rest).modifyHead ('\\' :: ·)
  | c :: rest => if c = ',' then [] :: tokens rest else (tokens rest).modifyHead (c :: ·)

def escape (s : List Char) : List Char :=
  s.flatMap fun c => if c = ',' ∨ c = '\\' then ['\\', c] else [c]

theorem length_throughComma {s before after : List Char}
    (h : throughComma? s = some (before, after)) : after.length < s.length := by
  fun_induction throughComma? s generalizing before after with
  | case1 => simp at h
  | case2 => simp at h
  | case3 c rest ih =>
    obtain ⟨⟨b, a⟩, hr, he⟩ := Option.map_eq_some_iff.mp h
    have := ih hr
    simp only [Prod.mk.injEq] at he
    simp only [List.length_cons, ← he.2]
    omega
  | case4 rest =>
    simp only [Option.some.injEq, Prod.mk.injEq] at h
    simp [← h.2]
  | case5 c rest _ _ _ ih =>
    obtain ⟨⟨b, a⟩, hr, he⟩ := Option.map_eq_some_iff.mp h
    have := ih hr
    simp only [Prod.mk.injEq] at he
    simp only [List.length_cons, ← he.2]
    omega

end ShapeLines.Line
