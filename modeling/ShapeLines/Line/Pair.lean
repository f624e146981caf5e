import ShapeLines.Line.ListLiteral

/-!
# The pairs of a line

A line is a list of pairs `key=value`. A token without `=` is a key whose value is `true`. Keys,
values and whole tokens are trimmed, and tokens of which nothing is left are skipped.
-/

namespace ShapeLines.Line

abbrev Pair := String × String

/-- What stands before the first `=` and what stands after it. -/
def splitEquals? : List Char → Option (List Char × List Char)
  | [] => none
  | c :: rest =>
    if c = '=' then some ([], rest)
    else (splitEquals? rest).map fun (key, value) => (c :: key, value)

def pairOf (token : List Char) : Except LineFault Pair :=
  match splitEquals? token with
  | none => .ok (String.ofList token, "true")
  | some (key, value) =>
    let key := Text.trim key
    if key.isEmpty then .error (.emptyKey (String.ofList token))
    else .ok (String.ofList key, String.ofList (Text.trim value))

/-- The pairs of a line that holds no list literals. -/
def pairsOfTokens (s : List Char) : Except LineFault (List Pair) :=
  (((tokens s).map Text.trim).filter (· ≠ [])).mapM pairOf

def pairs (s : List Char) : Except LineFault (List Pair) :=
  (expand s).bind pairsOfTokens

end ShapeLines.Line
