import ShapeLines.Json.Token

/-!
# Reading and writing JSON text

`Json.text` writes a value compactly, as its tokens one after the other. `Json.parse?` reads a
text by a stack of the arrays and objects that are still open. Of two members with one key the
later wins. A text in which more than 127 arrays and objects are open at one place is refused; so
is anything after the value.
-/

namespace ShapeLines.Json

mutual

def tokens : Json → List Token
  | .null => [.null]
  | .bool b => [.bool b]
  | .num n => [.num n]
  | .str s => [.str s]
  | .arr [] => [.mark .openArray, .mark .closeArray]
  | .arr (v :: rest) => .mark .openArray :: (tokens v ++ moreElements rest)
  | .obj [] => [.mark .openObject, .mark .closeObject]
  | .obj ((key, v) :: rest) =>
    .mark .openObject :: .str key :: .mark .colon :: (tokens v ++ moreMembers rest)

def moreElements : List Json → List Token
  | [] => [.mark .closeArray]
  | v :: rest => .mark .comma :: (tokens v ++ moreElements rest)

def moreMembers : List (String × Json) → List Token
  | [] => [.mark .closeObject]
  | (key, v) :: rest => .mark .comma :: .str key :: .mark .colon :: (tokens v ++ moreMembers rest)

end

def text (v : Json) : String :=
  String.ofList (v.tokens.flatMap Token.text)

/-- A string's own characters, or the JSON text of any other value. -/
def plainText : Json → String
  | .str s => s
  | v => v.text

/-- An array or object that is still open. -/
inductive Frame where
  /-- The elements read so far, the last one first. -/
  | array (done : List Json)
  /-- The members read so far and the key of the one that is being read. -/
  | object (members : List (String × Json)) (key : String)

def depthLimit : Nat := 127

mutual

/-- Reads a value inside the open frames, the innermost one first. -/
def value? (frames : List Frame) : List Token → Option Json
  | .null :: rest => resume? frames .null rest
  | .bool b :: rest => resume? frames (.bool b) rest
  | .num n :: rest => resume? frames (.num n) rest
  | .str s :: rest => resume? frames (.str s) rest
  | .mark .openArray :: rest =>
    if frames.length < depthLimit then
      match rest with
      | .mark .closeArray :: rest => resume? frames (.arr []) rest
      | rest => value? (.array [] :: frames) rest
    else none
  | .mark .openObject :: rest =>
    if frames.length < depthLimit then
      match rest with
      | .mark .closeObject :: rest => resume? frames (.obj []) rest
      | .str key :: .mark .colon :: rest => value? (.object [] key :: frames) rest
      | _ => none
    else none
  | _ => none

/-- Goes on after the value `v` has been read inside the open frames. -/
def resume? (frames : List Frame) (v : Json) : List Token → Option Json
  | [] =>
    match frames with
    | [] => some v
    | _ :: _ => none
  | .mark .comma :: rest =>
    match frames with
    | .array done :: frames => value? (.array (v :: done) :: frames) rest
    | .object members key :: frames =>
      match rest with
      | .str next :: .mark .colon :: rest =>
        value? (.object (Entries.insert key v members) next :: frames) rest
      | _ => none
    | [] => none
  | .mark .closeArray :: rest =>
    match frames with
    | .array done :: frames => resume? frames (.arr (v :: done).reverse) rest
    | _ => none
  | .mark .closeObject :: rest =>
    match frames with
    | .object members key :: frames => resume? frames (.obj (Entries.insert key v members)) rest
    | _ => none
  | _ => none

end

def ofChars? (s : List Char) : Option Json :=
  (Token.ofText? s).bind (value? [])

def parse? (s : String) : Option Json :=
  ofChars? s.toList

end ShapeLines.Json
