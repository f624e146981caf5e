import ShapeLines.Json.Basic
import ShapeLines.Json.Quoted

/-!
# Tokens of JSON text

A text is first cut into lexemes: single marks, what stands between two quotes, and words, which are
the longest runs of all other characters that are not blank. Only spaces, tabs, line feeds and
carriage returns are blank here. A lexeme is then read as a token, which fails for a word that is
neither a literal nor a number and for a badly escaped text. Two tokens that are not marks never
stand next to each other in a JSON text, so cutting words greedily loses nothing.
-/

namespace ShapeLines.Json

inductive Mark where
  | openArray | closeArray | openObject | closeObject | comma | colon
  deriving DecidableEq

def Mark.char : Mark → Char
  | .openArray => '['
  | .closeArray => ']'
  | .openObject => '{'
  | .closeObject => '}'
  | .comma => ','
  | .colon => ':'

def Mark.ofChar? (c : Char) : Option Mark :=
  match c with
  | '[' => some .openArray
  | ']' => some .closeArray
  | '{' => some .openObject
  | '}' => some .closeObject
  | ',' => some .comma
  | ':' => some .colon
  | _ => none

inductive Lexeme where
  | mark (m : Mark)
  /-- What stands between two quotes, as written. -/
  | quoted (body : List Char)
  | word (body : List Char)
  deriving DecidableEq

namespace Lexeme

/-- Where the scan of a text stands. The characters of an unfinished lexeme are held in reverse. -/
inductive Mode where
  | between
  | inWord (done : List Char)
  | inQuotes (done : List Char)
  /-- Right after a backslash between quotes. -/
  | escaped (done : List Char)

def isGap (c : Char) : Bool :=
  c = ' ' || c = '\t' || c = '\n' || c = '\r'

/-- The lexemes that a character ends and the mode after it, when no lexeme is unfinished. -/
def start (c : Char) : List Lexeme × Mode :=
  if isGap c then ([], .between)
  else if c = '"' then ([], .inQuotes [])
  else match Mark.ofChar? c with
    | some m => ([.mark m], .between)
    | none => ([], .inWord [c])

def isWordChar (c : Char) : Bool :=
  !isGap c && c != '"' && (Mark.ofChar? c).isNone

def step : Mode → Char → List Lexeme × Mode
  | .between, c => start c
  | .inWord done, c =>
    if isWordChar c then ([], .inWord (c :: done))
    else (.word done.reverse :: (start c).1, (start c).2)
  | .inQuotes done, c =>
    if c = '"' then ([.quoted done.reverse], .between)
    else if c = '\\' then ([], .escaped (c :: done))
    else ([], .inQuotes (c :: done))
  | .escaped done, c => ([], .inQuotes (c :: done))

/-- The lexemes that the end of the text ends. Open quotes are an error. -/
def finish? : Mode → Option (List Lexeme)
  | .between => some []
  | .inWord done => some [.word done.reverse]
  | .inQuotes _ => none
  | .escaped _ => none

def scan? (mode : Mode) : List Char → Option (List Lexeme)
  | [] => finish? mode
  | c :: rest => (scan? (step mode c).2 rest).map ((step mode c).1 ++ ·)

end Lexeme

inductive Token where
  | mark (m : Mark)
  | null
  | bool (b : Bool)
  | num (n : Number)
  | str (s : String)
  deriving DecidableEq

namespace Token

def ofWord? (word : List Char) : Option Token :=
  if word = ['n', 'u', 'l', 'l'] then some .null
  else if word = ['t', 'r', 'u', 'e'] then some (.bool true)
  else if word = ['f', 'a', 'l', 's', 'e'] then some (.bool false)
  else (Number.ofText? word).map .num

def ofLexeme? : Lexeme → Option Token
  | .mark m => some (.mark m)
  | .quoted body => (Quoted.decode? body).map fun s => .str (String.ofList s)
  | .word body => ofWord? body

/-- The tokens of a text, or `none` when some part of it is no token. -/
def ofText? (s : List Char) : Option (List Token) :=
  (Lexeme.scan? .between s).bind (·.mapM ofLexeme?)

def text : Token → List Char
  | .mark m => [m.char]
  | .null => ['n', 'u', 'l', 'l']
  | .bool true => ['t', 'r', 'u', 'e']
  | .bool false => ['f', 'a', 'l', 's', 'e']
  | .num n => n.text
  | .str s => '"' :: (Quoted.encode s.toList ++ ['"'])

end Token

end ShapeLines.Json
