import ShapeLines.Line.Comma

/-!
# Writing lines pair by pair

A writer takes pairs and line ends one after the other. It remembers whether the current line has
content: a comma is written before a pair only then, and a line feed only after such a line, so that
repeated line ends leave no empty lines. The finished text has no line feed at its end.
-/

namespace ShapeLines

inductive LineWriter.Call where
  /-- The pair `key=value`, or `key` alone when the value is `true`. -/
  | pair (key value : String)
  /-- The pair `key=text` without any escapes. -/
  | literal (key text : String)
  | endLine
  deriving DecidableEq

structure LineWriter where
  text : String := ""
  lineOpen : Bool := false
  deriving DecidableEq

namespace LineWriter

def escaped (value : String) : String :=
  String.ofList (Line.escape value.toList)

/-- Puts one pair on the current line. -/
def put (w : LineWriter) (pair : String) : LineWriter :=
  { text := (if w.lineOpen then w.text ++ "," else w.text) ++ pair, lineOpen := true }

def pair (w : LineWriter) (key value : String) : LineWriter :=
  w.put (if value = "true" then key else key ++ "=" ++ escaped value)

def literal (w : LineWriter) (key text : String) : LineWriter :=
  w.put (key ++ "=" ++ text)

def endLine (w : LineWriter) : LineWriter :=
  if w.lineOpen then { text := w.text ++ "\n", lineOpen := false } else w

/-- A text without the line feed at its end, if there is one. -/
def withoutLastFeed : List Char → List Char
  | [] => []
  | ['\n'] => []
  | c :: rest => c :: withoutLastFeed rest

def finish (w : LineWriter) : String :=
  String.ofList (withoutLastFeed w.endLine.text.toList)

def call (w : LineWriter) : Call → LineWriter
  | .pair key value => w.pair key value
  | .literal key text => w.literal key text
  | .endLine => w.endLine

def run (w : LineWriter) (calls : List Call) : LineWriter :=
  calls.foldl call w

end LineWriter

end ShapeLines
