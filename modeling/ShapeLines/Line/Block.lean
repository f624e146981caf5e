import ShapeLines.Line.Entry
import ShapeLines.Shape.Binding

/-!
# Reading shapes from text

A shape is a block of lines of which exactly one is the header; it may stand anywhere in the
block. Blank lines say nothing. `Shape.parse` takes a whole text for one block, `Shape.parseMany`
ends a block at every blank line and reads it as soon as it has ended. The first fault in the order
of the lines is reported; that there is no header is known only at the end of a block.
-/

namespace ShapeLines

namespace Line

/-- A line and its number in the whole text. -/
abbrev Numbered := List Char × Nat

def numbered (text : List Char) : List Numbered :=
  (Text.lines text).zipIdx 1

def Numbered.isBlank (line : Numbered) : Bool :=
  line.1.all Text.isBlank

/-- What the lines of a block have declared so far. -/
structure Declared where
  header : Option Header := none
  fields : List Field := []

def Declared.add (d : Declared) : Entry → Except LineFault Declared
  | .header header =>
    if d.header.isSome then .error .duplicateHeader else .ok { d with header := some header }
  | .field field => .ok { d with fields := d.fields ++ [field] }

def Declared.addLine (d : Declared) (line : Numbered) : Except LineError Declared :=
  let s := Text.trim line.1
  if s.isEmpty then .ok d
  else ((Entry.ofChars s).bind d.add).mapError fun fault => ⟨line.2, fault⟩

def Declared.shape (d : Declared) (firstLine : Nat) : Except LineError Shape :=
  match d.header with
  | none => .error ⟨firstLine, .missingHeader⟩
  | some header => .ok ⟨header, d.fields.map (·.fillBindings header.id)⟩

/-- The number of the first line of a block, which is one for an empty text. -/
def firstNumber (block : List Numbered) : Nat :=
  (block.head?.map (·.2)).getD 1

def readBlock (block : List Numbered) : Except LineError Shape :=
  (block.foldlM Declared.addLine {}).bind (·.shape (firstNumber block))

/-- The shapes of the blocks that have ended, and the lines of the one that has not. -/
structure Gathered where
  shapes : List Shape := []
  block : List Numbered := []

/-- Ends the block, which is none if it has no lines. -/
def Gathered.close (g : Gathered) : Except LineError Gathered :=
  if g.block.isEmpty then .ok g
  else (readBlock g.block).map fun shape => { shapes := g.shapes ++ [shape] }

def Gathered.addLine (g : Gathered) (line : Numbered) : Except LineError Gathered :=
  if line.isBlank then g.close else .ok { g with block := g.block ++ [line] }

end Line

namespace Shape

def parse (text : String) : Except LineError Shape :=
  Line.readBlock (Line.numbered text.toList)

/-- Reads a text that describes any number of shapes, separated by blank lines. -/
def parseMany (text : String) : Except LineError (List Shape) :=
  (((Line.numbered text.toList).foldlM Line.Gathered.addLine {}).bind Line.Gathered.close).map
    Line.Gathered.shapes

end Shape

end ShapeLines
