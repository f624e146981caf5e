import ShapeLines.Line.Block
import ShapeLines.Step.Plan

/-!
# Template blocks

The steps of a shape are written as a template block that bears the id of the shape, with one action
on a line.
-/

namespace ShapeLines

structure StepBlock where
  id : String
  version : String
  direction : Direction
  steps : List Step
  deriving DecidableEq

namespace StepBlock

def ofShape (s : Shape) : StepBlock :=
  ⟨s.header.id, s.header.version, s.header.direction, s.steps⟩

def text (b : StepBlock) : String :=
  "\x7b\x7bdefine \"" ++ b.id ++ "\"\x7d\x7d\n"
    ++ String.join (b.steps.map fun s => s.text ++ "\n") ++ "\x7b\x7bend\x7d\x7d"

def parseMany (text : String) : Except LineError (List StepBlock) :=
  (Shape.parseMany text).map (·.map ofShape)

/-- The first block with the given id. -/
def find? (blocks : List StepBlock) (id : String) : Option StepBlock :=
  List.find? (·.id == id) blocks

end StepBlock

end ShapeLines
