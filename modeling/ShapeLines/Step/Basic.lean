import ShapeLines.Shape.Basic

/-!
# Steps

A step puts one value of the destination document in place. It is carried out by a template action:
either the one that the step holds or a call with its destination and its source.
-/

namespace ShapeLines

inductive Command where
  | copyNumber
  | copyValue
  | initArray
  | initObject
  /-- The binding is a template itself. -/
  | template
  deriving DecidableEq

namespace Command

/-- The name of the template function that carries out a command. -/
def function : Command → String
  | .copyNumber => "getSetNumber"
  | .copyValue => "getSetValue"
  | .initArray => "setValue"
  | .initObject => "setValue"
  | .template => "template"

def isInit : Command → Bool
  | .initArray => true
  | .initObject => true
  | _ => false

end Command

structure Step where
  /-- The fullname of the value that the step writes. -/
  target : String
  command : Command
  src : String
  dst : String
  template : Option String := none
  deriving DecidableEq

def Step.text (s : Step) : String :=
  match s.template with
  | some template => template
  | none =>
    "\x7b\x7b" ++ s.command.function ++ " . \"" ++ s.dst ++ "\" \"" ++ s.src ++ "\"\x7d\x7d"

end ShapeLines
