import ShapeLines.Shape.Codec
import ShapeLines.Step.Block

/-!
# Steps as JSON values

The members are named as in the template language; a template that is absent is left out.
-/

namespace ShapeLines

namespace Command

def name : Command → String
  | .copyNumber => "copyNumber"
  | .copyValue => "copyValue"
  | .initArray => "initArray"
  | .initObject => "initObject"
  | .template => "template"

def ofName? (s : String) : Option Command :=
  match s with
  | "copyNumber" => some .copyNumber
  | "copyValue" => some .copyValue
  | "initArray" => some .initArray
  | "initObject" => some .initObject
  | "template" => some .template
  | _ => none

def ofJson? (v : Json) : Option Command := v.enumName?.bind ofName?

end Command

namespace Step

def toJson (s : Step) : Json :=
  Json.ofMembers <|
    [("targetId", .str s.target), ("command", .str s.command.name), ("src", .str s.src),
      ("dst", .str s.dst)] ++ Field.textMember "template" s.template

def memberNames : List String := ["targetId", "command", "src", "dst", "template"]

def ofMembers? (members : List (String × Json)) : Option Step := do
  let target ← Json.required? members "targetId" Json.string?
  let command ← Json.required? members "command" Command.ofJson?
  let src ← Json.required? members "src" Json.string?
  let dst ← Json.required? members "dst" Json.string?
  let template ← Json.optional? members "template" none Json.optionalString?
  return { target, command, src, dst, template }

def ofJson? : Json → Option Step := Json.record? memberNames ofMembers?

end Step

def StepBlock.toJson (b : StepBlock) : Json :=
  Json.ofMembers [("id", .str b.id), ("version", .str b.version),
    ("direction", b.direction.toJson), ("instructions", .arr (b.steps.map Step.toJson))]

end ShapeLines
