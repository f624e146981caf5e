import ShapeLines.Fullname.Positional
import ShapeLines.Step.Basic

/-!
# The steps of a shape

Every field whose bindings differ is copied. An outbound shape also sets up each container around
its fields once, so that an array without elements is there as well. All containers come before
all copies, and among each the outer places come before the inner ones; places of one depth keep
the order in which they were declared.
-/

namespace ShapeLines

namespace Step

def numericFormats : List String := ["number", "int", "integer", "float"]

/-- The template among the bindings of a field. That of the destination goes before that of the
source. -/
def templateOf? (f : Field) : Option String :=
  if isTemplate f.dst then some f.dst
  else if isTemplate f.src then some f.src
  else none

def commandOf (f : Field) : Command :=
  if (templateOf? f).isSome then .template
  else match f.format with
    | some format => if numericFormats.contains format then .copyNumber else .copyValue
    | none => .copyValue

/-- The step that copies a field. There is nothing to copy when its bindings are the same. -/
def copy? (f : Field) : Option Step :=
  if f.src = f.dst then none
  else some
    { target := f.fullname, command := commandOf f, src := f.src, dst := f.dst,
      template := templateOf? f }

def init (root target : String) (isArray : Bool) : Step :=
  let path := Fullname.toPositional target
  let dst := if path = "" then root else if root = "" then path else root ++ "." ++ path
  let value := if isArray then "list" else "dict"
  { target, command := if isArray then .initArray else .initObject, src := "", dst,
    template := some ("\x7b\x7bsetValue . \"" ++ dst ++ "\" " ++ value ++ " \x7d\x7d") }

/-- The step that sets up a container, given the text before a dot. -/
def initContainer (root container : String) : Step :=
  match Fullname.beforeHop? container.toList with
  | some array => init root (String.ofList array) true
  | none => init root container false

/-- The steps that set up the containers around a field, the innermost first. -/
def inits (root : String) (f : Field) : List Step :=
  (Fullname.enclosing f.fullname).map (initContainer root)

/-- The steps whose target no earlier step has. -/
def firstPerTarget : List Step → List Step
  | [] => []
  | s :: rest => s :: (firstPerTarget rest).filter (·.target ≠ s.target)

/-- Outer places first. -/
def byDepth (steps : List Step) : List Step :=
  steps.mergeSort fun a b => Fullname.depth a.target ≤ Fullname.depth b.target

def setUp (root : String) (fields : List Field) : List Step :=
  byDepth (firstPerTarget (fields.flatMap (inits root)))

def plan (direction : Direction) (root : String) (fields : List Field) : List Step :=
  (if direction = .outbound then setUp root fields else []) ++ byDepth (fields.filterMap copy?)

end Step

def Shape.steps (s : Shape) : List Step :=
  Step.plan s.header.direction s.header.id s.fields

end ShapeLines
