import ShapeLines.Query.KeyTree

/-!
# Queries

A key tree is written as `{key:source,key:{…}}`. An object of parallel arrays is turned into an
array of objects by `|@group` after its brace. A group gets this if it is an array, and also if it
stands inside one that gets it and reads elements by position below: grouping has to pass through
the objects that lie between two arrays.
-/

namespace ShapeLines

/-- What turns an object of arrays into an array of objects. -/
def groupModifier : String := "|@group"

namespace KeyNode

mutual

/-- Whether a source in the node or below it reads elements by position. -/
def hasWildcard : KeyNode → Bool
  | .leaf source => Fullname.hasWildcard source
  | .group _ children => anyWildcard children

def anyWildcard : List (String × KeyNode) → Bool
  | [] => false
  | (_, node) :: rest => hasWildcard node || anyWildcard rest

end

mutual

/-- The text of a node; `inGroup` tells whether a group around it is grouped. -/
def text (inGroup : Bool) : KeyNode → String
  | .leaf source => source
  | .group isArray children =>
    let grouped := isArray || (inGroup && anyWildcard children)
    "\x7b" ++ childrenText (inGroup || grouped) children ++ "\x7d" ++
      if grouped then groupModifier else ""

def childrenText (inGroup : Bool) : List (String × KeyNode) → String
  | [] => ""
  | (key, node) :: rest => key ++ ":" ++ text inGroup node ++ moreText inGroup rest

def moreText (inGroup : Bool) : List (String × KeyNode) → String
  | [] => ""
  | (key, node) :: rest => "," ++ key ++ ":" ++ text inGroup node ++ moreText inGroup rest

end

end KeyNode

namespace KeyTree

def hasWildcard (t : KeyTree) : Bool := KeyNode.anyWildcard t.children

/-- The text of a query. The root opens no group for what is inside it. -/
def text (t : KeyTree) : String :=
  "\x7b" ++ KeyNode.childrenText false t.children ++ "\x7d" ++
    if t.isArray then groupModifier else ""

end KeyTree

namespace Shape

def keyTree (coercion : Coercion) (options : KeyOptions) (s : Shape) : KeyTree :=
  KeyTree.ofFields s.header.direction coercion options s.fields

def query (coercion : Coercion) (options : KeyOptions) (s : Shape) : String :=
  (s.keyTree coercion options).text

end Shape

end ShapeLines
