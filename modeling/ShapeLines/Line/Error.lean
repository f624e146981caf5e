/-!
# Faults in the line format

A fault carries the number of its line in the whole text, counted from one, and its cause. A header
that is missing is reported at the first line of its block.
-/

namespace ShapeLines

/-- Why a text does not describe a shape. -/
inductive LineFault where
  | missingHeaderKey (key : String)
  | invalidDirection (got : String)
  | duplicateHeader
  | missingHeader
  | missingFullname
  | missingBinding (fullname : String)
  | unknownType (got : String)
  | invalidFlag (key got : String)
  | malformedList (key : String)
  | emptyKey (token : String)
  deriving DecidableEq

structure LineError where
  line : Nat
  fault : LineFault
  deriving DecidableEq

def LineError.lineText (e : LineError) : String :=
  String.ofList (Nat.toDigits 10 e.line)

def LineError.message (e : LineError) : String :=
  let place := "line " ++ e.lineText ++ ": "
  match e.fault with
  | .missingHeaderKey key => place ++ "meta line requires a non-empty '" ++ key ++ "'"
  | .invalidDirection got =>
    place ++ "direction must be one of [in, out, convert], got '" ++ got ++ "'"
  | .duplicateHeader => place ++ "a second meta line in the same schema"
  | .missingHeader =>
    "schema starting at line " ++ e.lineText ++ " has no meta line (version, direction, id)"
  | .missingFullname => place ++ "fullname required"
  | .missingBinding fullname => place ++ "at least one of src/dst required for '" ++ fullname ++ "'"
  | .unknownType got => place ++ "unknown type '" ++ got ++ "'"
  | .invalidFlag key got => place ++ "'" ++ key ++ "' expects true or false, got '" ++ got ++ "'"
  | .malformedList key => place ++ "unterminated list literal for '" ++ key ++ "'"
  | .emptyKey token => place ++ "empty key in '" ++ token ++ "'"

end ShapeLines
