import ShapeLines.Json.Number
import ShapeLines.KeyMap

/-!
# JSON values

Objects hold their members in ascending order of the keys, which is also the order in which members
are visited and written. `Json.Canonical` states this of a value and all values inside it.
-/

namespace ShapeLines

inductive Json where
  | null
  | bool (b : Bool)
  | num (n : Json.Number)
  | str (s : String)
  | arr (elements : List Json)
  | obj (members : List (String × Json))
  deriving Inhabited

namespace Json

/-- An object with the given members. Of two members with one key the later is kept. -/
def ofMembers (members : List (String × Json)) : Json :=
  .obj (Entries.ofList members)

mutual

/-- All objects in the value have their keys in ascending order. -/
def Canonical : Json → Prop
  | .arr elements => CanonicalElements elements
  | .obj members => Entries.Ascending members ∧ CanonicalMembers members
  | _ => True

def CanonicalElements : List Json → Prop
  | [] => True
  | v :: rest => Canonical v ∧ CanonicalElements rest

def CanonicalMembers : List (String × Json) → Prop
  | [] => True
  | (_, v) :: rest => Canonical v ∧ CanonicalMembers rest

end

def string? : Json → Option String
  | .str s => some s
  | _ => none

def bool? : Json → Option Bool
  | .bool b => some b
  | _ => none

def elements? : Json → Option (List Json)
  | .arr elements => some elements
  | _ => none

-- `deriving DecidableEq` does not handle a type that is nested in lists.
mutual

def decEq : (v w : Json) → Decidable (v = w)
  | .null, .null => isTrue rfl
  | .bool a, .bool b => decidable_of_iff (a = b) (by simp)
  | .num m, .num n => decidable_of_iff (m = n) (by simp)
  | .str s, .str t => decidable_of_iff (s = t) (by simp)
  | .arr vs, .arr ws =>
    have := decEqElements vs ws
    decidable_of_iff (vs = ws) (by simp)
  | .obj vs, .obj ws =>
    have := decEqMembers vs ws
    decidable_of_iff (vs = ws) (by simp)
  | .null, .bool _ | .null, .num _ | .null, .str _ | .null, .arr _ | .null, .obj _
  | .bool _, .null | .bool _, .num _ | .bool _, .str _ | .bool _, .arr _ | .bool _, .obj _
  | .num _, .null | .num _, .bool _ | .num _, .str _ | .num _, .arr _ | .num _, .obj _
  | .str _, .null | .str _, .bool _ | .str _, .num _ | .str _, .arr _ | .str _, .obj _
  | .arr _, .null | .arr _, .bool _ | .arr _, .num _ | .arr _, .str _ | .arr _, .obj _
  | .obj _, .null | .obj _, .bool _ | .obj _, .num _ | .obj _, .str _ | .obj _, .arr _ =>
    isFalse nofun

def decEqElements : (vs ws : List Json) → Decidable (vs = ws)
  | [], [] => isTrue rfl
  | [], _ :: _ | _ :: _, [] => isFalse nofun
  | v :: vs, w :: ws =>
    have := decEq v w
    have := decEqElements vs ws
    decidable_of_iff (v = w ∧ vs = ws) (by simp)

def decEqMembers : (vs ws : List (String × Json)) → Decidable (vs = ws)
  | [], [] => isTrue rfl
  | [], _ :: _ | _ :: _, [] => isFalse nofun
  | (k, v) :: vs, (l, w) :: ws =>
    have := decEq v w
    have := decEqMembers vs ws
    decidable_of_iff (k = l ∧ v = w ∧ vs = ws) (by simp [and_assoc])

end

instance : DecidableEq Json := decEq

end Json

end ShapeLines
