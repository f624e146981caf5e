import ShapeLines.Line.Entry
import ShapeLines.Proofs.Results

/-!
# The faults of a single line

What is wrong with a line by itself is found while its list literals are replaced, while it is cut
into pairs or while a header or a field is read from these. That there is no header or a second one
is not a fault of a line by itself.
-/

namespace ShapeLines

open Results

/-- The fault is found without a look at other lines. -/
def LineFault.OfOneLine : LineFault → Prop
  | .missingHeader => False
  | .duplicateHeader => False
  | _ => True

namespace Line

variable {fault : LineFault} {s : List Char}

theorem ofOneLine_of_expand (failed : expand s = .error fault) : fault.OfOneLine := by
  fun_induction expand s with
  | case1 => cases failed
  | case2 s key body opens inside after close rest gap ih =>
    exact ih (map_eq_error_iff.mp failed)
  | case3 =>
    cases failed
    trivial
  | case4 =>
    cases failed
    trivial
  | case5 s closed before after cut ih => exact ih (map_eq_error_iff.mp failed)
  | case6 => cases failed

theorem ofOneLine_of_pairOf {token : List Char} (failed : pairOf token = .error fault) :
    fault.OfOneLine := by
  unfold pairOf at failed
  split at failed
  · cases failed
  · dsimp only at failed
    split at failed
    · cases failed
      trivial
    · cases failed

theorem ofOneLine_of_pairs (failed : pairs s = .error fault) : fault.OfOneLine := by
  rcases bind_eq_error_iff.mp failed with literal | ⟨expanded, -, token⟩
  · exact ofOneLine_of_expand literal
  · obtain ⟨before, t, after, -, -, here⟩ := mapM_eq_error_iff.mp token
    exact ofOneLine_of_pairOf here

end Line

variable {fault : LineFault} {ps : List Line.Pair}

theorem Header.ofOneLine_of_needed {key : String} (failed : needed key ps = .error fault) :
    fault.OfOneLine := by
  unfold needed at failed
  split at failed
  · cases failed
    trivial
  · split at failed
    · cases failed
      trivial
    · cases failed

theorem Header.ofOneLine_of_ofPairs (failed : ofPairs ps = .error fault) : fault.OfOneLine := by
  rcases bind_eq_error_iff.mp failed with id | ⟨id, -, failed⟩
  · exact ofOneLine_of_needed id
  rcases bind_eq_error_iff.mp failed with version | ⟨version, -, failed⟩
  · exact ofOneLine_of_needed version
  rcases bind_eq_error_iff.mp failed with direction | ⟨direction, -, built⟩
  · unfold directionOf at direction
    dsimp only at direction
    split at direction
    · cases direction
    · cases direction
      trivial
  · cases built

theorem Field.ofOneLine_of_declare {field : Field} {pair : Line.Pair}
    (failed : field.declare pair = .error fault) : fault.OfOneLine := by
  obtain ⟨key, value⟩ := pair
  unfold declare at failed
  dsimp only at failed
  split at failed
  case h_2 =>
    have type := map_eq_error_iff.mp failed
    unfold typeOf at type
    split at type
    · cases type
    · cases type
      trivial
  case h_4 =>
    have flagged := map_eq_error_iff.mp failed
    unfold flag at flagged
    split at flagged
    · cases flagged
    · cases flagged
    · cases flagged
      trivial
  all_goals cases failed

theorem Field.ofOneLine_of_ofPairs (failed : ofPairs ps = .error fault) : fault.OfOneLine := by
  rcases bind_eq_error_iff.mp failed with pair | ⟨field, -, incomplete⟩
  · obtain ⟨before, p, after, f, -, -, here⟩ := foldlM_eq_error_iff.mp pair
    exact ofOneLine_of_declare here
  · unfold checked at incomplete
    split at incomplete
    · cases incomplete
      trivial
    · split at incomplete
      · cases incomplete
        trivial
      · cases incomplete

/-- What is wrong with a line by itself is a fault of one line. -/
theorem Line.Entry.ofOneLine_of_ofChars {s : List Char} (failed : ofChars s = .error fault) :
    fault.OfOneLine := by
  rcases bind_eq_error_iff.mp failed with token | ⟨ps, -, entry⟩
  · exact ofOneLine_of_pairs token
  · unfold ofPairs at entry
    split at entry
    · exact Header.ofOneLine_of_ofPairs (map_eq_error_iff.mp entry)
    · exact Field.ofOneLine_of_ofPairs (map_eq_error_iff.mp entry)

end ShapeLines
