import ShapeLines.Proofs.Schema.Way

/-!
# Fullnames read as ways

A fullname is read from its start: every name is a hop to a property and every `[]` a hop to the
elements. Unlike the segments of a field, this reading goes into the elements of arrays that are
elements themselves. The place of a way is read as the way.
-/

namespace ShapeLines

namespace Fullname

/-- The hop to the property that has been read, if a name has been read. -/
def pending (name : List Char) : List Hop :=
  if name = [] then [] else [.property (String.ofList name)]

/-- The hops of a text that goes on after `name`. -/
def hopsAfter (name : List Char) : List Char → List Hop
  | [] => pending name
  | '.' :: rest => pending name ++ hopsAfter [] rest
  | '[' :: ']' :: rest => pending name ++ .elements :: hopsAfter [] rest
  | c :: rest => hopsAfter (name ++ [c]) rest

/-- The way that a fullname describes: each name through a property, each `[]` through the elements.
-/
def hops (fullname : String) : List Hop :=
  hopsAfter [] fullname.toList

/-- A text that ends the name before it is read apart from what stands before. -/
theorem hopsAfter_append {t : List Char} {after : List Hop}
    (ends : ∀ name, hopsAfter name t = pending name ++ after) (start : t.head? ≠ some ']')
    (name s : List Char) : hopsAfter name (s ++ t) = hopsAfter name s ++ after := by
  fun_induction hopsAfter name s with
  | case1 name => rw [List.nil_append, ends]
  | case2 name s ih => rw [List.cons_append, hopsAfter, ih, List.append_assoc]
  | case3 name s ih => rw [List.cons_append, List.cons_append, hopsAfter, ih]; simp
  | case4 name c s dot hop ih =>
    rw [List.cons_append, hopsAfter, ih]
    · exact dot
    · -- an opening bracket at the end of `s` is not closed by `t`
      intro r eq text
      cases s with
      | nil => exact start (by rw [← List.nil_append t, text]; rfl)
      | cons d s =>
        obtain ⟨rfl, -⟩ := List.cons.inj text
        exact hop s eq rfl

theorem hopsAfter_unmarked {name : List Char} (s : List Char)
    (unmarked : '.' ∉ name ∧ '[' ∉ name) : hopsAfter s name = pending (s ++ name) := by
  induction name generalizing s with
  | nil => rw [hopsAfter, List.append_nil]
  | cons c name ih =>
    obtain ⟨dot, opening⟩ := unmarked
    rw [List.mem_cons, not_or] at dot opening
    rw [hopsAfter, ih _ ⟨dot.2, opening.2⟩, List.append_assoc, List.singleton_append]
    · exact fun eq => dot.1 eq.symm
    · exact fun _ eq => absurd eq.symm opening.1

theorem hops_join (base : String) {name : String} (ne : name ≠ "")
    (unmarked : isUnmarked name = true) :
    hops (join base name) = hops base ++ [.property name] := by
  have nonempty : name.toList ≠ [] := fun nil => ne (String.toList_eq_nil_iff.mp nil)
  obtain ⟨dot, opening, -⟩ := isUnmarked_iff.mp unmarked
  have last : hopsAfter [] name.toList = [.property name] := by
    rw [hopsAfter_unmarked [] ⟨dot, opening⟩, List.nil_append, pending, if_neg nonempty,
      String.ofList_toList]
  have dotted (s : List Char) :
      hopsAfter s ('.' :: name.toList) = pending s ++ [.property name] := by rw [hopsAfter, last]
  unfold hops
  rw [Way.toList_join]
  split
  · next empty => rw [empty, List.nil_append, last]; rfl
  · rw [List.append_assoc, List.singleton_append, hopsAfter_append dotted (by simp)]

theorem hops_element (base : String) : hops (element base) = hops base ++ [.elements] := by
  unfold hops
  rw [Way.toList_element]
  exact hopsAfter_append (fun _ => rfl) (by simp) [] base.toList

end Fullname

namespace Way

theorem hops_place {way : List Hop} (named : Named way) : Fullname.hops (place way) = way := by
  induction way using List.reverseRecOn with
  | nil => rfl
  | append_singleton way hop ih =>
    rw [place_append_singleton]
    cases hop with
    | property name =>
      obtain ⟨ne, unmarked⟩ := named name (by simp)
      rw [Hop.below, Fullname.hops_join _ ne unmarked, ih named.of_append_left]
    | elements => rw [Hop.below, Fullname.hops_element, ih named.of_append_left]

end Way

end ShapeLines
