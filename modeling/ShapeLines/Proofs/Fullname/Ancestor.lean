import ShapeLines.Proofs.Fullname.Enclosing

/-!
# Ancestors of places

The text of a place begins with the texts of the places above it, and what follows opens with a dot
or a `[]`. For the places of named ways that is the only reason why one text begins with another in
this manner, so the ancestors of a place are the places above it. A container whose place does not
end in `[]` also has fewer segments than every place inside it that does not end in `[]` either.
-/

namespace ShapeLines

namespace Fullname

theorem isAncestor_iff {ancestor path : String} : isAncestor ancestor path = true ↔
    ∃ rest, path.toList = ancestor.toList ++ rest ∧ rest ≠ [] ∧
      (ancestor = "" ∨ leadsInside rest = true) := by
  unfold isAncestor isAncestorChars
  cases after : Text.after? ancestor.toList path.toList with
  | none =>
    have apart : ∀ rest, path.toList ≠ ancestor.toList ++ rest := fun rest eq => by
      rw [Text.after?_eq_some_iff.mpr eq] at after
      contradiction
    simp [apart]
  | some rest =>
    have eq := Text.after?_eq_some_iff.mp after
    simp [eq]

theorem isAncestor_self (place : String) : isAncestor place place = false := by
  rw [Bool.eq_false_iff]
  intro ancestor
  obtain ⟨rest, text, ne, -⟩ := isAncestor_iff.mp ancestor
  exact ne (List.self_eq_append_right.mp text)

theorem leadsInside_append {s : List Char} (inside : leadsInside s = true) (t : List Char) :
    leadsInside (s ++ t) = true := by
  unfold leadsInside at inside
  split at inside
  · rfl
  · rfl
  · contradiction

theorem isAncestor_trans {a b c : String} (outer : isAncestor a b = true)
    (inner : isAncestor b c = true) : isAncestor a c = true := by
  obtain ⟨rest, text, ne, start⟩ := isAncestor_iff.mp outer
  obtain ⟨more, deeper, -, -⟩ := isAncestor_iff.mp inner
  refine isAncestor_iff.mpr ⟨rest ++ more, ?_, by simp [ne], ?_⟩
  · rw [deeper, text, List.append_assoc]
  · exact start.imp_right fun inside => leadsInside_append inside more

theorem exists_mark_of_leadsInside {s : List Char} (inside : leadsInside s = true) :
    '.' ∈ s ∨ '[' ∈ s := by
  unfold leadsInside at inside
  split at inside
  · simp
  · simp
  · contradiction

/-- Whether a text leads inside is seen before anything that does not open with a closing bracket.
-/
theorem leadsInside_of_append {s t : List Char} (ne : s ≠ []) (start : t.head? ≠ some ']')
    (inside : leadsInside (s ++ t) = true) : leadsInside s = true := by
  unfold leadsInside at inside
  split at inside
  · next eq =>
    cases s with
    | nil => contradiction
    | cons c s =>
      obtain ⟨rfl, -⟩ := List.cons.inj eq
      rfl
  · next eq =>
    match s with
    | [] => contradiction
    | [c] =>
      obtain ⟨-, rfl⟩ := List.cons.inj eq
      simp at start
    | c :: d :: s =>
      obtain ⟨rfl, tail⟩ := List.cons.inj eq
      obtain ⟨rfl, -⟩ := List.cons.inj tail
      rfl
  · contradiction

/-- A text that is put together from two parts, of which the second holds a mark at its start at
most, begins with another text and then leads inside only if its first part begins with that text.
-/
theorem exists_of_append_eq {a b t rest : List Char} (eq : a ++ t = b ++ rest)
    (start : t.head? ≠ some ']') (unmarked : '.' ∉ t.tail ∧ '[' ∉ t.tail)
    (inside : leadsInside rest = true) :
    ∃ after, a = b ++ after ∧ (after = [] ∨ leadsInside after = true) := by
  rcases List.append_eq_append_iff.mp eq with ⟨before, part, second⟩ | ⟨after, part, tail⟩
  · cases before with
    | nil => exact ⟨[], by rw [part, List.append_nil, List.append_nil], .inl rfl⟩
    | cons c before =>
      rw [second, List.cons_append, List.tail_cons, List.mem_append, List.mem_append] at unmarked
      rcases exists_mark_of_leadsInside inside with dot | bracket
      · exact absurd (.inr dot) unmarked.1
      · exact absurd (.inr bracket) unmarked.2
  · refine ⟨after, part, ?_⟩
    by_cases ne : after = []
    · exact .inl ne
    · exact .inr (leadsInside_of_append ne start (tail ▸ inside))

end Fullname

namespace Way

open Fullname

variable {u v : List Hop}

/-- The text that a hop adds to a place holds a mark at its start at most. -/
theorem exists_below_eq {hop : Hop} (named : Named [hop]) (base : String) :
    ∃ t, (hop.below base).toList = base.toList ++ t ∧ t.head? ≠ some ']' ∧
      '.' ∉ t.tail ∧ '[' ∉ t.tail := by
  cases hop with
  | elements => exact ⟨['[', ']'], toList_element base, by decide, by decide, by decide⟩
  | property name =>
    obtain ⟨dot, opening, closing⟩ := isUnmarked_iff.mp (named name (by simp)).2
    rw [Hop.below, toList_join]
    split
    · next root =>
      refine ⟨name.toList, by simp [root], fun head => closing (List.mem_of_head? head), ?_, ?_⟩
      · exact fun mem => dot (List.mem_of_mem_tail mem)
      · exact fun mem => opening (List.mem_of_mem_tail mem)
    · exact ⟨'.' :: name.toList, by simp, by simp, dot, opening⟩

/-- A place begins with the place of a way, and then leads inside, only if the way stands above. -/
theorem isPrefix_of_leadsInside (namedU : Named u) (namedV : Named v) {rest : List Char}
    (text : (place v).toList = (place u).toList ++ rest) (inside : leadsInside rest = true) :
    u <+: v := by
  induction v using List.reverseRecOn generalizing rest with
  | nil =>
    have nil := (List.append_eq_nil_iff.mp text.symm).2
    rw [nil] at inside
    contradiction
  | append_singleton v hop ih =>
    obtain ⟨t, below, start, unmarked⟩ := exists_below_eq namedV.of_append_right (place v)
    rw [place_append_singleton, below] at text
    obtain ⟨after, above, none | deeper⟩ := exists_of_append_eq text start unmarked inside
    · rw [none, List.append_nil, String.toList_inj] at above
      rw [place_inj namedV.of_append_left namedU above]
      exact List.prefix_append ..
    · exact (ih namedV.of_append_left above deeper).trans (List.prefix_append ..)

theorem isAncestor_below {hop : Hop} (named : Named [hop]) (base : String) :
    isAncestor base (hop.below base) = true := by
  cases hop with
  | elements => exact isAncestor_iff.mpr ⟨['[', ']'], toList_element base, by simp, .inr rfl⟩
  | property name =>
    have ne : name.toList ≠ [] := fun nil =>
      (named name (by simp)).1 (String.toList_eq_nil_iff.mp nil)
    rw [isAncestor_iff, Hop.below, toList_join]
    by_cases root : base = ""
    · exact ⟨name.toList, by simp [root], ne, .inl root⟩
    · exact ⟨'.' :: name.toList, by simp [root], by simp, .inr rfl⟩

theorem isAncestor_place_append {u w : List Hop} (named : Named w) (ne : w ≠ []) :
    isAncestor (place u) (place (u ++ w)) = true := by
  induction w using List.reverseRecOn with
  | nil => contradiction
  | append_singleton w hop ih =>
    have last := isAncestor_below named.of_append_right (place (u ++ w))
    rw [← List.append_assoc, place_append_singleton]
    by_cases none : w = []
    · rwa [none, List.append_nil] at last ⊢
    · exact isAncestor_trans (ih named.of_append_left none) last

theorem isPrefix_of_isAncestor (namedU : Named u) (namedV : Named v)
    (ancestor : isAncestor (place u) (place v) = true) : u <+: v ∧ u ≠ v := by
  obtain ⟨rest, text, ne, empty | inside⟩ := isAncestor_iff.mp ancestor
  · rw [(place_eq_empty_iff namedU).mp empty] at text ⊢
    refine ⟨List.nil_prefix, ?_⟩
    rintro rfl
    exact ne (List.self_eq_append_right.mp text)
  · refine ⟨isPrefix_of_leadsInside namedU namedV text inside, ?_⟩
    rintro rfl
    exact ne (List.self_eq_append_right.mp text)

/-- The ancestors of the place of a way are the places that the way goes through. -/
theorem isAncestor_place_iff (namedU : Named u) (namedV : Named v) :
    isAncestor (place u) (place v) = true ↔ u <+: v ∧ u ≠ v := by
  constructor
  · exact isPrefix_of_isAncestor namedU namedV
  · rintro ⟨⟨w, rfl⟩, ne⟩
    exact isAncestor_place_append namedV.of_append_right fun nil => ne (by simp [nil])

/-! ## Depths -/

theorem length_segments (regular : Regular v) :
    (segments v).length =
      v.countP (· ≠ .elements) + if v.head? = some .elements then 1 else 0 := by
  fun_induction segments v with
  | case1 => rfl
  | case2 way ih =>
    rw [List.length_cons, ih regular.tail, if_neg regular.head?_ne]
    simp
  | case3 name way ih =>
    rw [List.length_cons, ih regular.tail.tail, if_neg regular.tail.head?_ne]
    simp
  | case4 name way noHop ih =>
    rw [List.length_cons, ih regular.tail, if_neg (head?_ne_elements noHop)]
    simp

/-- Below a place there are more segments, if neither place ends in elements. What stands right
below the root must be elements, since the root has no segment of its own. -/
theorem depth_lt (regular : Regular v) (above : u <+: v) (ne : u ≠ v)
    (last : v.getLast? ≠ some .elements) (root : u = [] → v.head? = some .elements) :
    depth (place u) < depth (place v) := by
  obtain ⟨w, rfl⟩ := above
  have nonempty : w ≠ [] := fun nil => ne (by rw [nil, List.append_nil])
  rw [depth, depth, (regular.of_part (List.prefix_append u w)).segments_place,
    regular.segments_place, length_segments (regular.of_part (List.prefix_append u w)),
    length_segments regular, List.countP_append]
  have below : 0 < w.countP (· ≠ .elements) := by
    rw [List.countP_pos_iff]
    refine ⟨w.getLast nonempty, List.getLast_mem nonempty, ?_⟩
    rw [List.getLast?_append_of_ne_nil _ nonempty, List.getLast?_eq_some_getLast nonempty] at last
    simpa using last
  cases u with
  | nil =>
    have start : w.head? = some .elements := root rfl
    simp only [List.countP_nil, List.nil_append, List.head?_nil, start, reduceCtorEq, if_true,
      if_false]
    omega
  | cons hop u =>
    have own : 0 < (hop :: u).countP (· ≠ .elements) +
        if (hop :: u).head? = some .elements then 1 else 0 := by
      cases hop <;> simp
    rw [List.head?_append_of_ne_nil _ (by simp)]
    omega

theorem depth_append_elements (regular : Regular (u ++ [.elements])) :
    depth (place (u ++ [.elements])) = depth (place u) := by
  have regularU := regular.of_part (List.prefix_append u [.elements])
  rw [depth, depth, regularU.segments_place, regular.segments_place, length_segments regularU,
    length_segments regular, List.countP_append]
  cases u <;> simp

/-- Below a place that is not the root, only its own elements are not deeper. -/
theorem eq_append_elements (regular : Regular v) (above : u <+: v) (ne : u ≠ v) (nonempty : u ≠ [])
    (le : depth (place v) ≤ depth (place u)) : v = u ++ [.elements] := by
  by_cases last : v.getLast? = some .elements
  · obtain ⟨w, rfl⟩ := List.getLast?_eq_some_iff.mp last
    rw [depth_append_elements regular] at le
    rcases List.prefix_concat_iff.mp above with same | above
    · exact absurd same ne
    · by_cases here : u = w
      · rw [here]
      · have lastW : w.getLast? ≠ some .elements := fun hop => by
          obtain ⟨x, rfl⟩ := List.getLast?_eq_some_iff.mp hop
          exact regular.apart ⟨x, [], by simp⟩
        have lt := depth_lt (regular.of_part (List.prefix_append w [.elements])) above here lastW
          fun nil => absurd nil nonempty
        omega
  · have lt := depth_lt regular above ne last fun nil => absurd nil nonempty
    omega

theorem Container.getLast?_ne {way : List Hop} {isArray : Bool}
    (container : Container way u isArray) (regular : Regular way) :
    u.getLast? ≠ some .elements := by
  cases container with
  | @array name r eq =>
    intro last
    obtain ⟨v, rfl⟩ := List.getLast?_eq_some_iff.mp last
    exact regular.apart ⟨v, .property name :: r, by simpa using eq⟩
  | object last =>
    rw [last]
    simp

end Way

theorem Field.head?_way_iff {f : Field} (plain : Segment.Plain f.segments) :
    f.way.head? = some .elements ↔ f.segments.head? = some ⟨"", true⟩ := by
  unfold Field.way
  cases eq : f.segments with
  | nil => simp
  | cons s rest =>
    obtain ⟨name, isArray⟩ := s
    by_cases bare : name = ""
    · have hop : isArray = true := plain.hop ⟨name, isArray⟩ (eq ▸ List.mem_cons_self) bare
      simp [Segment.hops, bare, hop]
    · simp [Segment.hops, bare]

end ShapeLines
