import ShapeLines.Proofs.Schema.Way

/-!
# The containers around a place

What stands before a dot of a fullname is a container of the place that the fullname names. A `[]`
at its end says that the container is an array, whose own place stands before the `[]`. The
containers around the place of a way are the parts of the way after which it goes on to a property.
-/

namespace ShapeLines

namespace Fullname

theorem mem_cuts {s part : List Char} : part ∈ cuts s ↔ ∃ rest, s = part ++ '.' :: rest := by
  induction s generalizing part with
  | nil => simp [cuts]
  | cons c s ih =>
    rw [cuts, List.mem_append, List.mem_map]
    cases part with
    | nil =>
      by_cases dot : c = '.' <;> simp [dot]
    | cons d part =>
      have start : d :: part ∉ (if c = '.' then [[]] else []) := by split <;> simp
      simp only [start, false_or, List.cons.injEq, ih, List.cons_append]
      constructor
      · rintro ⟨_, ⟨rest, eq⟩, rfl, rfl⟩
        exact ⟨rest, rfl, eq⟩
      · rintro ⟨rest, rfl, eq⟩
        exact ⟨part, ⟨rest, eq⟩, rfl, rfl⟩

theorem mem_enclosing {fullname container : String} :
    container ∈ enclosing fullname ↔ ∃ rest, fullname = container ++ "." ++ rest := by
  unfold enclosing
  rw [List.mem_map]
  constructor
  · rintro ⟨part, mem, rfl⟩
    obtain ⟨rest, eq⟩ := mem_cuts.mp (List.mem_reverse.mp mem)
    refine ⟨String.ofList rest, String.toList_inj.mp ?_⟩
    simp [eq]
  · rintro ⟨rest, rfl⟩
    refine ⟨container.toList, List.mem_reverse.mpr (mem_cuts.mpr ⟨rest.toList, ?_⟩), by simp⟩
    simp

/-- A dot of a text stands in the first part of the text or in the second. -/
theorem dot_append {a b part rest : List Char} (eq : a ++ b = part ++ '.' :: rest) :
    (∃ inner, a = part ++ '.' :: inner) ∨
      ∃ before, part = a ++ before ∧ b = before ++ '.' :: rest := by
  rcases List.append_eq_append_iff.mp eq with ⟨before, part, second⟩ | ⟨after, first, dotted⟩
  · exact .inr ⟨before, part, second⟩
  · cases after with
    | nil => exact .inr ⟨[], by simpa using first.symm, by simpa using dotted.symm⟩
    | cons c after =>
      obtain ⟨rfl, -⟩ := List.cons.inj dotted
      exact .inl ⟨after, first⟩

/-- The own place of a container, without the `[]` that makes it an array. -/
def containerPlace (container : String) : String :=
  (beforeHop? container.toList).elim container String.ofList

theorem containerPlace_element (place : String) : containerPlace (element place) = place := by
  rw [containerPlace, Way.toList_element, beforeHop?_append]
  simp

theorem beforeHop?_of_not_element {container : String} (h : ∀ place, container ≠ element place) :
    beforeHop? container.toList = none := by
  cases before : beforeHop? container.toList with
  | none => rfl
  | some place =>
    refine absurd (String.toList_inj.mp ?_) (h (String.ofList place))
    rw [Way.toList_element, String.toList_ofList]
    exact eq_append_of_beforeHop? before

theorem containerPlace_of_not_element {container : String}
    (h : ∀ place, container ≠ element place) : containerPlace container = container := by
  rw [containerPlace, beforeHop?_of_not_element h]
  rfl

end Fullname

namespace Way

open Fullname (element join containerPlace)

variable {way u : List Hop} {container rest : String} {isArray : Bool}

/-- The way `u` leads to a container around the place of `way`: to an array whose elements the way
goes through, or to a property that is an object. -/
inductive Container (way u : List Hop) : Bool → Prop where
  | array {name : String} {r : List Hop} (eq : u ++ .elements :: .property name :: r = way) :
    Container way u true
  | object {v : List Hop} {key name : String} {r : List Hop} (last : u = v ++ [.property key])
    (eq : u ++ .property name :: r = way) : Container way u false

/-- A dot of a place stands in the place one hop above, or it ends that place and a name follows. -/
theorem dot_below {base : String} {hop : Hop} (named : Named [hop])
    (eq : hop.below base = container ++ "." ++ rest) :
    (∃ inner, base = container ++ "." ++ inner) ∨
      base = container ∧ base ≠ "" ∧ ∃ name, hop = .property name := by
  have lists : (hop.below base).toList = container.toList ++ '.' :: rest.toList := by
    rw [eq]
    simp
  have above {inner : List Char} (cut : base.toList = container.toList ++ '.' :: inner) :
      ∃ inner, base = container ++ "." ++ inner :=
    ⟨String.ofList inner, String.toList_inj.mp (by simp [cut])⟩
  cases hop with
  | elements =>
    rw [Hop.below, toList_element] at lists
    rcases Fullname.dot_append lists with ⟨inner, cut⟩ | ⟨before, -, bracket⟩
    · exact .inl (above cut)
    · have dot : '.' ∈ ['[', ']'] := by simp [bracket]
      simp at dot
  | property name =>
    have noDot := (Fullname.isUnmarked_iff.mp (named name (by simp)).2).1
    rw [Hop.below, toList_join] at lists
    split at lists
    · rw [List.nil_append] at lists
      exact absurd (by simp [lists]) noDot
    · next ne =>
      rw [List.append_assoc, List.singleton_append] at lists
      rcases Fullname.dot_append lists with ⟨inner, cut⟩ | ⟨before, own, dotted⟩
      · exact .inl (above cut)
      · cases before with
        | nil =>
          rw [List.append_nil] at own
          exact .inr ⟨(String.toList_inj.mp own).symm, ne, name, rfl⟩
        | cons c before =>
          obtain ⟨-, tail⟩ := List.cons.inj dotted
          exact absurd (by simp [tail]) noDot

/-- What stands before a dot of a place is a place from which the way goes on to a property. -/
theorem exists_of_place_eq (named : Named way) (eq : place way = container ++ "." ++ rest) :
    ∃ w name r, w ++ .property name :: r = way ∧ w ≠ [] ∧ container = place w := by
  induction way using List.reverseRecOn generalizing rest with
  | nil =>
    have lists := congrArg String.toList eq
    simp at lists
  | append_singleton way hop ih =>
    rw [place_append_singleton] at eq
    rcases dot_below named.of_append_right eq with ⟨inner, above⟩ | ⟨here, ne, name, rfl⟩
    · obtain ⟨w, name, r, rfl, nonempty, place⟩ := ih named.of_append_left above
      exact ⟨w, name, r ++ [hop], by simp, nonempty, place⟩
    · exact ⟨way, name, [], rfl, fun nil => ne (by rw [nil, place_nil]), here.symm⟩

/-- What stands before a dot of a place is the text of a container around the place. -/
theorem exists_container (named : Named way) (eq : place way = container ++ "." ++ rest) :
    ∃ u isArray, Container way u isArray ∧ containerPlace container = place u ∧
      ((∃ array, container = element array) ↔ isArray = true) := by
  obtain ⟨w, name, r, rfl, ne, rfl⟩ := exists_of_place_eq named eq
  rcases List.eq_nil_or_concat' w with rfl | ⟨u, hop, rfl⟩
  · contradiction
  · rw [place_append_singleton]
    cases hop with
    | elements =>
      refine ⟨u, true, .array (by rw [List.append_assoc]; rfl), ?_, ?_⟩
      · exact Fullname.containerPlace_element _
      · simp [Hop.below]
    | property key =>
      have key' := named key (by simp)
      have noHop : ∀ array, join (place u) key ≠ element array :=
        fun _ => join_ne_element key'.1 key'.2
      refine ⟨u ++ [.property key], false, .object rfl rfl, ?_, ?_⟩
      · rw [Hop.below, Fullname.containerPlace_of_not_element noHop, place_append_singleton,
          Hop.below]
      · simp [Hop.below, noHop]

theorem Container.isPrefix (container : Container way u isArray) : u <+: way := by
  cases container with
  | array eq => exact ⟨_, eq⟩
  | object _ eq => exact ⟨_, eq⟩

end Way

end ShapeLines
