import Mathlib.Data.List.Basic
import Mathlib.Data.List.Induction
import ShapeLines.Schema.Draft
import ShapeLines.Proofs.Fullname.Plain

/-!
# Ways and the texts of their places

A way is a list of hops down from the root of a schema. Its place is the fullname that a draft
enters the node under. Names without brackets and dots keep the places of different ways apart,
which is what a draft relies on when it looks a node up by its text.
-/

namespace ShapeLines

def Segment.hops (s : Segment) : List Hop :=
  (if s.name = "" then [] else [Hop.property s.name]) ++ if s.isArray then [Hop.elements] else []

theorem Segment.hops_object {name : String} (ne : name ≠ "") :
    Segment.hops ⟨name, false⟩ = [.property name] := by
  simp [hops, ne]

theorem Segment.hops_array {name : String} (ne : name ≠ "") :
    Segment.hops ⟨name, true⟩ = [.property name, .elements] := by
  simp [hops, ne]

/-- The way that the fullname of a field describes. -/
def Field.way (f : Field) : List Hop :=
  f.segments.flatMap Segment.hops

/-- The place one hop below `base`. -/
def Hop.below (base : String) : Hop → String
  | .property name => Fullname.join base name
  | .elements => Fullname.element base

namespace Way

open Fullname

def place (way : List Hop) : String :=
  way.foldl Hop.below ""

def Named (way : List Hop) : Prop :=
  ∀ name, Hop.property name ∈ way → name ≠ "" ∧ isUnmarked name = true

@[simp] theorem place_nil : place [] = "" := rfl

@[simp] theorem place_append_singleton (way : List Hop) (hop : Hop) :
    place (way ++ [hop]) = hop.below (place way) := by
  unfold place
  rw [List.foldl_append]
  rfl

theorem Named.of_append_left {u v : List Hop} (h : Named (u ++ v)) : Named u :=
  fun name mem => h name (List.mem_append_left v mem)

theorem Named.of_append_right {u v : List Hop} (h : Named (u ++ v)) : Named v :=
  fun name mem => h name (List.mem_append_right u mem)

theorem Named.of_part {u v : List Hop} (h : Named v) (le : u <+: v) : Named u :=
  fun name mem => h name (le.subset mem)

theorem named_nil : Named [] := fun _ mem => absurd mem List.not_mem_nil

/-- What stands before a name that continues the place `base`. -/
theorem toList_join (base name : String) :
    (join base name).toList =
      (if base = "" then [] else base.toList ++ ['.']) ++ name.toList := by
  unfold join
  split
  · simp
  · simp

theorem toList_element (base : String) : (element base).toList = base.toList ++ ['[', ']'] := by
  simp [element]

theorem join_ne_element {base base' name : String} (ne : name ≠ "")
    (unmarked : isUnmarked name = true) : join base name ≠ element base' := by
  intro eq
  have lists := congrArg String.toList eq
  rw [toList_join, toList_element] at lists
  have last := congrArg List.getLast? lists
  have nonempty : name.toList ≠ [] := fun nil => ne (String.toList_eq_nil_iff.mp nil)
  have closing : name.toList.getLast? = some ']' := by
    rw [List.getLast?_append_of_ne_nil _ nonempty] at last
    simpa using last
  exact (isUnmarked_iff.mp unmarked).2.2 (List.mem_of_getLast? closing)

/-- The text after the last dot and the text before it are determined. -/
theorem eq_of_append_dot {a b n m : List Char} (hn : '.' ∉ n) (hm : '.' ∉ m)
    (eq : a ++ '.' :: n = b ++ '.' :: m) : a = b ∧ n = m := by
  have split (l : List Char) (s : List Char) (h : '.' ∉ s) :
      ((l ++ '.' :: s).reverse).takeWhile (· != '.') = s.reverse := by
    rw [List.reverse_append, List.reverse_cons, List.append_assoc]
    rw [List.takeWhile_append_of_pos]
    · simp
    · intro c mem
      have ne : c ≠ '.' := fun e => h (e ▸ List.mem_reverse.mp mem)
      simpa using ne
  have names : n = m := by
    have both := split a n hn
    rw [eq, split b m hm] at both
    exact (List.reverse_inj.mp both).symm
  subst names
  exact ⟨List.append_cancel_right eq, rfl⟩

theorem join_inj {a b n m : String} (hn : isUnmarked n = true) (hm : isUnmarked m = true)
    (eq : join a n = join b m) : a = b ∧ n = m := by
  have dotN := (isUnmarked_iff.mp hn).1
  have dotM := (isUnmarked_iff.mp hm).1
  have lists := congrArg String.toList eq
  rw [toList_join, toList_join] at lists
  by_cases ha : a = ""
  · by_cases hb : b = ""
    · rw [if_pos ha, if_pos hb] at lists
      exact ⟨ha.trans hb.symm, String.toList_inj.mp lists⟩
    · rw [if_pos ha, if_neg hb, List.nil_append] at lists
      rw [lists] at dotN
      simp at dotN
  · by_cases hb : b = ""
    · rw [if_neg ha, if_pos hb, List.nil_append] at lists
      rw [← lists] at dotM
      simp at dotM
    · rw [if_neg ha, if_neg hb, List.append_assoc, List.append_assoc, List.singleton_append,
        List.singleton_append] at lists
      obtain ⟨bases, names⟩ := eq_of_append_dot dotN dotM lists
      exact ⟨String.toList_inj.mp bases, String.toList_inj.mp names⟩

theorem join_ne_empty {base name : String} (ne : name ≠ "") : join base name ≠ "" := by
  intro eq
  have lists := congrArg String.toList eq
  rw [toList_join] at lists
  exact ne (String.toList_eq_nil_iff.mp (List.append_eq_nil_iff.mp lists).2)

theorem element_ne_empty (base : String) : element base ≠ "" := by
  intro eq
  have lists := congrArg String.toList eq
  rw [toList_element] at lists
  simp at lists

theorem below_ne_empty {base : String} {hop : Hop} (named : Named [hop]) :
    hop.below base ≠ "" := by
  cases hop with
  | property name => exact join_ne_empty (named name (List.mem_singleton_self _)).1
  | elements => exact element_ne_empty base

theorem place_eq_empty_iff {way : List Hop} (named : Named way) : place way = "" ↔ way = [] := by
  rcases List.eq_nil_or_concat' way with rfl | ⟨w, hop, rfl⟩
  · simp
  · rw [place_append_singleton]
    simp [below_ne_empty named.of_append_right]

theorem below_inj {a b : String} {g h : Hop} (hg : Named [g]) (hh : Named [h])
    (eq : g.below a = h.below b) : a = b ∧ g = h := by
  cases g with
  | property n =>
    have hn := hg n (List.mem_singleton_self _)
    cases h with
    | property m =>
      have hm := hh m (List.mem_singleton_self _)
      obtain ⟨bases, names⟩ := join_inj hn.2 hm.2 eq
      exact ⟨bases, by rw [names]⟩
    | elements => exact absurd eq (join_ne_element hn.1 hn.2)
  | elements =>
    cases h with
    | property m =>
      have hm := hh m (List.mem_singleton_self _)
      exact absurd eq.symm (join_ne_element hm.1 hm.2)
    | elements =>
      have lists := congrArg String.toList eq
      rw [Hop.below, Hop.below, toList_element, toList_element] at lists
      exact ⟨String.toList_inj.mp (List.append_cancel_right lists), rfl⟩

theorem place_inj {u v : List Hop} (hu : Named u) (hv : Named v) (eq : place u = place v) :
    u = v := by
  induction u using List.reverseRecOn generalizing v with
  | nil => exact ((place_eq_empty_iff hv).mp eq.symm).symm
  | append_singleton u g ih =>
    rcases List.eq_nil_or_concat' v with rfl | ⟨v, h, rfl⟩
    · exact (place_eq_empty_iff hu).mp eq
    · rw [place_append_singleton, place_append_singleton] at eq
      obtain ⟨bases, hops⟩ := below_inj hu.of_append_right hv.of_append_right eq
      rw [ih hu.of_append_left hv.of_append_left bases, hops]

/-- The segments of a fullname that describes the way. -/
def segments : List Hop → List Segment
  | [] => []
  | .elements :: way => ⟨"", true⟩ :: segments way
  | .property name :: .elements :: way => ⟨name, true⟩ :: segments way
  | .property name :: way => ⟨name, false⟩ :: segments way

/-- A way that a plain fullname can describe: no array is the element of an array. -/
structure Regular (way : List Hop) : Prop where
  named : Named way
  apart : ¬ [Hop.elements, Hop.elements] <:+: way

theorem Regular.of_part {u v : List Hop} (h : Regular v) (le : u <+: v) : Regular u :=
  ⟨h.named.of_part le, fun twice => h.apart (twice.trans le.isInfix)⟩

theorem Regular.tail {hop : Hop} {way : List Hop} (h : Regular (hop :: way)) : Regular way :=
  ⟨fun name mem => h.named name (List.mem_cons_of_mem _ mem),
    fun twice => h.apart (twice.trans (List.suffix_cons hop way).isInfix)⟩

theorem flatMap_hops_segments {way : List Hop} (named : Named way) :
    (segments way).flatMap Segment.hops = way := by
  fun_induction segments way with
  | case1 => rfl
  | case2 way ih =>
    rw [List.flatMap_cons, ih (named.of_append_right (u := [_]))]
    rfl
  | case3 name way ih =>
    have ne := (named name List.mem_cons_self).1
    rw [List.flatMap_cons, ih (named.of_append_right (u := [_, _]))]
    simp [Segment.hops, ne]
  | case4 name way _ ih =>
    have ne := (named name List.mem_cons_self).1
    rw [List.flatMap_cons, ih (named.of_append_right (u := [_]))]
    simp [Segment.hops, ne]

theorem Regular.head?_ne {way : List Hop} (h : Regular (.elements :: way)) :
    way.head? ≠ some .elements := by
  intro head
  obtain ⟨rest, rfl⟩ := List.head?_eq_some_iff.mp head
  exact h.apart ⟨[], rest, rfl⟩

/-- A way that does not go on into elements starts in another manner. -/
theorem head?_ne_elements {way : List Hop} (noHop : ∀ rest, way = .elements :: rest → False) :
    way.head? ≠ some .elements := by
  intro head
  obtain ⟨rest, eq⟩ := List.head?_eq_some_iff.mp head
  exact noHop rest eq

/-- Without a hop at the start every segment has a name. -/
theorem names_segments {way : List Hop} (regular : Regular way)
    (start : way.head? ≠ some .elements) : ∀ s ∈ segments way, s.name ≠ "" := by
  fun_induction segments way with
  | case1 => simp
  | case2 way => simp at start
  | case3 name way ih =>
    intro s mem
    rcases List.mem_cons.mp mem with rfl | mem
    · exact (regular.named name List.mem_cons_self).1
    · exact ih regular.tail.tail regular.tail.head?_ne s mem
  | case4 name way noHop ih =>
    intro s mem
    rcases List.mem_cons.mp mem with rfl | mem
    · exact (regular.named name List.mem_cons_self).1
    · exact ih regular.tail (head?_ne_elements noHop) s mem

theorem unmarked_segments {way : List Hop} (named : Named way) :
    ∀ s ∈ segments way, isUnmarked s.name = true ∧ (s.name = "" → s.isArray = true) := by
  fun_induction segments way with
  | case1 => simp
  | case2 way ih =>
    intro s mem
    rcases List.mem_cons.mp mem with rfl | mem
    · decide
    · exact ih (named.of_append_right (u := [_])) s mem
  | case3 name way ih =>
    intro s mem
    rcases List.mem_cons.mp mem with rfl | mem
    · exact ⟨(named name List.mem_cons_self).2, fun _ => rfl⟩
    · exact ih (named.of_append_right (u := [_, _])) s mem
  | case4 name way _ ih =>
    have nameFacts := named name List.mem_cons_self
    intro s mem
    rcases List.mem_cons.mp mem with rfl | mem
    · exact ⟨nameFacts.2, fun empty => absurd empty nameFacts.1⟩
    · exact ih (named.of_append_right (u := [_])) s mem

theorem plain_segments {way : List Hop} (regular : Regular way) :
    Segment.Plain (segments way) := by
  refine ⟨fun s mem => (unmarked_segments regular.named s mem).1,
    fun s mem => (unmarked_segments regular.named s mem).2, ?_⟩
  unfold segments
  split
  · simp
  · exact names_segments regular.tail regular.head?_ne
  · exact names_segments regular.tail.tail regular.tail.head?_ne
  · next noHop => exact names_segments regular.tail (head?_ne_elements noHop)

theorem join_assoc {a b c : String} (ne : b ≠ "") : join (join a b) c = join a (join b c) := by
  by_cases ha : a = ""
  · simp [join, ha]
  · have nonempty : a ++ "." ++ b ≠ "" := by
      intro eq
      have lists := congrArg String.toList eq
      simp at lists
    rw [join, join, join, join, if_neg ha, if_neg ha, if_neg ne, if_neg nonempty]
    simp [String.append_assoc]

theorem ofSegments_cons {s r : Segment} {rest : List Segment}
    (hop : s.name = "" → s.isArray = true) :
    ofSegments (s :: r :: rest) = join s.text (ofSegments (r :: rest)) := by
  have ne : s.text ≠ "" := fun eq => Segment.text_ne_nil hop (String.toList_eq_nil_iff.mpr eq)
  rw [join, if_neg ne]
  exact String.intercalate_cons_cons

/-- A segment with a name is joined to the place it continues. -/
theorem foldl_below_hops {base : String} {s : Segment} (ne : s.name ≠ "") :
    s.hops.foldl Hop.below base = join base s.text := by
  obtain ⟨name, isArray⟩ := s
  cases isArray with
  | false => simp [Segment.hops, Segment.text, ne, Hop.below]
  | true =>
    simp only [Segment.hops, Segment.text, ne, if_false, if_true, List.cons_append, List.nil_append,
      List.foldl_cons, List.foldl_nil, Hop.below, element, join]
    split
    · rfl
    · rw [String.append_assoc]

theorem foldl_below_flatMap {segments : List Segment} (named : ∀ s ∈ segments, s.name ≠ "")
    (nonempty : segments ≠ []) (base : String) :
    (segments.flatMap Segment.hops).foldl Hop.below base = join base (ofSegments segments) := by
  induction segments generalizing base with
  | nil => contradiction
  | cons s rest ih =>
    have ne := named s List.mem_cons_self
    rw [List.flatMap_cons, List.foldl_append, foldl_below_hops ne]
    cases rest with
    | nil => simp [ofSegments]
    | cons r rest =>
      rw [ih (fun t mem => named t (List.mem_cons_of_mem _ mem)) (List.cons_ne_nil r rest),
        ofSegments_cons (fun empty => absurd empty ne), join_assoc]
      intro empty
      exact Segment.text_ne_nil (fun eq => absurd eq ne) (String.toList_eq_nil_iff.mpr empty)

/-- The place of the hops of plain segments is the fullname written from them. -/
theorem place_flatMap_hops {segments : List Segment} (plain : Segment.Plain segments) :
    place (segments.flatMap Segment.hops) = ofSegments segments := by
  cases segments with
  | nil => rfl
  | cons s rest =>
    have first : s.hops.foldl Hop.below "" = s.text := by
      by_cases ne : s.name = ""
      · have isArray := plain.hop s List.mem_cons_self ne
        simp [Segment.hops, Segment.text, ne, isArray, Hop.below, element]
      · rw [foldl_below_hops ne, join, if_pos rfl]
    unfold place
    rw [List.flatMap_cons, List.foldl_append, first]
    cases rest with
    | nil => simp [ofSegments]
    | cons r rest =>
      have named : ∀ t ∈ r :: rest, t.name ≠ "" := plain.named
      rw [foldl_below_flatMap named (List.cons_ne_nil r rest),
        ofSegments_cons (plain.hop s List.mem_cons_self)]

theorem Regular.segments_place {way : List Hop} (h : Regular way) :
    Fullname.segments (place way) = segments way := by
  have plain := plain_segments h
  rw [← segments_ofSegments plain, ← place_flatMap_hops plain, flatMap_hops_segments h.named]

theorem mem_hops_property {s : Segment} {name : String} (mem : Hop.property name ∈ s.hops) :
    s.name = name ∧ s.name ≠ "" := by
  obtain ⟨own, isArray⟩ := s
  by_cases ne : own = ""
  · cases isArray <;> simp [Segment.hops, ne] at mem
  · cases isArray <;> simp [Segment.hops, ne] at mem <;> exact ⟨mem.symm, ne⟩

theorem head?_flatMap_hops_ne {segments : List Segment} (named : ∀ s ∈ segments, s.name ≠ "") :
    (segments.flatMap Segment.hops).head? ≠ some .elements := by
  cases segments with
  | nil => simp
  | cons s rest =>
    have ne := named s List.mem_cons_self
    simp [Segment.hops, ne]

theorem apart_flatMap_hops {segments : List Segment} (named : ∀ s ∈ segments, s.name ≠ "") :
    ¬ [Hop.elements, Hop.elements] <:+: segments.flatMap Segment.hops := by
  induction segments with
  | nil => simp
  | cons s rest ih =>
    have namedRest : ∀ t ∈ rest, t.name ≠ "" := fun t mem => named t (List.mem_cons_of_mem s mem)
    have ne := named s List.mem_cons_self
    have apart := ih namedRest
    have start := head?_flatMap_hops_ne namedRest
    obtain ⟨name, isArray⟩ := s
    cases isArray with
    | false =>
      simpa [Segment.hops, ne, List.infix_cons_iff] using apart
    | true =>
      simp only [Segment.hops, ne, if_false, if_true, List.flatMap_cons, List.cons_append,
        List.nil_append, List.infix_cons_iff, List.cons_prefix_cons, reduceCtorEq, false_and,
        false_or, true_and, not_or]
      refine ⟨fun head => ?_, apart⟩
      obtain ⟨after, eq⟩ := head
      rw [← eq] at start
      simp at start

theorem named_flatMap_hops {segments : List Segment}
    (unmarked : ∀ s ∈ segments, isUnmarked s.name = true) :
    Named (segments.flatMap Segment.hops) := by
  intro name mem
  obtain ⟨s, hs, inHops⟩ := List.mem_flatMap.mp mem
  obtain ⟨rfl, ne⟩ := mem_hops_property inHops
  exact ⟨ne, unmarked s hs⟩

theorem regular_flatMap_hops {segments : List Segment} (plain : Segment.Plain segments) :
    Regular (segments.flatMap Segment.hops) := by
  constructor
  · exact named_flatMap_hops plain.unmarked
  · cases segments with
    | nil => simp
    | cons s rest =>
      have named : ∀ t ∈ rest, t.name ≠ "" := plain.named
      by_cases ne : s.name = ""
      · have isArray := plain.hop s List.mem_cons_self ne
        simp only [Segment.hops, ne, isArray, if_true, List.flatMap_cons, List.nil_append,
          List.cons_append, List.infix_cons_iff, List.cons_prefix_cons, true_and, not_or]
        refine ⟨fun head => ?_, apart_flatMap_hops named⟩
        obtain ⟨after, eq⟩ := head
        have start := head?_flatMap_hops_ne named
        rw [← eq] at start
        simp at start
      · apply apart_flatMap_hops
        intro t mem
        rcases List.mem_cons.mp mem with rfl | mem
        · exact ne
        · exact named t mem

theorem segments_flatMap_hops {l : List Segment} (plain : Segment.Plain l) :
    segments (l.flatMap Segment.hops) = l := by
  rw [← (regular_flatMap_hops plain).segments_place, place_flatMap_hops plain,
    segments_ofSegments plain]

theorem flatMap_hops_inj {r s : List Segment} (hr : Segment.Plain r) (hs : Segment.Plain s)
    (eq : r.flatMap Segment.hops = s.flatMap Segment.hops) : r = s := by
  rw [← segments_flatMap_hops hr, eq, segments_flatMap_hops hs]

theorem flatMap_hops_ne_nil {l : List Segment} (plain : Segment.Plain l) (ne : l ≠ []) :
    l.flatMap Segment.hops ≠ [] := by
  intro nil
  rw [← segments_flatMap_hops plain, nil] at ne
  exact ne rfl

theorem place_of_isPlain {fullname : String} (plain : IsPlain fullname) :
    place ((Fullname.segments fullname).flatMap Segment.hops) = fullname := by
  rw [place_flatMap_hops plain.segments, plain.ofSegments_segments]

end Way

namespace Field

variable {f g : Field}

theorem regular_way (plain : Segment.Plain f.segments) : Way.Regular f.way :=
  Way.regular_flatMap_hops plain

theorem place_way (plain : Fullname.IsPlain f.fullname) : Way.place f.way = f.fullname :=
  Way.place_of_isPlain plain

theorem way_ne_nil (plain : Segment.Plain f.segments) (ne : f.segments ≠ []) : f.way ≠ [] :=
  Way.flatMap_hops_ne_nil plain ne

/-- A field whose fullname is the place of a regular way describes that way. -/
theorem way_of_place {way : List Hop} (regular : Way.Regular way)
    (eq : f.fullname = Way.place way) : f.way = way := by
  unfold Field.way segments
  rw [eq, regular.segments_place, Way.flatMap_hops_segments regular.named]

end Field

end ShapeLines
