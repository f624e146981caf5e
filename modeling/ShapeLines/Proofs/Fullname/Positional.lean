import ShapeLines.Shape.Binding
import ShapeLines.Query.KeyTree
import ShapeLines.Proofs.Schema.Way

/-!
# Positional paths of ways

The positional path of a place has one part for every hop of its way. From these parts the place is
put together again, hop by hop, so an implied destination leads a query back to the fullname.
-/

namespace ShapeLines

namespace Text

variable {separator : Char}

theorem words_of_notMem {s : List Char} (ne : s ≠ []) (apart : separator ∉ s) :
    words separator s = [s] := by
  rw [words, pieces, List.splitOn_eq_singleton apart]
  simp [ne]

theorem words_append_cons (s t : List Char) :
    words separator (s ++ separator :: t) = words separator s ++ words separator t := by
  unfold words pieces
  rw [List.splitOn_append_cons_self, List.filter_append]

end Text

namespace Fullname

/-- A text that does not begin with a closing bracket is read apart from what stands before. -/
theorem hopsApart_append {t : List Char} (start : t.head? ≠ some ']') (s : List Char) :
    hopsApart (s ++ t) = hopsApart s ++ hopsApart t := by
  fun_induction hopsApart s with
  | case1 s ih => simp [hopsApart, ih]
  | case2 c s noHop ih =>
    rw [List.cons_append, hopsApart, ih, List.cons_append]
    intro r eq text
    cases s with
    | nil => exact start (by rw [← List.nil_append t, text]; rfl)
    | cons d s =>
      obtain ⟨rfl, -⟩ := List.cons.inj text
      exact noHop s eq rfl
  | case3 => rfl

theorem hopsApart_eq_self {s : List Char} (noHop : ¬ ['[', ']'] <:+: s) : hopsApart s = s := by
  fun_induction hopsApart s with
  | case1 s => exact absurd ⟨[], s, rfl⟩ noHop
  | case2 c s _ ih => rw [ih fun hop => noHop (hop.trans (List.suffix_cons c s).isInfix)]
  | case3 => rfl

end Fullname

namespace Way

open Fullname

variable {way : List Hop}

def part : Hop → List Char
  | .property name => name.toList
  | .elements => ['#']

/-- Every property on the way has a name that is one part of a positional path and no selector. -/
def Partable (way : List Hop) : Prop :=
  ∀ name, Hop.property name ∈ way →
    name ≠ "" ∧ '.' ∉ name.toList ∧ ¬ ['[', ']'] <:+: name.toList ∧ name ≠ "#"

theorem Partable.of_append_left {u v : List Hop} (h : Partable (u ++ v)) : Partable u :=
  fun name mem => h name (List.mem_append_left v mem)

theorem Partable.part_apart (partable : Partable way) :
    ∀ p ∈ way.map part, p ≠ [] ∧ '.' ∉ p := by
  intro p mem
  obtain ⟨hop, onWay, rfl⟩ := List.mem_map.mp mem
  cases hop with
  | elements => decide
  | property name =>
    obtain ⟨ne, dot, -⟩ := partable name onWay
    exact ⟨fun nil => ne (String.toList_eq_nil_iff.mp nil), dot⟩

theorem words_hopsApart_place (partable : Partable way) :
    Text.words '.' (hopsApart (place way).toList) = way.map part := by
  induction way using List.reverseRecOn with
  | nil => rfl
  | append_singleton way hop ih =>
    have before := ih partable.of_append_left
    rw [place_append_singleton, List.map_append, ← before]
    cases hop with
    | elements =>
      rw [Hop.below, toList_element, hopsApart_append (by simp)]
      exact Text.words_append_cons ..
    | property name =>
      obtain ⟨ne, dot, noHop, -⟩ := partable name (by simp)
      have nonempty : name.toList ≠ [] := fun nil => ne (String.toList_eq_nil_iff.mp nil)
      have own : Text.words '.' (hopsApart name.toList) = [part (.property name)] := by
        rw [hopsApart_eq_self noHop]
        exact Text.words_of_notMem nonempty dot
      rw [Hop.below, toList_join]
      split
      · next root => rw [root, List.nil_append, own]; rfl
      · rw [List.append_assoc, List.singleton_append, hopsApart_append (by simp), hopsApart,
          Text.words_append_cons, own]
        · rfl
        · simp

theorem toPositionalChars_place (partable : Partable way) :
    toPositionalChars (place way).toList = ['.'].intercalate (way.map part) := by
  rw [toPositionalChars, words_hopsApart_place partable]

theorem foldl_addPart_map_part (partable : Partable way) :
    (way.map part).foldl addPart [] = (place way).toList := by
  induction way using List.reverseRecOn with
  | nil => rfl
  | append_singleton way hop ih =>
    rw [place_append_singleton, List.map_append, List.foldl_append, ih partable.of_append_left]
    cases hop with
    | elements =>
      rw [Hop.below, toList_element]
      rfl
    | property name =>
      have noSelector : name.toList ≠ ['#'] := fun eq =>
        (partable name (by simp)).2.2.2 (String.toList_inj.mp eq)
      rw [Hop.below, toList_join]
      simp only [part, List.map_cons, List.map_nil, List.foldl_cons, List.foldl_nil, addPart,
        if_neg noSelector, List.isEmpty_iff, String.toList_eq_nil_iff]
      split
      · rfl
      · simp

theorem ofPositional_toPositional_place (partable : Partable way) :
    ofPositional (toPositional (place way)) = place way := by
  apply String.toList_inj.mp
  rw [ofPositional, toPositional, String.toList_ofList, String.toList_ofList, ofPositionalChars,
    toPositionalChars_place partable, Text.words_intercalate partable.part_apart,
    foldl_addPart_map_part partable]

theorem toPositional_place_ne_empty (partable : Partable way) (ne : way ≠ []) :
    toPositional (place way) ≠ "" := by
  have nonempty : place way ≠ "" := by
    rcases List.eq_nil_or_concat' way with rfl | ⟨w, hop, rfl⟩
    · contradiction
    · rw [place_append_singleton]
      cases hop with
      | elements => exact element_ne_empty _
      | property name => exact join_ne_empty (partable name (by simp)).1
  intro empty
  rw [← ofPositional_toPositional_place partable, empty] at nonempty
  exact nonempty rfl

end Way

theorem KeyOptions.stripped_stripping (id path : String) :
    (stripping id).stripped (id ++ "." ++ path) = path := by
  have split : Text.after? (id.toList ++ ['.']) (id ++ "." ++ path).toList = some path.toList :=
    Text.after?_eq_some_iff.mpr (by simp)
  simp only [stripped, stripping, split, String.ofList_toList]

/-- A field with its implied destination has its fullname as its key path. -/
theorem Field.keyPath_stripping {f : Field} {id : String} {way : List Hop} (named : id ≠ "")
    (partable : Way.Partable way) (ne : way ≠ []) (place : f.fullname = Way.place way)
    (bound : f.dst = impliedBinding id f.fullname) :
    f.keyPath (.stripping id) = f.fullname := by
  have path := Way.toPositional_place_ne_empty partable ne
  have implied : f.dst = id ++ "." ++ Fullname.toPositional f.fullname := by
    rw [bound, impliedBinding, place]
    simp [named, path]
  have unempty : f.dst ≠ "" := by
    rw [implied]
    intro empty
    have lists := congrArg String.toList empty
    simp at lists
  rw [Field.keyPath, if_neg unempty, implied, KeyOptions.stripped_stripping, place,
    Way.ofPositional_toPositional_place partable]

end ShapeLines
