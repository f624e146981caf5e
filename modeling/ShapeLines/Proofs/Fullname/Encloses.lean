import ShapeLines.Proofs.Fullname.Ancestor

/-!
# Ancestors segment by segment

A container lies around a place when the segments of the place go on behind those of the container,
or go from its last segment into the elements of the array that it names. Whether it does is asked
of the texts of two fullnames alone. For plain fullnames the answer is that of their segments, and
for any texts it is that of a strict order.
-/

namespace ShapeLines

/-- The segments of a container and those of a place inside it. They agree before the last segment
of the container. -/
inductive Segment.Encloses : List Segment → List Segment → Prop where
  /-- The place goes on behind the container. -/
  | behind {front : List Segment} {last : Segment} {rest : List Segment} (ne : rest ≠ []) :
    Encloses (front ++ [last]) (front ++ last :: rest)
  /-- The place goes into the elements of the array that the container is. -/
  | elements {front : List Segment} {name : String} {rest : List Segment} :
    Encloses (front ++ [⟨name, false⟩]) (front ++ ⟨name, true⟩ :: rest)

namespace Segment

open Fullname

variable {g f : List Segment}

theorem Encloses.ne (h : Encloses g f) : g ≠ f := by
  cases h with
  | behind ne =>
    intro eq
    exact ne (List.cons.inj (List.append_cancel_left eq)).2.symm
  | elements =>
    intro eq
    cases (List.cons.inj (List.append_cancel_left eq)).1

theorem Encloses.isPrefix_hops (h : Encloses g f) : g.flatMap hops <+: f.flatMap hops := by
  cases h with
  | @behind front last rest =>
    exact ⟨rest.flatMap hops, by simp⟩
  | @elements front name rest =>
    exact ⟨.elements :: rest.flatMap hops, by simp [hops]⟩

end Segment

namespace Way

open Segment (Encloses)

variable {u v w : List Hop}

theorem segments_property {way : List Hop} (start : way.head? ≠ some .elements) (name : String) :
    segments (.property name :: way) = ⟨name, false⟩ :: segments way := by
  rw [segments]
  rintro rest rfl
  exact start rfl

theorem segments_append (start : w.head? ≠ some .elements) :
    segments (u ++ w) = segments u ++ segments w := by
  fun_induction segments u with
  | case1 => rfl
  | case2 way ih => rw [List.cons_append, segments, ih, List.cons_append]
  | case3 name way ih => rw [List.cons_append, List.cons_append, segments, ih, List.cons_append]
  | case4 name way noHop ih =>
    rw [List.cons_append, segments_property, ih, List.cons_append]
    cases way with
    | nil => exact start
    | cons hop way =>
      intro head
      obtain rfl := Option.some.inj head
      exact noHop way rfl

theorem segments_ne_nil (named : Named u) (ne : u ≠ []) : segments u ≠ [] := by
  intro nil
  have hops := flatMap_hops_segments named
  rw [nil] at hops
  exact ne hops.symm

theorem encloses_segments (regular : Regular v) (above : u <+: v) (ne : u ≠ v)
    (nonempty : u ≠ []) : Encloses (segments u) (segments v) := by
  obtain ⟨w, rfl⟩ := above
  have named := regular.named.of_append_left
  cases w with
  | nil => exact absurd (List.append_nil u).symm ne
  | cons hop w =>
    cases hop with
    | property name =>
      -- the way goes on with a segment of its own
      have behind := segments_ne_nil regular.named.of_append_right (List.cons_ne_nil _ w)
      rw [segments_append (by simp)]
      rcases List.eq_nil_or_concat' (segments u) with none | ⟨front, last, own⟩
      · exact absurd none (segments_ne_nil named nonempty)
      · rw [own, List.append_assoc]
        exact .behind behind
    | elements =>
      -- the hop belongs to the segment of the property before it
      rcases List.eq_nil_or_concat' u with none | ⟨u, last, rfl⟩
      · exact absurd none nonempty
      · cases last with
        | elements => exact absurd ⟨u, w, by simp⟩ regular.apart
        | property name =>
          rw [List.append_assoc, segments_append (by simp), segments_append (by simp)]
          exact .elements

end Way

namespace Segment

open Fullname Way

variable {g f : List Segment}

/-- Segments enclose others if their hops lead to a place above. -/
theorem encloses_iff (plainG : Plain g) (plainF : Plain f) (ne : g ≠ []) :
    Encloses g f ↔ g.flatMap hops <+: f.flatMap hops ∧ g.flatMap hops ≠ f.flatMap hops := by
  constructor
  · exact fun h => ⟨h.isPrefix_hops, fun eq => h.ne (flatMap_hops_inj plainG plainF eq)⟩
  · rintro ⟨above, apart⟩
    have h := encloses_segments (regular_flatMap_hops plainF) above apart
      (flatMap_hops_ne_nil plainG ne)
    rwa [segments_flatMap_hops plainG, segments_flatMap_hops plainF] at h

end Segment

namespace Fullname

open Segment (Encloses)

/-- A plain fullname is an ancestor of another if its segments enclose the segments of the other,
and among all texts ancestors are ordered strictly. -/
theorem isAncestor_iff_encloses :
    (∀ g f, IsPlain g → IsPlain f →
        (isAncestor g f = true ↔ Encloses (segments g) (segments f))) ∧
      (∀ s, isAncestor s s = false) ∧
      ∀ a b c, isAncestor a b = true → isAncestor b c = true → isAncestor a c = true := by
  refine ⟨fun g f plainG plainF => ?_, isAncestor_self, fun a b c => isAncestor_trans⟩
  have ways := Way.isAncestor_place_iff (Way.named_flatMap_hops plainG.segments.unmarked)
    (Way.named_flatMap_hops plainF.segments.unmarked)
  rw [Way.place_of_isPlain plainG, Way.place_of_isPlain plainF] at ways
  rw [ways, Segment.encloses_iff plainG.segments plainF.segments plainG.segments_ne_nil]

/-- The array `items` encloses what its elements hold, and `item`, with which its name begins, does
not. -/
theorem isAncestor_iff_encloses_items :
    IsPlain "items" ∧ IsPlain "item" ∧ IsPlain "items[].price.tiers" ∧
      Encloses (segments "items") (segments "items[].price.tiers") ∧
      ¬ Encloses (segments "item") (segments "items[].price.tiers") ∧
      isAncestor "items" "items[].price.tiers" = true ∧
      isAncestor "items[].price.tiers" "items[].price.tiers[].min" = true ∧
      isAncestor "items" "items[].price.tiers[].min" = true := by
  have outer : IsPlain "items" := by decide
  have short : IsPlain "item" := by decide
  have inner : IsPlain "items[].price.tiers" := by decide
  have around : Encloses (segments "items") (segments "items[].price.tiers") :=
    @Encloses.elements [] "items" [⟨"price", false⟩, ⟨"tiers", false⟩]
  have aside : ¬ Encloses (segments "item") (segments "items[].price.tiers") := fun h =>
    absurd ((isAncestor_iff_encloses.1 _ _ short inner).mpr h) (by decide)
  have above := (isAncestor_iff_encloses.1 _ _ outer inner).mpr around
  have below : isAncestor "items[].price.tiers" "items[].price.tiers[].min" = true := by decide
  exact ⟨outer, short, inner, around, aside, above, below,
    isAncestor_iff_encloses.2.2 _ _ _ above below⟩

end Fullname

end ShapeLines
