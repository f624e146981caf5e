import Mathlib.Data.List.Induction

/-!
# Stable sorting and first appearances

Sorting by a total preorder keeps elements that may stand in either order as they were, so what a
sorted list shows of such elements is what the list showed before. Erasing duplicates keeps each
element where it appears first.
-/

namespace ShapeLines.Arranged

variable {α β : Type}

/-- Sorting keeps elements that may all stand in either order as they were. -/
theorem filter_mergeSort_of_alike {le : α → α → Bool}
    (trans : ∀ a b c, le a b = true → le b c = true → le a c = true)
    (total : ∀ a b, (le a b || le b a) = true) {p : α → Bool}
    (alike : ∀ a b, p a = true → p b = true → le a b = true) (l : List α) :
    (l.mergeSort le).filter p = l.filter p := by
  have sorted : (l.filter p).Pairwise fun a b => le a b = true := by
    refine List.Pairwise.imp_of_mem ?_ (List.pairwise_of_forall (R := fun _ _ => True) (by simp))
    intro a b ha hb _
    exact alike a b (List.mem_filter.mp ha).2 (List.mem_filter.mp hb).2
  have sub : (l.filter p).Sublist (l.mergeSort le) :=
    List.sublist_mergeSort trans total sorted List.filter_sublist
  have filtered := sub.filter p
  rw [List.filter_filter] at filtered
  simp only [Bool.and_self] at filtered
  refine (filtered.eq_of_length ?_).symm
  exact ((List.mergeSort_perm l le).symm.filter p).length_eq

/-- If what satisfies `p` comes first, a list is what satisfies it and then what does not. -/
theorem eq_filter_append_filter {r : α → α → Prop} {l : List α} (sorted : l.Pairwise r)
    {p : α → Bool} (first : ∀ a b, r a b → p b = true → p a = true) :
    l = l.filter p ++ l.filter fun a => !p a := by
  induction l with
  | nil => rfl
  | cons a l ih =>
    obtain ⟨before, others⟩ := List.pairwise_cons.mp sorted
    by_cases here : p a = true
    · rw [List.filter_cons_of_pos here, List.filter_cons_of_neg (by simp [here]), List.cons_append,
        ← ih others]
    · have none : ∀ b ∈ l, ¬p b = true := fun b mem holds => here (first a b (before b mem) holds)
      have all : l.filter (fun a => !p a) = l :=
        List.filter_eq_self.mpr fun b mem => by simpa using none b mem
      rw [List.filter_cons_of_neg here, List.filter_cons_of_pos (by simpa using here),
        List.filter_eq_nil_iff.mpr none, all, List.nil_append]

variable [BEq α] [LawfulBEq α]

theorem eraseDups_concat (l : List α) (a : α) :
    (l ++ [a]).eraseDups =
      if l.eraseDups.contains a then l.eraseDups else l.eraseDups ++ [a] := by
  rw [List.eraseDups_append]
  by_cases h : a ∈ l
  · simp [List.removeAll, h]
  · simp [List.removeAll, h, List.eraseDups_cons]

theorem nodup_eraseDups (l : List α) : l.eraseDups.Nodup := by
  induction l using List.reverseRecOn with
  | nil => simp
  | append_singleton l a ih =>
    rw [eraseDups_concat]
    split
    · exact ih
    · next new =>
      rw [List.nodup_append]
      refine ⟨ih, by simp, fun b mem c last eq => ?_⟩
      rw [eq, List.mem_singleton.mp last] at mem
      simp [mem] at new

/-- The place at which `a` is chosen first. -/
def firstAt (choose : β → Option α) (a : α) (l : List β) : Nat :=
  l.findIdx fun x => choose x == some a

theorem firstAt_lt_length {choose : β → Option α} {a : α} {l : List β}
    (mem : a ∈ l.filterMap choose) : firstAt choose a l < l.length := by
  obtain ⟨x, inList, chosen⟩ := List.mem_filterMap.mp mem
  exact List.findIdx_lt_length_of_exists ⟨x, inList, by simp [chosen]⟩

/-- Further elements do not change where an element that has been chosen is chosen first. -/
theorem firstAt_append {choose : β → Option α} {a : α} {l : List β} (mem : a ∈ l.filterMap choose)
    (m : List β) : firstAt choose a (l ++ m) = firstAt choose a l := by
  have found := firstAt_lt_length mem
  unfold firstAt at found ⊢
  rw [List.findIdx_append, if_pos found]

/-- What is chosen from a list appears in the order in which it is chosen first. -/
theorem pairwise_eraseDups (choose : β → Option α) (l : List β) :
    (l.filterMap choose).eraseDups.Pairwise fun a b =>
      firstAt choose a l < firstAt choose b l := by
  induction l using List.reverseRecOn with
  | nil => simp
  | append_singleton l x ih =>
    have before : (l.filterMap choose).eraseDups.Pairwise fun a b =>
        firstAt choose a (l ++ [x]) < firstAt choose b (l ++ [x]) := by
      refine List.Pairwise.imp_of_mem (fun {a b} memA memB lt => ?_) ih
      rw [List.mem_eraseDups] at memA memB
      rwa [firstAt_append memA, firstAt_append memB]
    rw [List.filterMap_append]
    cases chosen : choose x with
    | none => simpa [chosen] using before
    | some k =>
      have last : [x].filterMap choose = [k] := by simp [chosen]
      rw [last, eraseDups_concat]
      split
      · exact before
      · next new =>
        refine List.pairwise_append.mpr ⟨before, List.pairwise_singleton _ _, ?_⟩
        intro a mem b isLast
        rw [List.mem_eraseDups] at mem
        rw [List.mem_singleton.mp isLast, firstAt_append mem]
        have away : ¬ ∃ y ∈ l, (choose y == some k) = true := by
          simpa using new
        refine Nat.lt_of_lt_of_le (firstAt_lt_length mem) ?_
        unfold firstAt
        rw [List.findIdx_append, if_neg fun lt => away (List.findIdx_lt_length.mp lt)]
        omega

end ShapeLines.Arranged
