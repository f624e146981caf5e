import ShapeLines.Line.KeyOrder
import ShapeLines.Proofs.Arranged

/-!
# Sorting by a key order

A key order is a total preorder, so sorting by it is defined for any list of keys, repeated and
unknown ones included. Sorting is stable: the entries under one key keep their order.
-/

namespace ShapeLines

namespace KeyOrder

theorem le_trans (order : KeyOrder) {a b c : String} (hab : order.le a b) (hbc : order.le b c) :
    order.le a c := by
  simp only [le, Bool.or_eq_true, decide_eq_true_eq, Bool.and_eq_true, beq_iff_eq] at *
  rcases hab with hab | ⟨eab, lab⟩ <;> rcases hbc with hbc | ⟨ebc, lbc⟩
  · exact .inl (by omega)
  · exact .inl (by omega)
  · exact .inl (by omega)
  · exact .inr ⟨by omega, String.le_trans lab lbc⟩

theorem le_total (order : KeyOrder) (a b : String) : order.le a b || order.le b a := by
  simp only [le, Bool.or_eq_true, decide_eq_true_eq, Bool.and_eq_true, beq_iff_eq]
  rcases Nat.lt_trichotomy (order.rank a) (order.rank b) with lt | eq | gt
  · exact .inl (.inl lt)
  · rcases String.le_total a b with h | h
    · exact .inl (.inr ⟨eq, h⟩)
    · exact .inr (.inr ⟨eq.symm, h⟩)
  · exact .inr (.inl gt)

theorem le_refl (order : KeyOrder) (a : String) : order.le a a := by
  simpa using order.le_total a a

/-- Sorting by keys keeps what stands under one key in its order. -/
theorem filter_mergeSort {α : Type} (order : KeyOrder) (key : String) (l : List (String × α)) :
    (l.mergeSort fun a b => order.le a.1 b.1).filter (·.1 = key) = l.filter (·.1 = key) := by
  have trans : ∀ a b c : String × α,
      order.le a.1 b.1 = true → order.le b.1 c.1 = true → order.le a.1 c.1 = true :=
    fun _ _ _ => order.le_trans
  have total : ∀ a b : String × α, (order.le a.1 b.1 || order.le b.1 a.1) = true :=
    fun a b => order.le_total a.1 b.1
  refine Arranged.filter_mergeSort_of_alike trans total (fun a b ha hb => ?_) l
  rw [decide_eq_true_eq] at ha hb
  rw [ha, hb]
  exact order.le_refl key

theorem rank_lt_iff {order : KeyOrder} {first : List String} (starts : first <+: order.keys)
    (key : String) : order.rank key < first.length ↔ key ∈ first := by
  obtain ⟨others, eq⟩ := starts
  rw [rank, ← eq, List.idxOf_append]
  split
  · next mem => exact ⟨fun _ => mem, fun _ => List.idxOf_lt_length_iff.mpr mem⟩
  · next other => exact ⟨fun lt => by omega, fun mem => absurd mem other⟩

/-- What stands under the first keys of the order comes first. -/
theorem mergeSort_eq_append {α : Type} {order : KeyOrder} {first : List String}
    (starts : first <+: order.keys) {l sorted : List (String × α)}
    (eq : sorted = l.mergeSort fun a b => order.le a.1 b.1) :
    sorted = sorted.filter (fun e => decide (e.1 ∈ first)) ++
      sorted.filter fun e => !decide (e.1 ∈ first) := by
  have pairwise : sorted.Pairwise fun a b => order.le a.1 b.1 = true := by
    rw [eq]
    exact @List.pairwise_mergeSort _ (fun a b => order.le a.1 b.1) (fun _ _ _ => order.le_trans)
      (fun a b => order.le_total a.1 b.1) l
  refine Arranged.eq_filter_append_filter pairwise fun a b before inFirst => ?_
  rw [decide_eq_true_eq, ← rank_lt_iff starts] at inFirst ⊢
  simp only [le, Bool.or_eq_true, decide_eq_true_eq, Bool.and_eq_true, beq_iff_eq] at before
  omega

end KeyOrder

end ShapeLines
