import ShapeLines.Proofs.Text.Trimmed

/-!
# Joined texts

What is known of every piece is known of the pieces joined by a separator: the join of one-line
texts is one line, and it starts and ends as its first and its last piece do.
-/

namespace ShapeLines.Text

variable {α : Type}

/-- The parts around the first place of an element are determined. -/
theorem eq_of_append_cons {a : α} {s s' t t' : List α} (apart : a ∉ s) (apart' : a ∉ s')
    (eq : s ++ a :: t = s' ++ a :: t') : s = s' ∧ t = t' := by
  rcases List.append_eq_append_iff.mp eq with ⟨between, rfl, rest⟩ | ⟨between, rfl, rest⟩
  · cases between with
    | nil => exact ⟨(List.append_nil s).symm, (List.cons.inj rest).2⟩
    | cons b between =>
      obtain ⟨rfl, -⟩ := List.cons.inj rest
      exact absurd (by simp) apart'
  · cases between with
    | nil => exact ⟨List.append_nil s', (List.cons.inj rest).2.symm⟩
    | cons b between =>
      obtain ⟨rfl, -⟩ := List.cons.inj rest
      exact absurd (by simp) apart

theorem intercalate_cons (separator front : List α) (rest : List (List α)) :
    List.intercalate separator (front :: rest) = front ++ rest.flatMap (separator ++ ·) := by
  induction rest generalizing front with
  | nil => simp
  | cons s rest ih =>
    rw [List.intercalate_cons_cons, ih, List.flatMap_cons]
    simp only [List.append_assoc]

/-- Groups of pieces, each joined by the separator, join to the same text as all their pieces. -/
theorem intercalate_flatMap {β : Type} (separator : List α) {groups : List β}
    {pieces : β → List (List α)} (ne : ∀ g ∈ groups, pieces g ≠ []) :
    List.intercalate separator (groups.map fun g => List.intercalate separator (pieces g)) =
      List.intercalate separator (groups.flatMap pieces) := by
  cases groups with
  | nil => rfl
  | cons g groups =>
    have rest : (groups.map fun h => List.intercalate separator (pieces h)).flatMap
        (separator ++ ·) = (groups.flatMap pieces).flatMap (separator ++ ·) := by
      induction groups with
      | nil => rfl
      | cons h groups ih =>
        have tail := ih fun k hk => ne k (by
          rcases List.mem_cons.mp hk with rfl | hk <;> simp [*])
        obtain ⟨p, ps, hp⟩ := List.exists_cons_of_ne_nil (ne h (by simp))
        rw [List.map_cons, List.flatMap_cons, tail, hp, intercalate_cons, List.flatMap_cons, hp]
        simp
    obtain ⟨p, ps, hp⟩ := List.exists_cons_of_ne_nil (ne g (by simp))
    rw [List.map_cons, intercalate_cons, rest, List.flatMap_cons, hp, intercalate_cons,
      List.cons_append, intercalate_cons, List.flatMap_append, List.append_assoc]

/-- What stands behind the last piece stands behind the joined text. -/
theorem intercalate_concat_append (separator : List α) (front : List (List α)) (s t : List α) :
    List.intercalate separator (front ++ [s ++ t]) =
      List.intercalate separator (front ++ [s]) ++ t := by
  cases front with
  | nil => simp
  | cons p front => simp [intercalate_cons]

theorem intercalate_concat {ls : List (List α)} (separator : List α) (some : ls ≠ [])
    (s : List α) :
    List.intercalate separator (ls ++ [s]) = List.intercalate separator ls ++ (separator ++ s) := by
  obtain ⟨front, rest, rfl⟩ := List.exists_cons_of_ne_nil some
  simp [intercalate_cons]

theorem isInfix_intercalate {separator s : List α} {ls : List (List α)} (mem : s ∈ ls) :
    s <:+: List.intercalate separator ls := by
  obtain ⟨front, back, rfl⟩ := List.append_of_mem mem
  induction front with
  | nil =>
    rw [List.nil_append, intercalate_cons]
    exact (List.prefix_append s _).isInfix
  | cons t front ih =>
    rw [List.cons_append, List.intercalate_cons_of_ne_nil (by simp)]
    exact (ih (by simp)).trans (List.suffix_append _ _).isInfix

theorem oneLine_intercalate {separator : List Char} {ls : List (List Char)}
    (sep : OneLine separator) (one : ∀ s ∈ ls, OneLine s) :
    OneLine (List.intercalate separator ls) := by
  induction ls with
  | nil => simp [OneLine]
  | cons s ls ih =>
    have tail := ih fun t ht => one t (List.mem_cons_of_mem _ ht)
    cases ls with
    | nil => simpa using one s (List.mem_cons_self ..)
    | cons t ls =>
      rw [List.intercalate_cons_cons]
      exact ((one s (List.mem_cons_self ..)).append sep).append tail

theorem startsSolid_intercalate {separator : List Char} {ls : List (List Char)}
    (solid : ∀ s ∈ ls, StartsSolid s) (ne : ∀ s ∈ ls, s ≠ []) :
    StartsSolid (List.intercalate separator ls) := by
  cases ls with
  | nil =>
    intro c rest h
    simp at h
  | cons s ls =>
    rw [intercalate_cons]
    exact (solid s (List.mem_cons_self ..)).append (ne s (List.mem_cons_self ..)) _

theorem intercalate_ne_nil {separator : List α} {ls : List (List α)} (ne : ∀ s ∈ ls, s ≠ [])
    (some : ls ≠ []) : List.intercalate separator ls ≠ [] := by
  obtain ⟨s, ls, rfl⟩ := List.exists_cons_of_ne_nil some
  rw [intercalate_cons]
  exact List.append_ne_nil_of_left_ne_nil (ne s (List.mem_cons_self ..)) _

theorem endsSolid_intercalate {separator : List Char} {ls : List (List Char)}
    (solid : ∀ s ∈ ls, EndsSolid s) (ne : ∀ s ∈ ls, s ≠ []) :
    EndsSolid (List.intercalate separator ls) := by
  induction ls with
  | nil =>
    intro c front h
    simp at h
  | cons s ls ih =>
    have tail := ih (fun t ht => solid t (List.mem_cons_of_mem _ ht))
      fun t ht => ne t (List.mem_cons_of_mem _ ht)
    cases ls with
    | nil => simpa using solid s (List.mem_cons_self ..)
    | cons t ls =>
      rw [List.intercalate_cons_cons]
      refine tail.append (intercalate_ne_nil ?_ (by simp)) _
      exact fun u hu => ne u (List.mem_cons_of_mem _ hu)

end ShapeLines.Text
