import Mathlib.Data.List.Forall2

/-!
# Results and faults

What a traversal of a list gives, for a function that may fail: all results in order, or the fault
of the first element that has no result.
-/

namespace ShapeLines.Results

variable {ε α β : Type} {e : ε}

section Chains

variable {x : Except ε α} {a : α} {b : β}

theorem bind_eq_ok_iff {f : α → Except ε β} : x.bind f = .ok b ↔ ∃ a, x = .ok a ∧ f a = .ok b := by
  cases x <;> simp [Except.bind]

theorem bind_eq_error_iff {f : α → Except ε β} :
    x.bind f = .error e ↔ x = .error e ∨ ∃ a, x = .ok a ∧ f a = .error e := by
  cases x <;> simp [Except.bind]

theorem map_eq_ok_iff {f : α → β} : x.map f = .ok b ↔ ∃ a, x = .ok a ∧ f a = b := by
  cases x <;> simp [Except.map]

theorem map_eq_error_iff {f : α → β} : x.map f = .error e ↔ x = .error e := by
  cases x <;> simp [Except.map]

end Chains

section Runs

variable {σ : Type} {f : σ → α → Except ε σ} {l : List α} {s s' : σ}

theorem exists_step_of_foldlM (run : l.foldlM f s = .ok s') :
    ∀ a ∈ l, ∃ t t', f t a = .ok t' := by
  induction l generalizing s with
  | nil => exact List.forall_mem_nil _
  | cons a l ih =>
    rw [List.foldlM_cons] at run
    obtain ⟨next, here, rest⟩ := bind_eq_ok_iff.mp run
    exact List.forall_mem_cons.mpr ⟨⟨s, next, here⟩, ih rest⟩

/-- The first step that fails decides the error. What comes after it is not looked at. -/
theorem foldlM_eq_error_iff : l.foldlM f s = .error e ↔
    ∃ before a after t, l = before ++ a :: after ∧ before.foldlM f s = .ok t ∧ f t a = .error e := by
  constructor
  · intro failed
    induction l generalizing s with
    | nil => cases failed
    | cons a l ih =>
      rw [List.foldlM_cons] at failed
      rcases bind_eq_error_iff.mp failed with here | ⟨next, here, rest⟩
      · exact ⟨[], a, l, s, rfl, rfl, here⟩
      · obtain ⟨before, b, after, t, rfl, run, fault⟩ := ih rest
        refine ⟨a :: before, b, after, t, rfl, ?_, fault⟩
        rw [List.foldlM_cons, here]
        exact run
  · rintro ⟨before, a, after, t, rfl, run, fault⟩
    rw [List.foldlM_append, run]
    show (a :: after).foldlM f t = .error e
    rw [List.foldlM_cons, fault]
    rfl

end Runs

section Faults

variable {ε' : Type} {f : ε → ε'} {x : Except ε α} {a : α}

theorem mapError_eq_ok_iff : x.mapError f = .ok a ↔ x = .ok a := by
  cases x <;> simp [Except.mapError]

theorem mapError_eq_error_iff {e : ε'} :
    x.mapError f = .error e ↔ ∃ e', x = .error e' ∧ e = f e' := by
  cases x <;> simp [Except.mapError, eq_comm]

theorem mapError_bind (f : ε → ε') (x : Except ε α) (g : α → Except ε β) :
    (x.mapError f).bind (fun a => (g a).mapError f) = (x.bind g).mapError f := by
  cases x <;> rfl

end Faults

/-- A list that is written element by element is read back when every element is. -/
theorem mapM_map_of_inverse {write : α → β} {read : β → Option α}
    (inverse : ∀ a, read (write a) = some a) (l : List α) : (l.map write).mapM read = some l := by
  induction l with
  | nil => rfl
  | cons a l ih =>
    rw [List.map_cons, List.mapM_cons, inverse, ih]
    rfl

variable {f : α → Except ε β} {l : List α} {results : List β}

theorem mapM_map_congr {γ : Type} {g : γ → α} {h : γ → Except ε β} {l : List γ}
    (same : ∀ c ∈ l, f (g c) = h c) : (l.map g).mapM f = l.mapM h := by
  induction l with
  | nil => rfl
  | cons c l ih =>
    rw [List.map_cons, List.mapM_cons, List.mapM_cons, same c List.mem_cons_self,
      ih fun d mem => same d (List.mem_cons_of_mem c mem)]

/-- What is related to two lists one after the other consists of a part for each. -/
theorem forall₂_append_left_iff {R : α → β → Prop} {l l' : List α} {r : List β} :
    List.Forall₂ R (l ++ l') r ↔
      ∃ s s', r = s ++ s' ∧ List.Forall₂ R l s ∧ List.Forall₂ R l' s' := by
  constructor
  · intro related
    induction l generalizing r with
    | nil => exact ⟨[], r, rfl, .nil, related⟩
    | cons a l ih =>
      obtain ⟨b, rest, here, more, rfl⟩ := List.forall₂_cons_left_iff.mp related
      obtain ⟨s, s', rfl, front, back⟩ := ih more
      exact ⟨b :: s, s', rfl, .cons here front, back⟩
  · rintro ⟨s, s', rfl, front, back⟩
    exact List.rel_append front back

theorem mapM_eq_ok_iff : l.mapM f = .ok results ↔ List.Forall₂ (f · = .ok ·) l results := by
  induction l generalizing results with
  | nil => simp [pure, Except.pure, eq_comm]
  | cons a l ih =>
    rw [List.mapM_cons, List.forall₂_cons_left_iff]
    simp only [← ih]
    cases f a with
    | error e => simp [bind, Except.bind]
    | ok b => cases l.mapM f <;> simp [bind, Except.bind, pure, Except.pure, eq_comm]

/-- The first element that has no result decides the error. -/
theorem mapM_eq_error_iff : l.mapM f = .error e ↔
    ∃ before a after, l = before ++ a :: after ∧ (∀ b ∈ before, ∃ result, f b = .ok result) ∧
      f a = .error e := by
  constructor
  · intro failed
    induction l with
    | nil => cases failed
    | cons a l ih =>
      rw [List.mapM_cons] at failed
      cases here : f a with
      | error e' =>
        rw [here] at failed
        cases failed
        exact ⟨[], a, l, rfl, by simp, here⟩
      | ok b =>
        cases rest : l.mapM f with
        | error e' =>
          rw [here, rest] at failed
          cases failed
          obtain ⟨before, a', after, rfl, fine, fault⟩ := ih rest
          refine ⟨a :: before, a', after, rfl, fun b' mem => ?_, fault⟩
          rcases List.mem_cons.mp mem with rfl | mem
          · exact ⟨b, here⟩
          · exact fine b' mem
        | ok bs =>
          rw [here, rest] at failed
          cases failed
  · rintro ⟨before, a, after, rfl, fine, fault⟩
    induction before with
    | nil =>
      rw [List.nil_append, List.mapM_cons, fault]
      rfl
    | cons b before ih =>
      obtain ⟨result, here⟩ := fine b List.mem_cons_self
      have others := ih fun c mem => fine c (List.mem_cons_of_mem b mem)
      rw [List.cons_append, List.mapM_cons, here, others]
      rfl

end ShapeLines.Results
