import Mathlib.Data.List.Basic
import ShapeLines.Text.Split

/-!
# Maximal runs

A run of a list holds elements that stand one after the other and are no gaps, and no element beside
it could be added. Cutting a list at its gaps and leaving out what is empty gives all of its runs in
order. A list is either empty, or it begins with a gap, or it begins with a run that ends at a gap
or at the end of the list; the lemmas follow these three cases.
-/

namespace ShapeLines.Text

/-- The maximal runs of list elements of which none satisfies `gap`. -/
def runs {α : Type} (gap : α → Bool) (l : List α) : List (List α) :=
  (l.splitOnP gap).filter fun run => !run.isEmpty

/-- Elements that stand one after the other, and the number of the first. -/
structure Run (α : Type) where
  first : Nat
  elements : List α

variable {α : Type} {gap : α → Bool} {n : Nat} {l run : List α} {r : Run α}

def Run.numbered (r : Run α) : List (α × Nat) :=
  r.elements.zipIdx r.first

/-- The run is a maximal one without gaps in a list that is numbered from `n` on. -/
def IsRun (gap : α → Bool) (n : Nat) (l : List α) (r : Run α) : Prop :=
  ∃ before after, l = before ++ (r.elements ++ after) ∧ r.first = n + before.length ∧
    r.elements ≠ [] ∧ (∀ a ∈ r.elements, gap a = false) ∧
    (∀ a ∈ before.getLast?, gap a = true) ∧ ∀ a ∈ after.head?, gap a = true

theorem not_isRun_nil : ¬ IsRun gap n [] r := by
  rintro ⟨before, after, eq, -, ne, -⟩
  simp_all

/-- No run holds the gap at the start. -/
theorem isRun_cons {g : α} (isGap : gap g = true) :
    IsRun gap n (g :: l) r ↔ IsRun gap (n + 1) l r := by
  have last (before : List α) :
      (∀ a ∈ (g :: before).getLast?, gap a = true) ↔ ∀ a ∈ before.getLast?, gap a = true := by
    rw [List.getLast?_cons]
    cases before.getLast? <;> simp [isGap]
  constructor
  · rintro ⟨before, after, eq, first, ne, solid, start, stop⟩
    cases before with
    | nil =>
      obtain ⟨a, rest, elements⟩ := List.exists_cons_of_ne_nil ne
      rw [elements] at eq
      obtain ⟨rfl, -⟩ := List.cons.inj eq
      have noGap := solid g (by simp [elements])
      rw [isGap] at noGap
      contradiction
    | cons b before =>
      obtain ⟨rfl, tail⟩ := List.cons.inj eq
      refine ⟨before, after, tail, ?_, ne, solid, (last before).mp start, stop⟩
      rw [first, List.length_cons]
      omega
  · rintro ⟨before, after, rfl, first, ne, solid, start, stop⟩
    refine ⟨g :: before, after, rfl, ?_, ne, solid, (last before).mpr start, stop⟩
    rw [first, List.length_cons]
    omega

/-- What starts with a gap starts with no part of a run. -/
theorem eq_nil_of_stop {part rest : List α} (solid : ∀ a ∈ part, gap a = false)
    (stop : ∀ a ∈ (part ++ rest).head?, gap a = true) : part = [] := by
  cases part with
  | nil => rfl
  | cons a part =>
    have isGap := stop a (by simp)
    rw [solid a List.mem_cons_self] at isGap
    contradiction

theorem eq_nil_of_start {part : List α} (solid : ∀ a ∈ part, gap a = false)
    (start : ∀ a ∈ part.getLast?, gap a = true) : part = [] := by
  rcases List.eq_nil_or_concat' part with rfl | ⟨part, a, rfl⟩
  · rfl
  · have isGap := start a (by simp)
    rw [solid a (by simp)] at isGap
    contradiction

/-- A run at the start is a run of its own, and all others come after it. -/
theorem isRun_append (ne : run ≠ []) (solid : ∀ a ∈ run, gap a = false)
    (stop : ∀ a ∈ l.head?, gap a = true) :
    IsRun gap n (run ++ l) r ↔ r = ⟨n, run⟩ ∨ IsRun gap (n + run.length) l r := by
  constructor
  · rintro ⟨before, after, eq, first, own, solidOwn, startOwn, stopOwn⟩
    rcases List.append_eq_append_iff.mp eq with ⟨mid, rfl, tail⟩ | ⟨mid, rfl, tail⟩
    · refine .inr ⟨mid, after, tail, ?_, own, solidOwn, fun a last => ?_, stopOwn⟩
      · rw [first, List.length_append]
        omega
      · refine startOwn a ?_
        by_cases empty : mid = []
        · subst empty
          simp at last
        · rwa [List.getLast?_append_of_ne_nil _ empty]
    · have none : before = [] :=
        eq_nil_of_start (fun a mem => solid a (List.mem_append_left _ mem)) startOwn
      subst none
      refine .inl ?_
      have elements : r.elements = mid := by
        rcases List.append_eq_append_iff.mp tail with ⟨rest, more, rfl⟩ | ⟨rest, more, rfl⟩
        · have nil := eq_nil_of_stop (fun a mem => solid a (by simp [more, mem])) stopOwn
          rw [more, nil, List.append_nil]
        · have nil := eq_nil_of_stop (fun a mem => solidOwn a (by simp [more, mem])) stop
          rw [more, nil, List.append_nil]
      obtain ⟨number, list⟩ := r
      simp_all
  · rintro (rfl | ⟨before, after, rfl, first, own, solidOwn, startOwn, stopOwn⟩)
    · exact ⟨[], l, rfl, rfl, ne, solid, by simp, stop⟩
    · have some : before ≠ [] := by
        rintro rfl
        exact own (eq_nil_of_stop solidOwn stop)
      refine ⟨run ++ before, after, by simp, ?_, own, solidOwn, ?_, stopOwn⟩
      · rw [first, List.length_append]
        omega
      · rwa [List.getLast?_append_of_ne_nil _ some]

/-- A list is empty, or it begins with a gap, or it begins with a run that ends there. -/
theorem runInduction (gap : α → Bool) {motive : List α → Prop} (nil : motive [])
    (cons : ∀ g l, gap g = true → motive l → motive (g :: l))
    (append : ∀ run l, run ≠ [] → (∀ a ∈ run, gap a = false) → (∀ a ∈ l.head?, gap a = true) →
      motive l → motive (run ++ l)) : ∀ l, motive l := by
  intro l
  induction h : l.length using Nat.strongRecOn generalizing l with
  | ind m ih =>
    cases l with
    | nil => exact nil
    | cons a rest =>
      cases isGap : gap a with
      | true => exact cons a rest isGap (ih rest.length (by simp [← h]) rest rfl)
      | false =>
        have split := List.takeWhile_append_dropWhile (p := fun b => !gap b) (l := a :: rest)
        have start : (a :: rest).takeWhile (fun b => !gap b) =
            a :: rest.takeWhile fun b => !gap b := by
          rw [List.takeWhile_cons, if_pos (by simp [isGap])]
        rw [← split]
        refine append _ _ (by simp [start]) (fun b mem => ?_) (fun b head => ?_) (ih _ ?_ _ rfl)
        · simpa using List.all_eq_true.mp List.all_takeWhile b mem
        · have stop := List.head?_dropWhile_not (fun b => !gap b) (a :: rest)
          rw [head] at stop
          simpa using stop
        · have lengths := congrArg List.length split
          rw [List.length_append, start, List.length_cons] at lengths
          omega

theorem runs_cons {g : α} (isGap : gap g = true) : runs gap (g :: l) = runs gap l := by
  rw [runs, runs, List.splitOnP_cons_eq_if_modifyHead, if_pos isGap]
  rfl

theorem runs_append_gap {g : α} (isGap : gap g = true) (l l' : List α) :
    runs gap (l ++ g :: l') = runs gap l ++ runs gap l' := by
  rw [runs, List.splitOnP_append_cons _ _ isGap, List.filter_append]
  rfl

theorem runs_append (ne : run ≠ []) (solid : ∀ a ∈ run, gap a = false)
    (stop : ∀ a ∈ l.head?, gap a = true) : runs gap (run ++ l) = run :: runs gap l := by
  have whole : run.splitOnP gap = [run] := List.splitOnP_eq_singleton solid
  cases l with
  | nil =>
    rw [List.append_nil, runs, whole]
    simp [ne, runs]
  | cons g l =>
    have isGap : gap g = true := stop g rfl
    rw [runs_cons isGap, runs, List.splitOnP_append_cons _ _ isGap, whole]
    simp [ne, runs]

/-- Cutting a numbered list at its gaps gives its runs in order. -/
theorem exists_runs (gap : α → Bool) (l : List α) (n : Nat) : ∃ found : List (Run α),
    (∀ r, r ∈ found ↔ IsRun gap n l r) ∧ found.Pairwise (fun r next => r.first < next.first) ∧
      runs (fun a : α × Nat => gap a.1) (l.zipIdx n) = found.map Run.numbered := by
  induction l using runInduction gap generalizing n with
  | nil => exact ⟨[], fun r => by simp [not_isRun_nil], List.Pairwise.nil, rfl⟩
  | cons g l isGap ih =>
    obtain ⟨found, mem, sorted, cut⟩ := ih (n + 1)
    refine ⟨found, fun r => (mem r).trans (isRun_cons isGap).symm, sorted, ?_⟩
    rw [← cut, List.zipIdx_cons]
    exact runs_cons isGap
  | append run l ne solid stop ih =>
    obtain ⟨found, mem, sorted, cut⟩ := ih (n + run.length)
    refine ⟨⟨n, run⟩ :: found, fun r => ?_, ?_, ?_⟩
    · rw [isRun_append ne solid stop, List.mem_cons, mem]
    · refine List.pairwise_cons.mpr ⟨fun r inRest => ?_, sorted⟩
      obtain ⟨before, -, -, first, -⟩ := (mem r).mp inRest
      have := List.length_pos_iff.mpr ne
      show n < r.first
      omega
    · rw [List.map_cons, ← cut, List.zipIdx_append]
      refine runs_append (by simpa using ne) (fun a inRun => ?_) (fun a head => ?_)
      · exact solid a.1 (List.fst_mem_of_mem_zipIdx inRun)
      · rw [List.head?_zipIdx, Option.mem_def, Option.map_eq_some_iff] at head
        obtain ⟨b, first, rfl⟩ := head
        exact stop b first

end ShapeLines.Text
