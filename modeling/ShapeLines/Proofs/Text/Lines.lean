import ShapeLines.Proofs.Text.Trimmed

/-!
# Joining lines

Lines that are joined by line feeds are read as the same lines, save that a line that ends in a
carriage return loses it, because the line feed behind it now belongs to it. Trimming does not see
the difference.
-/

namespace ShapeLines.Text

theorem oneLine_of_mem_lines {s t : List Char} (mem : s ∈ lines t) : OneLine s := by
  fun_induction lines t generalizing s with
  | case1 => exact absurd mem List.not_mem_nil
  | case2 rest ih =>
    rcases List.mem_cons.mp mem with rfl | mem
    · exact List.not_mem_nil
    · exact ih mem
  | case3 rest ih =>
    rcases List.mem_cons.mp mem with rfl | mem
    · exact List.not_mem_nil
    · exact ih mem
  | case4 c rest feed _ ih =>
    have own : OneLine [c] := by simpa [OneLine, eq_comm] using feed
    cases below : lines rest with
    | nil =>
      rw [below, extendFirst, List.mem_singleton] at mem
      exact mem ▸ own
    | cons line others =>
      rw [below, extendFirst, List.mem_cons] at mem
      rcases mem with rfl | mem
      · exact own.append (ih (by simp [below]))
      · exact ih (by simp [below, mem])

/-- A line feed cuts off what stands before it, and takes one carriage return away. -/
theorem exists_lines_append_feed {s : List Char} (one : OneLine s) (rest : List Char) :
    ∃ line, lines (s ++ '\n' :: rest) = line :: lines rest ∧
      (s = line ∨ s = line ++ ['\r']) := by
  induction s with
  | nil => exact ⟨[], rfl, .inl rfl⟩
  | cons c s ih =>
    simp only [OneLine, List.mem_cons, not_or] at one
    by_cases last : c = '\r' ∧ s = []
    · obtain ⟨rfl, rfl⟩ := last
      exact ⟨[], rfl, .inr rfl⟩
    · obtain ⟨line, cut, same⟩ := ih one.2
      refine ⟨c :: line, ?_, by simpa using same⟩
      rw [List.cons_append, lines_cons_of_ne (Ne.symm one.1), cut]
      · rfl
      · rintro t rfl feed
        cases s with
        | nil => exact last ⟨rfl, rfl⟩
        | cons d s =>
          obtain ⟨rfl, -⟩ := List.cons.inj feed
          exact one.2 List.mem_cons_self

/-- Joined lines are read as lines that are the same when trimmed. -/
theorem map_trim_lines_intercalate {ls : List (List Char)} (one : ∀ s ∈ ls, OneLine s)
    (ne : ∀ s ∈ ls, s ≠ []) : (lines (List.intercalate ['\n'] ls)).map trim = ls.map trim := by
  induction ls with
  | nil => rfl
  | cons s ls ih =>
    cases ls with
    | nil =>
      have alone := lines_of_oneLine (one s (by simp)) (ne s (by simp))
      simp [alone]
    | cons t ls =>
      obtain ⟨line, cut, same⟩ := exists_lines_append_feed (one s (by simp))
        (List.intercalate ['\n'] (t :: ls))
      have trimmed : trim line = trim s := by
        rcases same with rfl | rfl
        · rfl
        · rw [trim_concat (by decide)]
      rw [List.intercalate_cons_cons, List.append_assoc, List.singleton_append, cut, List.map_cons,
        trimmed, ih (fun u mem => one u (by simp [mem])) fun u mem => ne u (by simp [mem])]
      rfl

/-! ## Lines that are not blank -/

/-- What is left of the lines of a text when they are trimmed, if anything is left. -/
def solidLines (s : List Char) : List (List Char) :=
  ((lines s).map trim).filter (· ≠ [])

theorem oneLine_of_mem_solidLines {s line : List Char} (mem : line ∈ solidLines s) :
    OneLine line := by
  obtain ⟨inLines, -⟩ := List.mem_filter.mp mem
  obtain ⟨whole, inText, rfl⟩ := List.mem_map.mp inLines
  exact (oneLine_of_mem_lines inText).trim

theorem solidLines_of_oneLine {s : List Char} (one : OneLine s) :
    solidLines s = [trim s].filter (· ≠ []) := by
  by_cases empty : s = []
  · rw [empty]
    rfl
  · rw [solidLines, lines_of_oneLine one empty, List.map_singleton]

theorem solidLines_append_feed_of_oneLine {s : List Char} (one : OneLine s) (t : List Char) :
    solidLines (s ++ '\n' :: t) = solidLines s ++ solidLines t := by
  obtain ⟨line, cut, same⟩ := exists_lines_append_feed one t
  have trimmed : trim line = trim s := by
    rcases same with rfl | rfl
    · rfl
    · rw [trim_concat (by decide)]
  rw [solidLines_of_oneLine one, solidLines, cut, List.map_cons, trimmed, ← List.singleton_append,
    List.filter_append, ← solidLines]

/-- A text is one line, or it is a line, a line feed and what follows. -/
@[elab_as_elim]
theorem feedInduction {P : List Char → Prop} (one : ∀ s, OneLine s → P s)
    (feed : ∀ front back, OneLine front → P back → P (front ++ '\n' :: back)) (s : List Char) :
    P s := by
  by_cases mem : '\n' ∈ s
  · obtain ⟨front, back, whole, first⟩ := List.eq_append_cons_of_mem mem
    have shorter : back.length < s.length := by
      rw [whole, List.length_append, List.length_cons]
      omega
    rw [whole]
    exact feed front back first (feedInduction one feed back)
  · exact one s mem
termination_by s.length

/-- A line feed parts the lines that are not blank. -/
theorem solidLines_append_feed (s t : List Char) :
    solidLines (s ++ '\n' :: t) = solidLines s ++ solidLines t := by
  induction s using feedInduction with
  | one s line => exact solidLines_append_feed_of_oneLine line t
  | feed front back line ih =>
    rw [List.append_assoc, List.cons_append, solidLines_append_feed_of_oneLine line,
      solidLines_append_feed_of_oneLine line, ih, List.append_assoc]

theorem solidLines_intercalate (ls : List (List Char)) :
    solidLines (List.intercalate ['\n'] ls) = ls.flatMap solidLines := by
  induction ls with
  | nil => rfl
  | cons s ls ih =>
    cases ls with
    | nil => simp
    | cons t ls =>
      rw [List.intercalate_cons_cons, List.append_assoc, List.singleton_append,
        solidLines_append_feed, ih, ← List.flatMap_cons]

theorem trim_ne_nil {s : List Char} {c : Char} (mem : c ∈ s) (solid : isBlank c = false) :
    trim s ≠ [] := by
  intro empty
  have blank := trim_eq_nil_iff.mp empty c mem
  rw [solid] at blank
  contradiction

/-- A text with a character that is not blank has a line that is not blank. -/
theorem solidLines_ne_nil {s : List Char} {c : Char} (mem : c ∈ s) (solid : isBlank c = false) :
    solidLines s ≠ [] := by
  induction s using feedInduction with
  | one s line =>
    rw [solidLines_of_oneLine line]
    simp [trim_ne_nil mem solid]
  | feed front back line ih =>
    rw [solidLines_append_feed]
    rcases List.mem_append.mp mem with inFront | inBack
    · rw [solidLines_of_oneLine line]
      simp [trim_ne_nil inFront solid]
    · rcases List.mem_cons.mp inBack with rfl | inBack
      · exact absurd solid (by decide)
      · exact List.append_ne_nil_of_right_ne_nil _ (ih inBack)

end ShapeLines.Text
