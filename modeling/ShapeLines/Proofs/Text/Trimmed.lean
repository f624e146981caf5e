import Mathlib.Data.List.DropRight
import Mathlib.Data.List.Induction
import ShapeLines.Text.Blank
import ShapeLines.Text.Split

/-!
# Trimmed texts and whole lines

A text is trimmed when trimming leaves it as it is, which is a matter of its two end characters.
A text that is one line and does not end in a carriage return comes back when it is put among other
lines and the whole is cut at its line ends.
-/

namespace ShapeLines.Text

/-- Trimming changes nothing. -/
def Trimmed (s : List Char) : Prop :=
  trim s = s

instance (s : List Char) : Decidable (Trimmed s) :=
  inferInstanceAs (Decidable (trim s = s))

/-- No character at the start is blank. -/
def StartsSolid (s : List Char) : Prop :=
  ∀ c rest, s = c :: rest → isBlank c = false

/-- No character at the end is blank. -/
def EndsSolid (s : List Char) : Prop :=
  ∀ c front, s = front ++ [c] → isBlank c = false

theorem trimStart_eq_self_iff {s : List Char} : trimStart s = s ↔ StartsSolid s := by
  cases s with
  | nil => simp [StartsSolid]
  | cons c s =>
    rw [trimStart_cons]
    constructor
    · intro h d rest hd
      obtain ⟨rfl, rfl⟩ := List.cons.inj hd
      cases hb : isBlank c with
      | false => rfl
      | true =>
        have hlen := congrArg List.length h
        rw [if_pos hb, List.length_cons] at hlen
        have hle := length_trimStart_le s
        omega
    · intro h
      exact if_neg (by simp [h c s rfl])

theorem trimEnd_eq_self_iff {s : List Char} : trimEnd s = s ↔ EndsSolid s := by
  have hrev : trimEnd s = s ↔ trimStart s.reverse = s.reverse := by
    rw [trimEnd, ← trimStart]
    exact List.reverse_eq_iff
  rw [hrev, trimStart_eq_self_iff]
  constructor
  · intro h c front hs
    exact h c front.reverse (by simp [hs])
  · intro h c rest hs
    exact h c rest.reverse (by rw [← List.reverse_cons, ← hs, List.reverse_reverse])

theorem length_trimEnd_le (s : List Char) : (trimEnd s).length ≤ s.length := by
  have h := length_trimStart_le s.reverse
  simpa [trimEnd, trimStart] using h

theorem trimmed_iff {s : List Char} : Trimmed s ↔ StartsSolid s ∧ EndsSolid s := by
  rw [← trimStart_eq_self_iff, ← trimEnd_eq_self_iff]
  constructor
  · intro h
    have h1 := congrArg List.length h
    have h2 := length_trimEnd_le (trimStart s)
    have h3 := length_trimStart_le s
    have hstart : trimStart s = s := by
      refine List.IsSuffix.eq_of_length (List.dropWhile_suffix _) ?_
      simp only [trim] at h1
      omega
    exact ⟨hstart, by rwa [Trimmed, trim, hstart] at h⟩
  · rintro ⟨hs, he⟩
    rw [Trimmed, trim, hs, he]

theorem StartsSolid.append {s : List Char} (h : StartsSolid s) (ne : s ≠ []) (t : List Char) :
    StartsSolid (s ++ t) := by
  cases s with
  | nil => exact (ne rfl).elim
  | cons c s =>
    intro d rest hd
    obtain ⟨rfl, -⟩ := List.cons.inj hd
    exact h c s rfl

theorem EndsSolid.append {t : List Char} (h : EndsSolid t) (ne : t ≠ []) (s : List Char) :
    EndsSolid (s ++ t) := by
  intro c front hc
  obtain ⟨u, d, rfl⟩ := List.eq_nil_or_concat t |>.resolve_left ne
  rw [List.concat_eq_append] at h hc
  rw [← List.append_assoc] at hc
  obtain rfl := (List.append_inj' hc rfl).2 |> List.cons.inj |>.1
  exact h d u rfl

theorem StartsSolid.trimStart {s : List Char} (h : StartsSolid s) : trimStart s = s :=
  trimStart_eq_self_iff.mpr h

theorem trimEnd_concat {c : Char} (blank : isBlank c = true) (s : List Char) :
    trimEnd (s ++ [c]) = trimEnd s := by
  simp [trimEnd, blank]

/-- A blank at the end is trimmed away. -/
theorem trim_concat {c : Char} (blank : isBlank c = true) (s : List Char) :
    trim (s ++ [c]) = trim s := by
  unfold trim
  cases solid : (trimStart s).isEmpty with
  | true =>
    have none : trimStart s = [] := List.isEmpty_iff.mp solid
    have both : trimStart (s ++ [c]) = [] := by
      rw [trimStart, List.dropWhile_append, ← trimStart, none]
      simp [blank]
    rw [none, both]
  | false =>
    have both : trimStart (s ++ [c]) = trimStart s ++ [c] := by
      rw [trimStart, List.dropWhile_append, ← trimStart, solid]
      rfl
    rw [both, trimEnd_concat blank]

theorem trim_trimEnd (s : List Char) : trim (trimEnd s) = trim s := by
  induction s using List.reverseRecOn with
  | nil => rfl
  | append_singleton s c ih =>
    cases blank : isBlank c with
    | true => rw [trimEnd_concat blank, ih, trim_concat blank]
    | false =>
      have solid : EndsSolid (s ++ [c]) := by
        intro d front eq
        rw [← (List.cons.inj (List.append_inj' eq rfl).2).1, blank]
      rw [trimEnd_eq_self_iff.mpr solid]

theorem prefix_trimEnd (s : List Char) : trimEnd s <+: s := by
  rw [← List.reverse_suffix, trimEnd, List.reverse_reverse]
  exact List.dropWhile_suffix isBlank

theorem infix_trim (s : List Char) : trim s <:+: s :=
  (prefix_trimEnd _).isInfix.trans (List.dropWhile_suffix isBlank).isInfix

theorem trimmed_trim (s : List Char) : Trimmed (trim s) := by
  have start : StartsSolid (trimStart s) :=
    trimStart_eq_self_iff.mp (List.dropWhile_idempotent isBlank s)
  have ends : EndsSolid (trim s) := by
    rw [← trimEnd_eq_self_iff, trim, trimEnd, trimEnd, List.reverse_reverse,
      List.dropWhile_idempotent]
  refine trimmed_iff.mpr ⟨?_, ends⟩
  intro c rest eq
  obtain ⟨more, whole⟩ := prefix_trimEnd (trimStart s)
  rw [← trim, eq] at whole
  exact start c (rest ++ more) whole.symm

/-- Trimming at the end stops at a character that is not blank. -/
theorem trimEnd_append_cons {c : Char} (solid : isBlank c = false) (s t : List Char) :
    trimEnd (s ++ c :: t) = s ++ c :: trimEnd t := by
  have stop : (t.reverse ++ c :: s.reverse).dropWhile isBlank =
      t.reverse.dropWhile isBlank ++ c :: s.reverse := by
    rw [List.dropWhile_append]
    split <;> simp_all
  simp [trimEnd, stop]

theorem trimStart_append_cons {c : Char} (solid : isBlank c = false) (s t : List Char) :
    trimStart (s ++ c :: t) = trimStart s ++ c :: t := by
  induction s with
  | nil => rw [List.nil_append, trimStart_cons, if_neg (by simp [solid])]; rfl
  | cons d s ih =>
    rw [List.cons_append, trimStart_cons, trimStart_cons, ih]
    split <;> rfl

/-- Only the parts beside a character that is not blank are trimmed, each at its end. -/
theorem trim_append_cons {c : Char} (solid : isBlank c = false) (s t : List Char) :
    trim (s ++ c :: t) = trimStart s ++ c :: trimEnd t := by
  rw [trim, trimStart_append_cons solid, trimEnd_append_cons solid]

theorem trim_trimStart (s : List Char) : trim (trimStart s) = trim s :=
  congrArg trimEnd (List.dropWhile_idempotent isBlank s)

/-! ## Blanks around a text -/

/-- No other characters than blanks stand in the text. -/
def Blank (s : List Char) : Prop :=
  ∀ c ∈ s, isBlank c = true

instance (s : List Char) : Decidable (Blank s) :=
  List.decidableBAll _ s

theorem Blank.trimStart_append {b : List Char} (blank : Blank b) (s : List Char) :
    trimStart (b ++ s) = trimStart s :=
  List.dropWhile_append_of_pos blank

theorem Blank.trim_append {b : List Char} (blank : Blank b) (s : List Char) :
    trim (b ++ s) = trim s :=
  congrArg trimEnd (blank.trimStart_append s)

theorem Blank.append_trim {b : List Char} (blank : Blank b) (s : List Char) :
    trim (s ++ b) = trim s := by
  induction b using List.reverseRecOn with
  | nil => rw [List.append_nil]
  | append_singleton b c ih =>
    obtain ⟨front, last⟩ := List.forall_mem_append.mp blank
    rw [← List.append_assoc, trim_concat (last c List.mem_cons_self), ih front]

/-- What is trimmed away is blank. -/
theorem exists_eq_trimEnd_append (s : List Char) :
    ∃ tail, s = trimEnd s ++ tail ∧ Blank tail := by
  refine ⟨(s.reverse.takeWhile isBlank).reverse, ?_, fun c mem => ?_⟩
  · rw [trimEnd, ← List.reverse_append, List.takeWhile_append_dropWhile, List.reverse_reverse]
  · exact List.mem_takeWhile_imp (List.mem_reverse.mp mem)

theorem exists_eq_append_trimStart (s : List Char) :
    ∃ lead, s = lead ++ trimStart s ∧ Blank lead :=
  ⟨s.takeWhile isBlank, List.takeWhile_append_dropWhile.symm,
    fun _ mem => List.mem_takeWhile_imp mem⟩

theorem exists_eq_append_trim (s : List Char) :
    ∃ lead tail, s = lead ++ (trim s ++ tail) ∧ Blank lead ∧ Blank tail := by
  obtain ⟨lead, whole, blankLead⟩ := exists_eq_append_trimStart s
  obtain ⟨tail, rest, blankTail⟩ := exists_eq_trimEnd_append (trimStart s)
  exact ⟨lead, tail, whole.trans (congrArg _ rest), blankLead, blankTail⟩

theorem trim_eq_nil_iff {s : List Char} : trim s = [] ↔ Blank s := by
  constructor
  · intro empty
    obtain ⟨lead, tail, whole, blankLead, blankTail⟩ := exists_eq_append_trim s
    rw [empty, List.nil_append] at whole
    rw [whole]
    exact List.forall_mem_append.mpr ⟨blankLead, blankTail⟩
  · intro blank
    simpa using blank.trim_append []

/-! ## Lines -/

/-- No line feed stands in the text. -/
def OneLine (s : List Char) : Prop :=
  '\n' ∉ s

instance (s : List Char) : Decidable (OneLine s) :=
  inferInstanceAs (Decidable ('\n' ∉ s))

theorem OneLine.append {s t : List Char} (hs : OneLine s) (ht : OneLine t) : OneLine (s ++ t) := by
  simp only [OneLine, List.mem_append, not_or] at *
  exact ⟨hs, ht⟩

theorem OneLine.of_subset {s t : List Char} (h : OneLine t) (sub : s ⊆ t) : OneLine s :=
  fun feed => h (sub feed)

theorem OneLine.trim {s : List Char} (h : OneLine s) : OneLine (trim s) :=
  h.of_subset (infix_trim s).subset

theorem lines_cons_of_ne {c : Char} {rest : List Char} (feed : c ≠ '\n')
    (pair : ∀ t, c = '\r' → rest ≠ '\n' :: t) : lines (c :: rest) = extendFirst c (lines rest) := by
  rw [lines.eq_def]
  split
  · contradiction
  · next h => exact (feed (List.cons.inj h).1).elim
  · next h =>
    obtain ⟨hc, hr⟩ := List.cons.inj h
    exact (pair _ hc hr).elim
  · next h =>
    obtain ⟨rfl, rfl⟩ := List.cons.inj h
    rfl

/-- A line that ends solid is cut off whole at the line feed after it. -/
theorem lines_append_feed {s : List Char} (one : OneLine s) (solid : EndsSolid s)
    (rest : List Char) : lines (s ++ '\n' :: rest) = s :: lines rest := by
  induction s with
  | nil => rfl
  | cons c s ih =>
    simp only [OneLine, List.mem_cons, not_or] at one
    have tail : EndsSolid s := fun d front hd => solid d (c :: front) (by rw [hd]; rfl)
    rw [List.cons_append, lines_cons_of_ne (Ne.symm one.1), ih one.2 tail]
    · rfl
    · rintro t rfl ht
      cases s with
      | nil => exact absurd (solid '\r' [] rfl) (by decide)
      | cons d s =>
        obtain ⟨rfl, -⟩ := List.cons.inj ht
        exact one.2 (List.mem_cons_self ..)

theorem lines_of_oneLine {s : List Char} (one : OneLine s) (ne : s ≠ []) : lines s = [s] := by
  induction s with
  | nil => exact (ne rfl).elim
  | cons c s ih =>
    simp only [OneLine, List.mem_cons, not_or] at one
    rw [lines_cons_of_ne (Ne.symm one.1)]
    · cases s with
      | nil => rfl
      | cons d s =>
        rw [ih one.2 (by simp)]
        rfl
    · rintro t - rfl
      exact one.2 (List.mem_cons_self ..)

/-- Lines joined by line feeds are the lines of the joined text. -/
theorem lines_intercalate {ls : List (List Char)} (one : ∀ s ∈ ls, OneLine s)
    (solid : ∀ s ∈ ls, EndsSolid s) (ne : ∀ s ∈ ls, s ≠ []) :
    lines (List.intercalate ['\n'] ls) = ls := by
  induction ls with
  | nil => rfl
  | cons s ls ih =>
    cases ls with
    | nil => simpa using lines_of_oneLine (one s (by simp)) (ne s (by simp))
    | cons t ls =>
      have tail := ih (fun u hu => one u (by simp [hu])) (fun u hu => solid u (by simp [hu]))
        (fun u hu => ne u (by simp [hu]))
      rw [List.intercalate_cons_cons, List.append_assoc, List.singleton_append,
        lines_append_feed (one s (by simp)) (solid s (by simp)), tail]

end ShapeLines.Text
