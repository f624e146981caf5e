import ShapeLines.Line.Comma
import ShapeLines.Proofs.Text.Trimmed

/-!
# Pieces of a line without separating commas

A written piece is sealed when it holds no separating comma and does not end inside an escape. Both
readings of a line then pass over it in the same way, whatever follows: the search for the next
comma goes on behind it, and what it denotes is put in front of the token that is open. Texts
without commas and backslashes are sealed, and so is every escaped text.
-/

namespace ShapeLines.Line

/-- The piece `w` of a line denotes the text `t`, and a token goes on behind it. -/
structure Sealed (w t : List Char) : Prop where
  through : ∀ rest, throughComma? (w ++ rest) = (throughComma? rest).map fun p => (w ++ p.1, p.2)
  token : ∀ rest, tokens (w ++ rest) = (tokens rest).modifyHead (t ++ ·)

theorem Sealed.nil : Sealed [] [] where
  through rest := by simp
  token rest := by
    cases h : tokens rest <;> simp [h]

theorem Sealed.append {w t w' t' : List Char} (h : Sealed w t) (h' : Sealed w' t') :
    Sealed (w ++ w') (t ++ t') where
  through rest := by
    rw [List.append_assoc, h.through, h'.through, Option.map_map]
    simp [Function.comp_def]
  token rest := by
    rw [List.append_assoc, h.token, h'.token, List.modifyHead_modifyHead]
    simp [Function.comp_def]

theorem throughComma?_cons {c : Char} (h : c ≠ '\\') (rest : List Char) :
    throughComma? (c :: rest) =
      if c = ',' then some ([','], rest)
      else (throughComma? rest).map fun p => (c :: p.1, p.2) := by
  rw [throughComma?.eq_4 _ _ (by simp [h]) (by simp [h])]

theorem tokens_cons {c : Char} (h : c ≠ '\\') (rest : List Char) :
    tokens (c :: rest) =
      if c = ',' then [] :: tokens rest else (tokens rest).modifyHead (c :: ·) := by
  rw [tokens.eq_4 _ _ (by simp [h]) (by simp [h])]

@[simp] theorem throughComma?_comma (rest : List Char) :
    throughComma? (',' :: rest) = some ([','], rest) := by
  rw [throughComma?_cons (by decide), if_pos rfl]

@[simp] theorem tokens_comma (rest : List Char) : tokens (',' :: rest) = [] :: tokens rest := by
  rw [tokens_cons (by decide), if_pos rfl]

theorem sealed_singleton {c : Char} (comma : c ≠ ',') (backslash : c ≠ '\\') : Sealed [c] [c] where
  through rest := by
    rw [List.singleton_append, throughComma?_cons backslash, if_neg comma]
    rfl
  token rest := by
    rw [List.singleton_append, tokens_cons backslash, if_neg comma]
    rfl

theorem sealed_escaped {c : Char} (h : c = ',' ∨ c = '\\') : Sealed ['\\', c] [c] where
  through rest := rfl
  token rest := by
    rcases h with rfl | rfl <;> rfl

theorem sealed_plain {s : List Char} (h : ∀ c ∈ s, c ≠ ',' ∧ c ≠ '\\') : Sealed s s := by
  induction s with
  | nil => exact Sealed.nil
  | cons c s ih =>
    have head := h c (List.mem_cons_self ..)
    exact (sealed_singleton head.1 head.2).append (ih fun d hd => h d (List.mem_cons_of_mem _ hd))

theorem sealed_escape (s : List Char) : Sealed (escape s) s := by
  induction s with
  | nil => exact Sealed.nil
  | cons c s ih =>
    rw [escape, List.flatMap_cons, ← escape]
    split
    · next h => exact (sealed_escaped h).append ih
    · next h =>
      rw [not_or] at h
      exact (sealed_singleton h.1 h.2).append ih

theorem Sealed.tokens {w t : List Char} (h : Sealed w t) : tokens w = [t] := by
  have last := h.token []
  simpa [Line.tokens] using last

/-- The first comma that separates is the one right behind a sealed piece. -/
theorem throughComma?_of_sealed {w t : List Char} (h : Sealed w t) (rest : List Char) :
    throughComma? (w ++ ',' :: rest) = some (w ++ [','], rest) := by
  rw [h.through, throughComma?_comma]
  rfl

theorem throughComma?_of_sealed_last {w t : List Char} (h : Sealed w t) :
    throughComma? w = none := by
  have last := h.through []
  simpa [throughComma?] using last

theorem escape_cons (c : Char) (s : List Char) :
    escape (c :: s) = (if c = ',' ∨ c = '\\' then ['\\', c] else [c]) ++ escape s := by
  rw [escape, List.flatMap_cons, ← escape]

theorem escape_append (s t : List Char) : escape (s ++ t) = escape s ++ escape t :=
  List.flatMap_append

theorem mem_escape {s : List Char} {c : Char} (h : c ∈ s) : c ∈ escape s := by
  refine List.mem_flatMap.mpr ⟨c, h, ?_⟩
  split <;> simp

theorem mem_of_mem_escape {s : List Char} {c : Char} (h : c ∈ escape s) : c = '\\' ∨ c ∈ s := by
  obtain ⟨d, hd, hc⟩ := List.mem_flatMap.mp h
  split at hc
  · rcases List.mem_cons.mp hc with rfl | hc
    · exact .inl rfl
    · exact .inr (List.mem_singleton.mp hc ▸ hd)
  · exact .inr (List.mem_singleton.mp hc ▸ hd)

theorem oneLine_escape {s : List Char} (h : Text.OneLine s) : Text.OneLine (escape s) := by
  intro feed
  rcases mem_of_mem_escape feed with eq | mem
  · exact absurd eq (by decide)
  · exact h mem

theorem endsSolid_escape {s : List Char} (h : Text.EndsSolid s) : Text.EndsSolid (escape s) := by
  rcases List.eq_nil_or_concat s with rfl | ⟨front, d, rfl⟩
  · exact h
  · rw [List.concat_eq_append] at h ⊢
    have solid := h d front rfl
    intro c before hc
    rw [escape, List.flatMap_append, List.flatMap_singleton] at hc
    split at hc
    · rw [show ['\\', d] = ['\\'] ++ [d] from rfl, ← List.append_assoc] at hc
      rwa [← (List.cons.inj (List.append_inj' hc rfl).2).1]
    · rwa [← (List.cons.inj (List.append_inj' hc rfl).2).1]

/-! ## Texts of one token -/

/-- Whether a backslash at the end escapes the character that comes next. -/
def endsEscaped : List Char → Bool
  | [] => false
  | ['\\'] => true
  | '\\' :: _ :: rest => endsEscaped rest
  | _ :: rest => endsEscaped rest

theorem endsEscaped_cons {c : Char} (h : c ≠ '\\') (rest : List Char) :
    endsEscaped (c :: rest) = endsEscaped rest := by
  rw [endsEscaped.eq_4 _ _ (by simp [h]) (by simp [h])]

theorem endsEscaped_plain {s : List Char} (h : ∀ c ∈ s, c ≠ '\\') : endsEscaped s = false := by
  induction s with
  | nil => rfl
  | cons c s ih =>
    obtain ⟨head, rest⟩ := List.forall_mem_cons.mp h
    rw [endsEscaped_cons head, ih rest]

theorem sealed_unescaped {c : Char} (comma : c ≠ ',') (backslash : c ≠ '\\') :
    Sealed ['\\', c] ['\\', c] where
  through rest := rfl
  token rest := by
    have own : tokens ('\\' :: c :: rest) = (tokens (c :: rest)).modifyHead ('\\' :: ·) := by
      rw [tokens.eq_4 _ _ (by simp [comma]) (by simp [backslash]), if_neg (by decide)]
    rw [List.cons_append, List.cons_append, List.nil_append, own, tokens_cons backslash,
      if_neg comma, List.modifyHead_modifyHead]
    rfl

theorem sealed_backslash (c : Char) : ∃ t, Sealed ['\\', c] t := by
  by_cases escape : c = ',' ∨ c = '\\'
  · exact ⟨[c], sealed_escaped escape⟩
  · rw [not_or] at escape
    exact ⟨['\\', c], sealed_unescaped escape.1 escape.2⟩

/-- A backslash stands last or before another character. -/
theorem ne_backslash {c : Char} {rest : List Char} (last : c = '\\' → rest = [] → False)
    (escape : ∀ d more, c = '\\' → rest = d :: more → False) : c ≠ '\\' := fun eq => by
  cases rest with
  | nil => exact last eq rfl
  | cons d more => exact escape d more eq rfl

theorem tokens_ne_nil (s : List Char) : tokens s ≠ [] := by
  fun_induction tokens s <;> simp_all

theorem eq_of_modifyHead_eq_singleton {u t : List Char} {ts : List (List Char)}
    (one : ts.modifyHead (u ++ ·) = [t]) : ∃ t', ts = [t'] ∧ t = u ++ t' := by
  cases ts with
  | nil => cases one
  | cons t' ts =>
    obtain ⟨rfl, rfl⟩ := List.cons.inj one
    exact ⟨t', rfl, rfl⟩

/-- A text of one token is sealed, apart from a backslash at its end. -/
theorem sealed_or_dangling {s t : List Char} (one : tokens s = [t]) :
    (endsEscaped s = false ∧ Sealed s t) ∨
      (endsEscaped s = true ∧ ∃ s' t', s = s' ++ ['\\'] ∧ t = t' ++ ['\\'] ∧ Sealed s' t') := by
  have extended {w u s t : List Char} (h : Sealed w u)
      (behind : (endsEscaped s = false ∧ Sealed s t) ∨
        (endsEscaped s = true ∧ ∃ s' t', s = s' ++ ['\\'] ∧ t = t' ++ ['\\'] ∧ Sealed s' t')) :
      (endsEscaped s = false ∧ Sealed (w ++ s) (u ++ t)) ∨
        (endsEscaped s = true ∧
          ∃ s' t', w ++ s = s' ++ ['\\'] ∧ u ++ t = t' ++ ['\\'] ∧ Sealed s' t') := by
    rcases behind with ⟨ends, whole⟩ | ⟨ends, s', t', rfl, rfl, front⟩
    · exact .inl ⟨ends, h.append whole⟩
    · exact .inr ⟨ends, w ++ s', u ++ t', by simp, by simp, h.append front⟩
  fun_induction endsEscaped s generalizing t with
  | case1 =>
    obtain rfl : [] = t := (List.cons.inj one).1
    exact .inl ⟨rfl, Sealed.nil⟩
  | case2 =>
    obtain rfl : ['\\'] = t := (List.cons.inj one).1
    exact .inr ⟨rfl, [], [], rfl, rfl, Sealed.nil⟩
  | case3 c rest ih =>
    obtain ⟨u, start⟩ := sealed_backslash c
    have cut : tokens ('\\' :: c :: rest) = (tokens rest).modifyHead (u ++ ·) := start.token rest
    obtain ⟨t', alone, rfl⟩ := eq_of_modifyHead_eq_singleton (cut.symm.trans one)
    exact extended start (ih alone)
  | case4 c rest last escape ih =>
    have backslash := ne_backslash last escape
    rw [tokens_cons backslash] at one
    split at one
    · exact absurd (List.cons.inj one).2 (tokens_ne_nil rest)
    · next comma =>
      obtain ⟨t', alone, rfl⟩ := eq_of_modifyHead_eq_singleton (u := [c]) one
      exact extended (sealed_singleton comma backslash) (ih alone)

theorem sealed_of_tokens {s t : List Char} (one : tokens s = [t]) (ends : endsEscaped s = false) :
    Sealed s t := by
  rcases sealed_or_dangling one with ⟨-, whole⟩ | ⟨dangling, -⟩
  · exact whole
  · rw [ends] at dangling
    contradiction

/-- With a character behind it that no backslash escapes, a text of one token is sealed. -/
theorem sealed_concat {s t : List Char} (one : tokens s = [t]) {c : Char} (comma : c ≠ ',')
    (backslash : c ≠ '\\') : Sealed (s ++ [c]) (t ++ [c]) := by
  rcases sealed_or_dangling one with ⟨-, whole⟩ | ⟨-, s', t', rfl, rfl, front⟩
  · exact whole.append (sealed_singleton comma backslash)
  · simpa using front.append (sealed_unescaped comma backslash)

/-- A backslash before a character that it does not escape leaves what comes behind as it is. -/
theorem endsEscaped_append_cons {c : Char} (backslash : c ≠ '\\') (s rest : List Char) :
    endsEscaped (s ++ c :: rest) = endsEscaped rest := by
  fun_induction endsEscaped s with
  | case1 => exact endsEscaped_cons backslash rest
  | case2 => rfl
  | case3 d s ih => exact ih
  | case4 d s last escape ih =>
    rw [List.cons_append, endsEscaped_cons (ne_backslash last escape), ih]

theorem Sealed.ends {w t : List Char} (h : Sealed w t) : endsEscaped w = false := by
  rcases sealed_or_dangling h.tokens with ⟨ends, -⟩ | ⟨-, w', t', rfl, -, front⟩
  · exact ends
  · -- the comma behind the backslash would have to separate
    have separates := throughComma?_of_sealed h []
    rw [List.append_assoc, front.through] at separates
    cases separates

theorem exists_tokens_of_append {s rest t : List Char} (one : tokens (s ++ rest) = [t]) :
    ∃ u, tokens s = [u] := by
  have extended {w u s : List Char} (h : Sealed w u) (more : ∃ u, tokens s = [u]) :
      ∃ u, tokens (w ++ s) = [u] := by
    obtain ⟨v, alone⟩ := more
    exact ⟨u ++ v, by rw [h.token, alone]; rfl⟩
  fun_induction endsEscaped s generalizing t with
  | case1 => exact ⟨[], rfl⟩
  | case2 => exact ⟨['\\'], rfl⟩
  | case3 c s ih =>
    obtain ⟨u, start⟩ := sealed_backslash c
    have cut := start.token (s ++ rest)
    obtain ⟨v, alone, -⟩ := eq_of_modifyHead_eq_singleton (cut.symm.trans one)
    exact extended start (ih alone)
  | case4 c s last escape ih =>
    have backslash := ne_backslash last escape
    rw [List.cons_append, tokens_cons backslash] at one
    split at one
    · exact absurd (List.cons.inj one).2 (tokens_ne_nil _)
    · next comma =>
      obtain ⟨v, alone, -⟩ := eq_of_modifyHead_eq_singleton (u := [c]) one
      exact extended (sealed_singleton comma backslash) (ih alone)

/-- A text of one token is cut in two at a character that is neither a comma nor a backslash. -/
theorem exists_tokens_of_append_cons {c : Char} (comma : c ≠ ',') (backslash : c ≠ '\\')
    {s rest t : List Char} (one : tokens (s ++ c :: rest) = [t]) :
    ∃ u v, tokens s = [u] ∧ tokens rest = [v] ∧ t = u ++ c :: v := by
  obtain ⟨u, front⟩ := exists_tokens_of_append one
  have cut := (sealed_concat front comma backslash).token rest
  rw [List.append_assoc, List.singleton_append] at cut
  obtain ⟨v, back, rfl⟩ := eq_of_modifyHead_eq_singleton (cut.symm.trans one)
  exact ⟨u, v, front, back, by simp⟩

theorem tokens_append_cons {c : Char} (comma : c ≠ ',') (backslash : c ≠ '\\')
    {s rest u v : List Char} (front : tokens s = [u]) (back : tokens rest = [v]) :
    tokens (s ++ c :: rest) = [u ++ c :: v] := by
  have cut := (sealed_concat front comma backslash).token rest
  rw [List.append_assoc, List.singleton_append] at cut
  simp [cut, back]

/-- A text behind a token belongs to it if it holds no commas and no backslashes. -/
theorem tokens_append_plain {s t b : List Char} (one : tokens s = [t])
    (plain : ∀ c ∈ b, c ≠ ',' ∧ c ≠ '\\') : tokens (s ++ b) = [t ++ b] := by
  cases b with
  | nil => simpa using one
  | cons c b =>
    obtain ⟨first, others⟩ := List.forall_mem_cons.mp plain
    exact tokens_append_cons first.1 first.2 one (sealed_plain others).tokens

/-- Taking escapes away leaves no blank token of a text that is not blank. -/
theorem blank_of_tokens {s t : List Char} (one : tokens s = [t]) (blank : Text.Blank t) :
    Text.Blank s := by
  have behind {c : Char} {rest t : List Char} (blank : Text.Blank t)
      (cut : (tokens rest).modifyHead (c :: ·) = [t])
      (ih : ∀ {t}, tokens rest = [t] → Text.Blank t → Text.Blank rest) :
      Text.Blank (c :: rest) := by
    obtain ⟨u, alone, rfl⟩ := eq_of_modifyHead_eq_singleton (u := [c]) cut
    obtain ⟨first, others⟩ := List.forall_mem_cons.mp blank
    exact List.forall_mem_cons.mpr ⟨first, ih alone others⟩
  fun_induction tokens s generalizing t with
  | case1 => exact List.forall_mem_nil _
  | case2 rest ih => exact absurd (behind blank one ih ',' List.mem_cons_self) (by decide)
  | case3 rest ih => exact absurd (behind blank one ih '\\' List.mem_cons_self) (by decide)
  | case4 rest _ _ ih => exact absurd (List.cons.inj one).2 (tokens_ne_nil rest)
  | case5 c rest _ _ _ ih => exact behind blank one ih

/-! ## Where the first token ends -/

/-- What stands before the first comma that separates is sealed. -/
theorem exists_sealed_of_throughComma? {s before after : List Char}
    (found : throughComma? s = some (before, after)) :
    ∃ p t, before = p ++ [','] ∧ s = p ++ ',' :: after ∧ Sealed p t := by
  have extended {w u rest before after : List Char} (start : Sealed w u)
      (here : (throughComma? rest).map (fun r => (w ++ r.1, r.2)) = some (before, after))
      (ih : ∀ before, throughComma? rest = some (before, after) →
        ∃ p t, before = p ++ [','] ∧ rest = p ++ ',' :: after ∧ Sealed p t) :
      ∃ p t, before = p ++ [','] ∧ w ++ rest = p ++ ',' :: after ∧ Sealed p t := by
    obtain ⟨⟨front, _⟩, behind, eq⟩ := Option.map_eq_some_iff.mp here
    obtain ⟨rfl, rfl⟩ := Prod.mk.inj eq
    obtain ⟨p, t, rfl, rfl, whole⟩ := ih front behind
    exact ⟨w ++ p, u ++ t, by simp, by simp, start.append whole⟩
  fun_induction throughComma? s generalizing before after with
  | case1 => cases found
  | case2 => cases found
  | case3 c rest ih =>
    obtain ⟨u, start⟩ := sealed_backslash c
    exact extended start found fun _ => ih
  | case4 rest =>
    obtain ⟨rfl, rfl⟩ := Prod.mk.inj (Option.some.inj found)
    exact ⟨[], [], rfl, rfl, Sealed.nil⟩
  | case5 c rest last escape comma ih =>
    exact extended (sealed_singleton comma (ne_backslash last escape)) found fun _ => ih

theorem exists_tokens_of_throughComma? {s : List Char} (none : throughComma? s = none) :
    ∃ t, tokens s = [t] := by
  fun_induction throughComma? s with
  | case1 => exact ⟨[], rfl⟩
  | case2 => exact ⟨['\\'], rfl⟩
  | case3 c rest ih =>
    obtain ⟨u, start⟩ := sealed_backslash c
    obtain ⟨t, one⟩ := ih (Option.map_eq_none_iff.mp none)
    have cut : tokens ('\\' :: c :: rest) = (tokens rest).modifyHead (u ++ ·) := start.token rest
    exact ⟨u ++ t, by rw [cut, one]; rfl⟩
  | case4 rest => cases none
  | case5 c rest last escape comma ih =>
    obtain ⟨t, one⟩ := ih (Option.map_eq_none_iff.mp none)
    exact ⟨c :: t, by rw [tokens_cons (ne_backslash last escape), if_neg comma, one]; rfl⟩

theorem subset_of_mem_tokens {s t : List Char} (mem : t ∈ tokens s) : t ⊆ s := by
  have extended {c : Char} {rest : List Char} (ih : ∀ t ∈ tokens rest, t ⊆ rest) :
      ∀ t ∈ (tokens rest).modifyHead (c :: ·), t ⊆ c :: rest := by
    obtain ⟨t, ts, eq⟩ := List.exists_cons_of_ne_nil (tokens_ne_nil rest)
    rw [eq] at ih ⊢
    obtain ⟨first, others⟩ := List.forall_mem_cons.mp ih
    exact List.forall_mem_cons.mpr ⟨List.cons_subset_cons c first,
      fun u hu => List.subset_cons_of_subset c (others u hu)⟩
  fun_induction tokens s generalizing t with
  | case1 => rw [List.mem_singleton.mp mem]; exact List.Subset.refl _
  | case2 rest ih => exact List.subset_cons_of_subset _ (extended (fun _ => ih) t mem)
  | case3 rest ih => exact List.subset_cons_of_subset _ (extended (fun _ => ih) t mem)
  | case4 rest _ _ ih =>
    rcases List.mem_cons.mp mem with rfl | mem
    · exact List.nil_subset _
    · exact List.subset_cons_of_subset _ (ih mem)
  | case5 c rest _ _ _ ih => exact extended (fun _ => ih) t mem

end ShapeLines.Line
