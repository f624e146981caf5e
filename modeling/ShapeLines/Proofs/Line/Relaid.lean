import ShapeLines.Line.Entry
import ShapeLines.Proofs.Line.Pieces
import ShapeLines.Proofs.Line.Tells

/-!
# Laying a line out anew

Blanks at the ends of a line do not matter. On a line whose tokens open no list literals they do not
matter beside a comma that separates or beside the first `=` of a token either, and a key alone may
be written with its value `true`. On such a line the pieces between the commas are read one by one,
so an edit is a matter of one piece: `Replaces` says that one piece can stand for another.
-/

namespace ShapeLines

open Results

/-- Blanks that leave a line what it is, one line. -/
def Text.Spacing (b : List Char) : Prop :=
  ∀ c ∈ b, isBlank c = true ∧ c ≠ '\n'

instance (b : List Char) : Decidable (Text.Spacing b) :=
  List.decidableBAll _ b

theorem Text.Spacing.blank {b : List Char} (spacing : Spacing b) : Blank b :=
  fun c mem => (spacing c mem).1

theorem Text.Spacing.oneLine {b : List Char} (spacing : Spacing b) : OneLine b :=
  fun mem => (spacing _ mem).2 rfl

namespace Line

open Text (Blank Spacing OneLine)

variable {s s' p p' key value b t : List Char} {front back : List (List Char)} {ps : List Pair}

/-- The edits of a piece between two commas. -/
inductive PieceRelaid : List Char → List Char → Prop
  | before {b p : List Char} (spacing : Spacing b) : PieceRelaid p (b ++ p)
  | behind {b p : List Char} (spacing : Spacing b) : PieceRelaid p (p ++ b)
  | equals {key value b b' : List Char} (first : '=' ∉ key) (spacing : Spacing b)
      (spacing' : Spacing b') :
      PieceRelaid (key ++ '=' :: value) ((key ++ b) ++ '=' :: (b' ++ value))
  | flag {key b : List Char} (alone : '=' ∉ key) (solid : Text.trim key ≠ [])
      (spacing : Spacing b) : PieceRelaid (key ++ b) (key ++ '=' :: ("true".toList ++ b))

/-- No token opens a list literal. -/
def OpensNoList (s : List Char) : Prop :=
  ∀ p ∈ pieces s, opening? p = none

instance (s : List Char) : Decidable (OpensNoList s) :=
  inferInstanceAs (Decidable (∀ p ∈ pieces s, _))

/-- The edits of a line. -/
inductive LineRelaid : List Char → List Char → Prop
  | start {b s : List Char} (spacing : Spacing b) : LineRelaid s (b ++ s)
  | stop {b s : List Char} (spacing : Spacing b) : LineRelaid s (s ++ b)
  | piece {s s' p p' : List Char} {front back : List (List Char)} (plain : OpensNoList s)
      (cut : pieces s = front ++ p :: back) (relaid : PieceRelaid p p')
      (whole : s' = List.intercalate [','] (front ++ p' :: back)) : LineRelaid s s'

/-! ## The pieces of a line -/

theorem Sealed.opensNoList_comma_iff (whole : Sealed p t) (rest : List Char) :
    OpensNoList (p ++ ',' :: rest) ↔ opening? p = none ∧ OpensNoList rest := by
  rw [OpensNoList, whole.pieces, List.forall_mem_cons]
  rfl

theorem opensNoList_of_tokens_iff (one : tokens p = [t]) : OpensNoList p ↔ opening? p = none := by
  rw [OpensNoList, pieces_of_tokens one, List.forall_mem_singleton]

theorem Sealed.pairsOfTokens_comma_eq_ok_iff (whole : Sealed p t) (rest : List Char) :
    pairsOfTokens (p ++ ',' :: rest) = .ok ps ↔ ∃ first more,
      pairsOfTokens p = .ok first ∧ pairsOfTokens rest = .ok more ∧ ps = first ++ more := by
  rw [pairsOfTokens_append_comma whole.splits, bind_eq_ok_iff]
  simp only [map_eq_ok_iff]
  constructor
  · rintro ⟨first, readFirst, more, readMore, rfl⟩
    exact ⟨first, more, readFirst, readMore, rfl⟩
  · rintro ⟨first, more, readFirst, readMore, rfl⟩
    exact ⟨first, readFirst, more, readMore, rfl⟩

theorem OpensNoList.expand (plain : OpensNoList s) : expand s = .ok s :=
  expand_of_pieces plain

/-! ## Pieces that can stand for each other -/

/-- The piece `p'` can stand where `p` stands: it opens a literal only if `p` does, and it is read
as the same pairs. -/
structure Replaces (p p' : List Char) : Prop where
  token : ∃ t, tokens p' = [t]
  ends : endsEscaped p = false → endsEscaped p' = false
  opening : opening? p = none ↔ opening? p' = none
  pairs : ∀ ps, pairsOfTokens p = .ok ps ↔ pairsOfTokens p' = .ok ps

/-- A replaced piece changes nothing in its line. -/
theorem Replaces.line (replaces : Replaces p p') (cut : pieces s = front ++ p :: back) :
    (OpensNoList s ↔ OpensNoList (List.intercalate [','] (front ++ p' :: back))) ∧
      ∀ ps, pairsOfTokens s = .ok ps ↔
        pairsOfTokens (List.intercalate [','] (front ++ p' :: back)) = .ok ps := by
  obtain ⟨u, one⟩ := replaces.token
  induction front generalizing s with
  | nil =>
    rcases pieces_eq_cons cut with ⟨rfl, rfl, t, alone⟩ | ⟨t, rest, whole, rfl, rfl⟩
    · rw [List.nil_append, List.intercalate_singleton, opensNoList_of_tokens_iff alone,
        opensNoList_of_tokens_iff one]
      exact ⟨replaces.opening, replaces.pairs⟩
    · have whole' : Sealed p' u := sealed_of_tokens one (replaces.ends whole.ends)
      have line : List.intercalate [','] (p' :: pieces rest) = p' ++ ',' :: rest := by
        rw [List.intercalate_cons_of_ne_nil (pieces_ne_nil rest), intercalate_pieces,
          List.append_assoc, List.singleton_append]
      rw [List.nil_append, line, whole.opensNoList_comma_iff, whole'.opensNoList_comma_iff,
        replaces.opening]
      refine ⟨Iff.rfl, fun ps => ?_⟩
      simp only [whole.pairsOfTokens_comma_eq_ok_iff, whole'.pairsOfTokens_comma_eq_ok_iff,
        replaces.pairs]
  | cons q front ih =>
    rcases pieces_eq_cons cut with ⟨none, -⟩ | ⟨t, rest, whole, rfl, same⟩
    · simp at none
    · obtain ⟨opening, pairs⟩ := ih same.symm
      have line : List.intercalate [','] (q :: front ++ p' :: back) =
          q ++ ',' :: List.intercalate [','] (front ++ p' :: back) := by
        rw [List.cons_append, List.intercalate_cons_of_ne_nil (by simp), List.append_assoc,
          List.singleton_append]
      rw [line, whole.opensNoList_comma_iff, whole.opensNoList_comma_iff, opening]
      refine ⟨Iff.rfl, fun ps => ?_⟩
      simp only [whole.pairsOfTokens_comma_eq_ok_iff, pairs]

/-! ## What a piece is read as -/

theorem pairsOfTokens_alone (one : tokens p = [t]) (alone : '=' ∉ p) : pairsOfTokens p =
    .ok (if Text.trim t = [] then [] else [(String.ofList (Text.trim t), "true")]) := by
  have apart : ∀ c ∈ Text.trim t, c ≠ '=' := fun c mem eq =>
    alone (subset_of_mem_tokens (by simp [one]) ((Text.infix_trim t).subset (eq ▸ mem)))
  rw [pairsOfTokens, one, List.map_singleton]
  split
  · next empty =>
    rw [List.filter_cons_of_neg (by simp [empty])]
    rfl
  · next solid =>
    rw [List.filter_cons_of_pos (by simp [solid]), List.filter_nil, List.mapM_cons, pairOf,
      splitEquals?_eq_none apart]
    rfl

theorem pairsOfTokens_equals_eq_ok_iff {u v : List Char} (label : tokens key = [u])
    (text : tokens value = [v]) (first : '=' ∉ key) :
    pairsOfTokens (key ++ '=' :: value) = .ok ps ↔ Text.trim u ≠ [] ∧
      ps = [(String.ofList (Text.trim u), String.ofList (Text.trim v))] := by
  have apart : ∀ c ∈ Text.trimStart u, c ≠ '=' := fun c mem eq =>
    first (subset_of_mem_tokens (by simp [label])
      ((List.dropWhile_suffix Text.isBlank).subset (eq ▸ mem)))
  have trimmed : Text.trim (u ++ '=' :: v) = Text.trimStart u ++ '=' :: Text.trimEnd v :=
    Text.trim_append_cons (by decide) u v
  rw [pairsOfTokens, tokens_append_cons (by decide) (by decide) label text, List.map_singleton,
    trimmed, List.filter_cons_of_pos (by simp), List.filter_nil, List.mapM_cons, List.mapM_nil,
    pairOf, splitEquals?_key apart]
  simp only [Text.trim_trimStart, Text.trim_trimEnd, List.isEmpty_iff]
  split
  · next empty => simp [empty, bind, Except.bind]
  · next solid => simp [solid, bind, Except.bind, pure, Except.pure, eq_comm]

/-! ## The edits of a piece -/

theorem plain_of_blank (blank : Blank b) : ∀ c ∈ b, c ≠ ',' ∧ c ≠ '\\' := by
  intro c mem
  have isBlank := blank c mem
  constructor <;> rintro rfl <;> cases isBlank

theorem notMem_of_blank (blank : Blank b) : '=' ∉ b := fun mem => by
  cases blank _ mem

theorem tokens_blank_append (blank : Blank b) (one : tokens p = [t]) :
    tokens (b ++ p) = [b ++ t] := by
  rw [(sealed_plain (plain_of_blank blank)).token, one]
  rfl

theorem tokens_append_blank (blank : Blank b) (one : tokens p = [t]) :
    tokens (p ++ b) = [t ++ b] :=
  tokens_append_plain one (plain_of_blank blank)

/-- Whether a bracket comes first does not depend on blanks. -/
theorem exists_bracket_iff {b b' : List Char} (blank : Blank b) (blank' : Blank b')
    (value : List Char) :
    (∃ body, Text.trimStart (b ++ (value ++ b')) = '[' :: body) ↔
      ∃ body, Text.trimStart value = '[' :: body := by
  obtain ⟨lead, whole, blankLead⟩ := Text.exists_eq_append_trimStart value
  rw [blank.trimStart_append]
  cases solid : Text.trimStart value with
  | nil =>
    have none : Text.trimStart (value ++ b') = Text.trimStart b' := by
      rw [whole, solid, List.append_nil, blankLead.trimStart_append]
    have all := blank'.trimStart_append []
    rw [List.append_nil] at all
    simp [none, all]
  | cons c rest =>
    have starts : Text.isBlank c = false := by
      have again : Text.trimStart (c :: rest) = c :: rest := by
        rw [← solid, Text.trimStart, Text.trimStart, List.dropWhile_idempotent]
      exact Text.trimStart_eq_self_iff.mp again c rest rfl
    have same : Text.trimStart (value ++ b') = c :: (rest ++ b') := by
      rw [whole, solid, List.append_assoc, blankLead.trimStart_append, List.cons_append,
        Text.trimStart_cons, if_neg (by simp [starts])]
    simp [same]

/-- Blanks around what stands before the first `=` and around what stands behind it. -/
theorem opening?_equals_eq_none_iff {lead b b' tail : List Char} (first : '=' ∉ key)
    (value : List Char) (blankLead : Blank lead) (blank : Blank b) (blank' : Blank b')
    (blankTail : Blank tail) :
    opening? ((lead ++ (key ++ b)) ++ '=' :: (b' ++ (value ++ tail))) = none ↔
      opening? (key ++ '=' :: value) = none := by
  have apart : '=' ∉ lead ++ (key ++ b) := by
    simp [first, notMem_of_blank blankLead, notMem_of_blank blank]
  rw [← not_iff_not]
  rw [← ne_eq, ← ne_eq, opening?_equals_ne_none_iff apart, opening?_equals_ne_none_iff first,
    blankLead.trim_append, blank.append_trim, exists_bracket_iff blank' blankTail]

theorem replaces_before (blank : Blank b) (one : tokens p = [t]) : Replaces p (b ++ p) where
  token := ⟨_, tokens_blank_append blank one⟩
  ends ends := by
    have whole := (sealed_plain (plain_of_blank blank)).append (sealed_of_tokens one ends)
    exact whole.ends
  opening := by
    rw [opening?, opening?, blank.trimStart_append]
  pairs ps := by
    rw [pairsOfTokens, pairsOfTokens, one, tokens_blank_append blank one, List.map_singleton,
      List.map_singleton, blank.trim_append]

theorem replaces_behind (blank : Blank b) (one : tokens p = [t]) : Replaces p (p ++ b) where
  token := ⟨_, tokens_append_blank blank one⟩
  ends ends := by
    have whole := (sealed_of_tokens one ends).append (sealed_plain (plain_of_blank blank))
    exact whole.ends
  opening := by
    by_cases equals : '=' ∈ p
    · obtain ⟨key, value, rfl, first⟩ := List.eq_append_cons_of_mem equals
      have none : Blank [] := List.forall_mem_nil _
      have same := opening?_equals_eq_none_iff first value none none none blank
      simpa using same.symm
    · have apart : '=' ∉ p ++ b := by simp [equals, notMem_of_blank blank]
      simp [opening?_eq_none_of_notMem equals, opening?_eq_none_of_notMem apart]
  pairs ps := by
    rw [pairsOfTokens, pairsOfTokens, one, tokens_append_blank blank one, List.map_singleton,
      List.map_singleton, blank.append_trim]

theorem PieceRelaid.replaces (relaid : PieceRelaid p p') (one : tokens p = [t]) :
    Replaces p p' := by
  cases relaid with
  | before spacing => exact replaces_before spacing.blank one
  | behind spacing => exact replaces_behind spacing.blank one
  | @equals key value b b' first spacing spacing' =>
    obtain ⟨u, v, label, text, -⟩ := exists_tokens_of_append_cons (by decide) (by decide) one
    have label' := tokens_append_blank spacing.blank label
    have text' := tokens_blank_append spacing'.blank text
    have apart : '=' ∉ key ++ b := by simp [first, notMem_of_blank spacing.blank]
    refine ⟨⟨_, tokens_append_cons (by decide) (by decide) label' text'⟩, fun ends => ?_, ?_,
      fun ps => ?_⟩
    · rw [endsEscaped_append_cons (by decide)] at ends ⊢
      exact ((sealed_plain (plain_of_blank spacing'.blank)).append
        (sealed_of_tokens text ends)).ends
    · have none : Blank [] := List.forall_mem_nil _
      have same := opening?_equals_eq_none_iff first value none spacing.blank spacing'.blank none
      simpa using same.symm
    · rw [pairsOfTokens_equals_eq_ok_iff label text first,
        pairsOfTokens_equals_eq_ok_iff label' text' apart, spacing.blank.append_trim,
        spacing'.blank.trim_append]
  | @flag key b alone solid spacing =>
    obtain ⟨u, label⟩ := exists_tokens_of_append one
    have text : tokens ("true".toList ++ b) = ["true".toList ++ b] :=
      tokens_append_blank spacing.blank rfl
    have apart : '=' ∉ key ++ b := by simp [alone, notMem_of_blank spacing.blank]
    have some : Text.trim u ≠ [] := fun empty =>
      solid (Text.trim_eq_nil_iff.mpr (blank_of_tokens label (Text.trim_eq_nil_iff.mp empty)))
    refine ⟨⟨_, tokens_append_cons (by decide) (by decide) label text⟩, fun _ => ?_, ?_,
      fun ps => ?_⟩
    · rw [endsEscaped_append_cons (by decide)]
      exact (Sealed.append (sealed_plain (by simp))
        (sealed_plain (plain_of_blank spacing.blank))).ends
    · have closed : opening? (key ++ '=' :: ("true".toList ++ b)) = none := by
        by_contra opens
        obtain ⟨-, body, bracket⟩ := (opening?_equals_ne_none_iff alone).mp opens
        cases bracket
      simp only [opening?_eq_none_of_notMem apart, closed]
    · have value : Text.trim ("true".toList ++ b) = "true".toList := spacing.blank.append_trim _
      rw [pairsOfTokens_alone (tokens_append_blank spacing.blank label) apart,
        spacing.blank.append_trim, if_neg some, pairsOfTokens_equals_eq_ok_iff label text alone,
        value, String.ofList_toList, Except.ok.injEq]
      simp [some, eq_comm]

/-! ## The edits of a line -/

theorem exists_tokens_of_mem_pieces (mem : p ∈ pieces s) : ∃ t, tokens p = [t] := by
  induction s using commaInduction with
  | last q t one =>
    rw [pieces_of_tokens one, List.mem_singleton] at mem
    exact ⟨t, mem ▸ one⟩
  | comma q t rest whole ih =>
    rw [whole.pieces, List.mem_cons] at mem
    rcases mem with rfl | later
    · exact ⟨t, whole.tokens⟩
    · exact ih later

theorem blank_append_line (blank : Blank b) (s : List Char) :
    (OpensNoList s ↔ OpensNoList (b ++ s)) ∧
      ∀ ps, pairsOfTokens s = .ok ps ↔ pairsOfTokens (b ++ s) = .ok ps := by
  obtain ⟨p, back, cut⟩ := List.exists_cons_of_ne_nil (pieces_ne_nil s)
  obtain ⟨t, one⟩ := exists_tokens_of_mem_pieces (p := p) (s := s) (by simp [cut])
  have line : List.intercalate [','] ((b ++ p) :: back) = b ++ s := by
    have padded := intercalate_modifyHead b (pieces_ne_nil s)
    rwa [intercalate_pieces, cut] at padded
  have first : pieces s = [] ++ p :: back := cut
  have same := (replaces_before blank one).line first
  rwa [List.nil_append, line] at same

theorem append_blank_line (blank : Blank b) (s : List Char) :
    (OpensNoList s ↔ OpensNoList (s ++ b)) ∧
      ∀ ps, pairsOfTokens s = .ok ps ↔ pairsOfTokens (s ++ b) = .ok ps := by
  obtain ⟨front, p, cut⟩ := (List.eq_nil_or_concat (pieces s)).resolve_left (pieces_ne_nil s)
  rw [List.concat_eq_append] at cut
  obtain ⟨t, one⟩ := exists_tokens_of_mem_pieces (p := p) (s := s) (by simp [cut])
  have same := (replaces_behind blank one).line cut
  rwa [Text.intercalate_concat_append, ← cut, intercalate_pieces] at same

theorem OpensNoList.pairs_trim_eq_ok_iff (plain : OpensNoList s) :
    pairs (Text.trim s) = .ok ps ↔ pairsOfTokens s = .ok ps := by
  obtain ⟨lead, tail, whole, blankLead, blankTail⟩ := Text.exists_eq_append_trim s
  obtain ⟨plainStop, pairsStop⟩ := append_blank_line blankTail (Text.trim s)
  obtain ⟨plainStart, pairsStart⟩ := blank_append_line blankLead (Text.trim s ++ tail)
  rw [← whole] at plainStart pairsStart
  rw [Line.pairs, (plainStop.mpr (plainStart.mpr plain)).expand, ← pairsStart, ← pairsStop]
  rfl

/-- What a line declares does not depend on its layout. -/
theorem LineRelaid.ofChars_eq_ok_iff {entry : Entry} (relaid : LineRelaid s s') :
    Entry.ofChars (Text.trim s) = .ok entry ↔ Entry.ofChars (Text.trim s') = .ok entry := by
  cases relaid with
  | start spacing => rw [spacing.blank.trim_append]
  | stop spacing => rw [spacing.blank.append_trim]
  | @piece _ _ p p' front back plain cut relaid whole =>
    subst whole
    obtain ⟨t, one⟩ := exists_tokens_of_mem_pieces (p := p) (s := s) (by simp [cut])
    obtain ⟨plain', same⟩ := (relaid.replaces one).line cut
    rw [Entry.ofChars, Entry.ofChars, bind_eq_ok_iff, bind_eq_ok_iff]
    simp only [plain.pairs_trim_eq_ok_iff, (plain'.mp plain).pairs_trim_eq_ok_iff, same]

theorem LineRelaid.blank (relaid : LineRelaid s s') (blank : Blank s) : Blank s' := by
  cases relaid with
  | start spacing => exact List.forall_mem_append.mpr ⟨spacing.blank, blank⟩
  | stop spacing => exact List.forall_mem_append.mpr ⟨blank, spacing.blank⟩
  | @piece _ _ p p' front back plain cut relaid whole =>
    subst whole
    have alone := pieces_of_tokens (sealed_plain (plain_of_blank blank)).tokens
    rw [cut, List.append_eq_singleton_iff] at alone
    rcases alone with ⟨rfl, one⟩ | ⟨-, none⟩
    · obtain ⟨rfl, rfl⟩ := List.cons.inj one
      rw [List.nil_append, List.intercalate_singleton]
      cases relaid with
      | before spacing => exact List.forall_mem_append.mpr ⟨spacing.blank, blank⟩
      | behind spacing => exact List.forall_mem_append.mpr ⟨blank, spacing.blank⟩
      | equals first => exact absurd (by simp) (notMem_of_blank blank)
      | flag alone solid =>
        exact absurd (Text.trim_eq_nil_iff.mpr (List.forall_mem_append.mp blank).1) solid
    · cases none

theorem PieceRelaid.oneLine (relaid : PieceRelaid p p') (one : OneLine p) : OneLine p' := by
  cases relaid with
  | before spacing => exact spacing.oneLine.append one
  | behind spacing => exact one.append spacing.oneLine
  | @equals key value b b' _ spacing spacing' =>
    have parts : OneLine key ∧ OneLine value := by
      simpa [OneLine] using one
    have around := parts.1.append (spacing.oneLine.append (spacing'.oneLine.append parts.2))
    simpa [OneLine] using around
  | @flag key b _ _ spacing =>
    have word : OneLine "=true".toList := by decide
    have parts : OneLine key ∧ OneLine b := by
      simpa [OneLine] using one
    exact parts.1.append (word.append spacing.oneLine)

theorem LineRelaid.oneLine (relaid : LineRelaid s s') (one : OneLine s) : OneLine s' := by
  cases relaid with
  | start spacing => exact spacing.oneLine.append one
  | stop spacing => exact one.append spacing.oneLine
  | @piece _ _ p p' front back plain cut relaid whole =>
    subst whole
    have onePiece : ∀ q ∈ pieces s, OneLine q := fun q mem =>
      one.of_subset (intercalate_pieces s ▸ Text.isInfix_intercalate mem).subset
    rw [cut, List.forall_mem_append, List.forall_mem_cons] at onePiece
    obtain ⟨oneFront, here, oneBack⟩ := onePiece
    refine Text.oneLine_intercalate (by decide) ?_
    rw [List.forall_mem_append, List.forall_mem_cons]
    exact ⟨oneFront, relaid.oneLine here, oneBack⟩

end Line

end ShapeLines
