import ShapeLines.Proofs.Line.Expansion
import ShapeLines.Proofs.Line.Room
import ShapeLines.Proofs.Shape.LineCount

/-!
# Keys that are lost

A further key is written as it is, although it is read as a token is read. If the token is another
text, or if the key stands alone and a backslash at its end escapes the comma behind it, the line
has less room than its pairs take, and so it cannot tell all of them. An order in which the key
stands right behind the lists and in front of the fullname shows this.
-/

namespace ShapeLines

open Results
open Line (Pair room endsEscaped Kept lastOf)

namespace Field

/-! ## The room of written pairs -/

/-- What follows a key and its value keeps its room. -/
theorem room_pieceOf_value (key : String) {value : String} (given : value ≠ "true")
    (tail : List Char) :
    room (pieceOf (key, .text value) ++ tail) =
      room key.toList + room tail + 2 * value.length + 1 := by
  have whole : pieceOf (key, .text value) ++ tail =
      key.toList ++ '=' :: (Line.escape value.toList ++ tail) := by
    simp [pieceOf, given]
  rw [whole, Line.room_append_cons (by decide) (by decide), (Line.sealed_escape _).room_append,
    String.length_toList]
  omega

theorem room_pieceOf_le (e : Pair) : room (pieceOf (textPair e)) ≤ 2 * e.size + 1 := by
  obtain ⟨key, value⟩ := e
  have most := (Line.room_spec key.toList).1
  rw [String.length_toList] at most
  by_cases flag : value = "true"
  · simpa [textPair, pieceOf, flag, Pair.size] using most
  · have value := room_pieceOf_value key flag []
    rw [List.append_nil, Line.room_nil] at value
    simp only [textPair, Pair.size, flag, ↓reduceIte]
    omega

/-- A written pair takes its room from the line, and less if its key is not kept. -/
theorem room_pieceOf_append_comma (e : Pair) (rest : List Char) :
    room (pieceOf (textPair e) ++ ',' :: rest) ≤ 2 * e.size + 1 + room rest ∧
      (2 * e.size + 1 + room rest ≤ room (pieceOf (textPair e) ++ ',' :: rest) →
        KeepsKey (textPair e)) := by
  obtain ⟨key, value⟩ := e
  obtain ⟨most, full⟩ := Line.room_spec key.toList
  rw [String.length_toList] at most full
  by_cases flag : value = "true"
  · subst flag
    have parts := Line.room_append_comma key.toList rest
    have piece : pieceOf (textPair (key, "true")) = key.toList := by
      simp [textPair, pieceOf]
    rw [piece]
    simp only [Pair.size, ↓reduceIte]
    refine ⟨by omega, fun all => ⟨full (by omega), fun _ => Bool.eq_false_iff.mpr fun ends => ?_⟩⟩
    have escapes : endsEscaped key.toList = true := ends
    rw [if_pos escapes] at parts
    omega
  · have parts := room_pieceOf_value key flag (',' :: rest)
    rw [Line.room_comma] at parts
    simp only [textPair, Pair.size, flag, ↓reduceIte]
    refine ⟨by omega, fun all => ⟨full (by omega), fun bare => ?_⟩⟩
    exact absurd (Written.text.inj bare) flag

theorem lineOf_cons {p : WrittenPair} {ps : List WrittenPair} (ne : ps ≠ []) :
    lineOf (p :: ps) = pieceOf p ++ ',' :: lineOf ps := by
  rw [lineOf, lineOf, List.map_cons, List.intercalate_cons_of_ne_nil (by simpa using ne),
    List.append_assoc, List.singleton_append]

theorem room_lineOf_le {es : List Pair} (ne : es ≠ []) :
    room (lineOf (es.map textPair)) ≤ (es.map fun e => 2 * e.size + 1).sum := by
  induction es with
  | nil => exact absurd rfl ne
  | cons e es ih =>
    rw [List.map_cons, List.map_cons, List.sum_cons]
    by_cases last : es = []
    · rw [last]
      simpa [lineOf] using room_pieceOf_le e
    · have rest := ih last
      have here := (room_pieceOf_append_comma e (lineOf (es.map textPair))).1
      rw [lineOf_cons (by simpa using last)]
      omega

/-- The first key of a line that has the room of its pairs is kept. -/
theorem keepsKey_of_room {e : Pair} {es : List Pair} (ne : es ≠ [])
    (all : ((e :: es).map fun e => 2 * e.size + 1).sum ≤ room (lineOf ((e :: es).map textPair))) :
    KeepsKey (textPair e) := by
  have rest := room_lineOf_le ne
  rw [List.map_cons, List.map_cons, List.sum_cons, lineOf_cons (by simpa using ne)] at all
  exact (room_pieceOf_append_comma e (lineOf (es.map textPair))).2 (by omega)

/-! ## The pairs behind the own keys -/

theorem lineOf_append {ps qs : List WrittenPair} (ne : ps ≠ []) (ne' : qs ≠ []) :
    lineOf (ps ++ qs) = lineOf ps ++ ',' :: lineOf qs := by
  induction ps with
  | nil => exact absurd rfl ne
  | cons p ps ih =>
    by_cases last : ps = []
    · subst last
      rw [List.singleton_append, lineOf_cons ne']
      simp [lineOf]
    · rw [List.cons_append, lineOf_cons (by simp [last]), ih last, lineOf_cons last,
        List.append_assoc, List.cons_append]

/-- Pairs that read back are read apart from what follows them. -/
theorem exists_pairs_behind {ps qs : List WrittenPair} (reads : ∀ p ∈ ps, ReadsBack p)
    (ne : qs ≠ []) {all : List Pair} (read : Line.pairs (lineOf (ps ++ qs)) = .ok all) :
    ∃ last, Line.pairs (lineOf qs) = .ok last ∧ all = meaning ps ++ last := by
  by_cases empty : ps = []
  · subst empty
    exact ⟨all, read, rfl⟩
  · have expands := Line.Expands.intercalate (fun p mem => (reads p mem).expands) empty
    have splits : Line.Splits (List.intercalate [','] (ps.map fun p =>
        List.intercalate [','] ((expandedPieces p).map (·.1)))) := by
      refine Line.Splits.intercalate fun w mem => ?_
      obtain ⟨p, inPairs, rfl⟩ := List.mem_map.mp mem
      refine Line.Splits.intercalate fun piece inPieces => ?_
      obtain ⟨q, inExpanded, rfl⟩ := List.mem_map.mp inPieces
      exact ((reads p inPairs).denotes q inExpanded).splits
    rw [lineOf_append empty ne] at read
    obtain ⟨first, last, readFirst, readLast, rfl⟩ :=
      (expands.pairs_append_comma splits).mp read
    have own : Line.pairs (lineOf ps) = .ok first := readFirst
    rw [pairs_lineOf reads empty] at own
    exact ⟨last, readLast, by rw [Except.ok.inj own]⟩

theorem mem_of_mem_meaning {ps : List WrittenPair} {pair : Pair} (mem : pair ∈ meaning ps) :
    ∃ p ∈ ps, p.1 = pair.1 := by
  obtain ⟨p, inPairs, inValues⟩ := List.mem_flatMap.mp mem
  obtain ⟨v, -, rfl⟩ := List.mem_map.mp inValues
  exact ⟨p, inPairs, rfl⟩

/-- An order that puts `key` behind all keys that a field reads itself, save for the fullname, and
in front of everything else. -/
def exposing (key : String) : KeyOrder :=
  ⟨ownKeys.tail ++ [key]⟩

/-- The pairs that are neither written under a key of the field's own nor in a list. -/
def furtherPairs (f : Field) : List Pair :=
  ("fullname", f.fullname) :: f.extra.entries

theorem Stored.nodup_furtherPairs {f : Field} {h : Header} (s : f.Stored h) :
    f.furtherPairs.Nodup := by
  refine List.nodup_cons.mpr ⟨fun inExtra => ?_, f.extra.ascending.nodup⟩
  exact (s.extraKeys _ inExtra).2 (show "fullname" ∈ ownKeys by decide)

theorem Stored.furtherPairs_not_own {f : Field} {h : Header} (s : f.Stored h) :
    ∀ e ∈ f.furtherPairs, e.1 ∉ ownKeys.tail := by
  refine List.forall_mem_cons.mpr
    ⟨show "fullname" ∉ ownKeys.tail by decide, fun e inExtra inOwn => ?_⟩
  exact (s.extraKeys e inExtra).2 (List.mem_of_mem_tail inOwn)

theorem Stored.eq_of_furtherPairs {f : Field} {h : Header} (s : f.Stored h) {e e' : Pair}
    (mem : e ∈ f.extra.entries) (mem' : e' ∈ f.furtherPairs) (same : e'.1 = e.1) : e' = e := by
  rcases List.mem_cons.mp mem' with rfl | inExtra
  · exact absurd (List.mem_cons_self ..) (same ▸ (s.extraKeys e mem).2)
  · have found := f.extra.ascending.get?_of_mem mem
    have found' := f.extra.ascending.get?_of_mem inExtra
    rw [same, found, Option.some.injEq] at found'
    exact Prod.ext same found'.symm

/-- What is a rearrangement of images is the image of a rearrangement. -/
theorem exists_perm_of_perm_map {α β : Type} {f : α → β} {l : List α} {l' : List β}
    (perm : l'.Perm (l.map f)) : ∃ l'' : List α, l''.Perm l ∧ l' = l''.map f := by
  have image : List.Forall₂ (fun b a => b = f a) (l.map f) l := by simp
  obtain ⟨l'', images, same⟩ := List.perm_comp_forall₂ perm image
  exact ⟨l'', same, List.forall₂_eq_eq_eq ▸ List.forall₂_map_right_iff.mpr images⟩

/-- Whether a pair is written under one of the keys that an exposing order puts in front. -/
def isOwn (p : WrittenPair) : Bool :=
  decide (p.1 ∈ ownKeys.tail)

/-- In every order the pairs that are not own ones are the further pairs. -/
theorem Stored.exists_further {f : Field} {h : Header} (s : f.Stored h) (order : KeyOrder) :
    ∃ es : List Pair, es.Perm f.furtherPairs ∧
      (f.orderedPairs order h).filter (fun p => !isOwn p) = es.map textPair := by
  have written : (f.writtenPairs h).filter (fun p => !isOwn p) = f.furtherPairs.map textPair :=
    filter_writtenPairs h (fun key => !decide (key ∈ ownKeys.tail)) (by decide) (by decide)
      fun d inExtra => by simpa using s.furtherPairs_not_own d (List.mem_cons_of_mem _ inExtra)
  have sorted : (f.orderedPairs order h).Perm (f.writtenPairs h) := List.mergeSort_perm ..
  exact exists_perm_of_perm_map (written ▸ sorted.filter fun p => !isOwn p)

/-- In an order that exposes a key its pair is the first of the further ones. -/
theorem Stored.exists_further_exposing {f : Field} {h : Header} (s : f.Stored h) {e : Pair}
    (mem : e ∈ f.extra.entries) : ∃ es, (e :: es).Perm f.furtherPairs ∧
      (f.orderedPairs (exposing e.1) h).filter (fun p => !isOwn p) = (e :: es).map textPair := by
  obtain ⟨es, same, further⟩ := s.exists_further (exposing e.1)
  have parted := congrArg (List.filter fun p => !isOwn p)
    (KeyOrder.mergeSort_eq_append
      (show (exposing e.1).keys <+: (exposing e.1).keys from List.prefix_rfl)
      (rfl : f.orderedPairs (exposing e.1) h = _))
  rw [List.filter_append, List.filter_filter, further] at parted
  -- the pairs up to the exposed key come first, and of these only that of the key is no own one
  have exposed : textPair e ∈ (f.orderedPairs (exposing e.1) h).filter fun p =>
      !isOwn p && decide (p.1 ∈ (exposing e.1).keys) := by
    have inFurther : textPair e ∈ es.map textPair :=
      List.mem_map_of_mem (same.mem_iff.mpr (List.mem_cons_of_mem _ mem))
    obtain ⟨inPairs, other⟩ := List.mem_filter.mp (further ▸ inFurther)
    exact List.mem_filter.mpr
      ⟨inPairs, Bool.and_eq_true_iff.mpr ⟨other, by simp [exposing, textPair]⟩⟩
  obtain ⟨p, ps, firsts⟩ := List.exists_cons_of_ne_nil (List.ne_nil_of_mem exposed)
  have first : p.1 = e.1 := by
    have inFirsts := List.mem_filter.mp (firsts ▸ List.mem_cons_self (a := p) (l := ps))
    simp only [isOwn, exposing, Bool.and_eq_true, Bool.not_eq_true', decide_eq_false_iff_not,
      decide_eq_true_eq, List.mem_append, List.mem_singleton] at inFirsts
    exact inFirsts.2.2.resolve_left inFirsts.2.1
  rw [firsts] at parted
  obtain ⟨e', es', rfl, head, -⟩ := List.map_eq_cons_iff.mp parted
  have here : e' = e := s.eq_of_furtherPairs mem (same.mem_iff.mp (List.mem_cons_self ..))
    ((congrArg Prod.fst head).trans first)
  exact ⟨es', here ▸ same, here ▸ further⟩

/-- In such an order a further pair stands first behind the own ones, and others follow it. -/
theorem Stored.orderedPairs_exposing {f : Field} {h : Header} (s : f.Stored h) {e : Pair}
    (mem : e ∈ f.extra.entries) : ∃ front es,
      f.orderedPairs (exposing e.1) h = front ++ (e :: es).map textPair ∧
      (∀ p ∈ front, p ∈ f.writtenPairs h ∧ p.1 ∈ ownKeys.tail) ∧ es ≠ [] ∧
      (e :: es).Perm f.furtherPairs := by
  obtain ⟨es, same, further⟩ := s.exists_further_exposing mem
  refine ⟨(f.orderedPairs (exposing e.1) h).filter isOwn, es, ?_, ?_, ?_, same⟩
  · rw [← further]
    exact KeyOrder.mergeSort_eq_append
      (show ownKeys.tail <+: (exposing e.1).keys from List.prefix_append _ _) rfl
  · intro p inFront
    obtain ⟨inPairs, own⟩ := List.mem_filter.mp inFront
    exact ⟨(mem_orderedPairs_iff _).mp inPairs, of_decide_eq_true own⟩
  · rintro rfl
    have length := same.length_eq
    have some := List.length_pos_of_mem mem
    simp only [furtherPairs, List.length_cons, List.length_nil] at length
    omega

theorem furtherPairs_subset {all : List Pair} {f : Field} (ne : f.fullname ≠ "")
    (fullname : (declared all).fullname = f.fullname) (extra : (declared all).extra = f.extra) :
    f.furtherPairs ⊆ all := by
  refine List.cons_subset.mpr ⟨?_, fun e inExtra => ?_⟩
  · have given : (lastOf "fullname" all).getD "" = f.fullname := fullname
    cases last : lastOf "fullname" all with
    | none => exact absurd (by simpa [last] using given.symm) ne
    | some value =>
      rw [last, Option.getD_some] at given
      exact given ▸ Line.mem_of_lastOf last
  · rw [← extra] at inExtra
    have kept : e ∈ extrasOf all := (Entries.mem_update inExtra).resolve_left List.not_mem_nil
    exact (List.mem_filter.mp kept).1

/-- A field keeps a further key if it is read again from the line that exposes the key. -/
theorem Stored.keepsKey {f g : Field} {h : Header} (s : f.Stored h) (keeps : f.KeepsLists)
    {e : Pair} (mem : e ∈ f.extra.entries)
    (read : Line.Entry.ofChars (lineOf (f.orderedPairs (exposing e.1) h)) = .ok (.field g))
    (fullname : g.fullname = f.fullname) (extra : g.extra = f.extra) : KeepsKey (textPair e) := by
  obtain ⟨all, readAll, readField⟩ := Line.exists_pairs_of_field read
  obtain ⟨rfl, -⟩ := ofPairs_eq_ok_iff.mp readField
  obtain ⟨front, es, line, own, ne, same⟩ := s.orderedPairs_exposing mem
  have reads : ∀ p ∈ front, ReadsBack p := fun p inFront => by
    obtain ⟨written, isOwn⟩ := own p inFront
    exact ⟨s.onLine keeps p written,
      keepsKey_of_isKey (isKey_of_mem_ownKeys _ (List.mem_of_mem_tail isOwn)) p.2⟩
  rw [line] at readAll
  obtain ⟨last, readLast, rfl⟩ := exists_pairs_behind reads (by simp) readAll
  -- the line behind the own pairs has to tell all further pairs
  have told : f.furtherPairs ⊆ last := fun pair inFurther => by
    rcases List.mem_append.mp (furtherPairs_subset s.fullname fullname extra inFurther) with
      inFront | inLast
    · obtain ⟨p, inPairs, key⟩ := mem_of_mem_meaning inFront
      exact absurd (key ▸ (own p inPairs).2) (s.furtherPairs_not_own pair inFurther)
    · exact inLast
  have lists : ∀ key ∈ Line.listKeys, key ∈ ownKeys.tail := by decide
  have taken : f.furtherPairs.map Pair.room = f.furtherPairs.map fun e => 2 * e.size + 1 :=
    List.map_congr_left fun pair inFurther => if_neg fun isList =>
      s.furtherPairs_not_own pair inFurther (lists _ isList)
  have most := (Line.tells_of_pairs readLast).sum_room_le
  have least := Line.sum_room_le_of_subset s.nodup_furtherPairs told
  rw [taken, ← (same.map fun e => 2 * e.size + 1).sum_nat] at least
  exact keepsKey_of_room ne (least.trans most)

end Field

namespace Shape

/-- A shape that is read again in every order keeps its further keys. -/
theorem Stored.keepsKeys {s : Shape} (stored : s.Stored) (keeps : ∀ f ∈ s.fields, f.KeepsLists)
    (reread : ∀ order, parse (s.text order) = .ok s) : ∀ f ∈ s.fields, f.KeepsKeys := by
  intro f inFields e mem
  obtain ⟨fields, read, same⟩ := (parse_text_eq_ok_iff stored keeps _).mp
    (reread (Field.exposing e.1))
  have filled : s.fields = fields.map (·.fillBindings s.header.id) := congrArg Shape.fields same
  rw [filled, List.forall₂_map_left_iff, List.forall₂_same] at read
  obtain ⟨g, inRead, rfl⟩ := List.mem_map.mp (filled ▸ inFields)
  exact (stored.fields _ inFields).keepsKey (keeps _ inFields) mem (read g inRead) rfl rfl

end Shape

end ShapeLines
