import ShapeLines.Fullname.Basic

/-!
# Plain fullnames

A plain fullname is written from segments whose names hold no dot and no bracket, and of which only
the first may be a bare `[]`. Its segments are read back as they were written.
-/

namespace ShapeLines

namespace Fullname

/-- The text holds no dot and no bracket. -/
def isUnmarked (name : String) : Bool :=
  name.toList.all fun c => c != '.' && c != '[' && c != ']'

end Fullname

def Segment.text (s : Segment) : String :=
  if s.isArray then s.name ++ "[]" else s.name

/-- Segments that a fullname can be written from. -/
structure Segment.Plain (segments : List Segment) : Prop where
  unmarked : ∀ s ∈ segments, Fullname.isUnmarked s.name = true
  hop : ∀ s ∈ segments, s.name = "" → s.isArray = true
  /-- Only the first segment can be a bare `[]`. -/
  named : ∀ s ∈ segments.tail, s.name ≠ ""

instance (segments : List Segment) : Decidable (Segment.Plain segments) :=
  decidable_of_iff
    ((∀ s ∈ segments, Fullname.isUnmarked s.name = true) ∧
      (∀ s ∈ segments, s.name = "" → s.isArray = true) ∧ ∀ s ∈ segments.tail, s.name ≠ "")
    ⟨fun h => ⟨h.1, h.2.1, h.2.2⟩, fun h => ⟨h.unmarked, h.hop, h.named⟩⟩

namespace Fullname

/-- The fullname that is written from the given segments. -/
def ofSegments (segments : List Segment) : String :=
  ".".intercalate (segments.map Segment.text)

def IsPlain (fullname : String) : Prop :=
  ∃ segments, segments ≠ [] ∧ Segment.Plain segments ∧ fullname = ofSegments segments

theorem isUnmarked_iff {name : String} :
    isUnmarked name = true ↔ '.' ∉ name.toList ∧ '[' ∉ name.toList ∧ ']' ∉ name.toList := by
  unfold isUnmarked
  rw [List.all_eq_true]
  constructor
  · intro h
    refine ⟨fun m => ?_, fun m => ?_, fun m => ?_⟩ <;> simpa using h _ m
  · intro h c m
    have dot : c ≠ '.' := fun e => h.1 (e ▸ m)
    have opening : c ≠ '[' := fun e => h.2.1 (e ▸ m)
    have closing : c ≠ ']' := fun e => h.2.2 (e ▸ m)
    simp [dot, opening, closing]

theorem beforeHop?_of_not_mem {s : List Char} (h : '[' ∉ s) : beforeHop? s = none := by
  induction s with
  | nil => rfl
  | cons c s ih =>
    rw [List.mem_cons, not_or] at h
    unfold beforeHop?
    split
    · contradiction
    · next eq => simp [(List.cons.inj eq).1] at h
    · next eq =>
      obtain ⟨rfl, rfl⟩ := List.cons.inj eq
      rw [ih h.2]
      rfl

theorem beforeHop?_append (s : List Char) : beforeHop? (s ++ ['[', ']']) = some s := by
  induction s with
  | nil => rfl
  | cons c s ih =>
    rw [List.cons_append]
    unfold beforeHop?
    split
    · contradiction
    · next eq => simpa using congrArg List.length (List.cons.inj eq).2
    · next eq =>
      obtain ⟨rfl, rfl⟩ := List.cons.inj eq
      rw [ih]
      rfl

theorem eq_append_of_beforeHop? {s name : List Char} (h : beforeHop? s = some name) :
    s = name ++ ['[', ']'] := by
  fun_induction beforeHop? s generalizing name with
  | case1 => contradiction
  | case2 =>
    cases h
    rfl
  | case3 c rest _ ih =>
    obtain ⟨before, found, eq⟩ := Option.map_eq_some_iff.mp h
    rw [← eq, ih found, List.cons_append]

end Fullname

namespace Segment

open Fullname

theorem toList_text (s : Segment) :
    s.text.toList = s.name.toList ++ if s.isArray then ['[', ']'] else [] := by
  unfold text
  split <;> simp_all

theorem ofChars_text {s : Segment} (h : isUnmarked s.name = true) : ofChars s.text.toList = s := by
  have opening := (isUnmarked_iff.mp h).2.1
  obtain ⟨name, isArray⟩ := s
  unfold ofChars
  rw [toList_text]
  cases isArray with
  | false =>
    rw [if_neg Bool.false_ne_true, List.append_nil, beforeHop?_of_not_mem opening]
    simp
  | true =>
    rw [if_pos rfl, beforeHop?_append]
    simp

theorem mem_of_mem_name_ofChars {s : List Char} {c : Char} (mem : c ∈ (ofChars s).name.toList) :
    c ∈ s := by
  unfold ofChars at mem
  split at mem
  · next name found =>
    rw [eq_append_of_beforeHop? found]
    exact List.mem_append_left _ (by simpa using mem)
  · simpa using mem

theorem isArray_ofChars {s : List Char} (ne : s ≠ []) (empty : (ofChars s).name = "") :
    (ofChars s).isArray = true := by
  unfold ofChars at empty ⊢
  split
  · rfl
  · next found =>
    rw [found] at empty
    exact absurd (by simpa using empty) ne

theorem dot_notMem_text {s : Segment} (h : isUnmarked s.name = true) : '.' ∉ s.text.toList := by
  have dot := (isUnmarked_iff.mp h).1
  rw [toList_text, List.mem_append, not_or]
  refine ⟨dot, ?_⟩
  cases s.isArray <;> decide

theorem text_ne_nil {s : Segment} (h : s.name = "" → s.isArray = true) : s.text.toList ≠ [] := by
  rw [toList_text]
  intro nil
  obtain ⟨empty, bare⟩ := List.append_eq_nil_iff.mp nil
  rw [if_pos (h (String.toList_eq_nil_iff.mp empty))] at bare
  contradiction

end Segment

theorem Text.notMem_of_mem_pieces {separator : Char} {s piece : List Char}
    (mem : piece ∈ Text.pieces separator s) : separator ∉ piece := by
  unfold Text.pieces at mem
  rw [List.splitOn_eq_splitOnP] at mem
  induction s generalizing piece with
  | nil =>
    rw [List.splitOnP_nil, List.mem_singleton] at mem
    simp [mem]
  | cons c s ih =>
    rw [List.splitOnP_cons_eq_if_modifyHead] at mem
    split at mem
    · rcases List.mem_cons.mp mem with rfl | mem
      · simp
      · exact ih mem
    · next ne =>
      cases pieces : s.splitOnP (· == separator) with
      | nil => exact absurd pieces (List.splitOnP_ne_nil _ s)
      | cons first rest =>
        rw [pieces, List.modifyHead_cons] at mem
        rcases List.mem_cons.mp mem with rfl | mem
        · have apart : separator ∉ first := ih (by simp [pieces])
          have other : separator ≠ c := fun eq => ne (by simp [eq])
          simp [other, apart]
        · exact ih (by simp [pieces, mem])

theorem Text.words_intercalate {separator : Char} {parts : List (List Char)}
    (apart : ∀ part ∈ parts, part ≠ [] ∧ separator ∉ part) :
    Text.words separator ([separator].intercalate parts) = parts := by
  rcases List.eq_nil_or_concat parts with rfl | ⟨_, _, cons⟩
  · rfl
  · have ne : parts ≠ [] := by simp [cons]
    unfold Text.words Text.pieces
    rw [List.splitOn_intercalate _ (fun part mem => (apart part mem).2) ne]
    exact List.filter_eq_self.mpr fun part mem => by simpa using (apart part mem).1

namespace Fullname

theorem dot_notMem_segments {fullname : String} {s : Segment} (mem : s ∈ segments fullname) :
    '.' ∉ s.name.toList := by
  obtain ⟨word, isWord, rfl⟩ := List.mem_map.mp mem
  intro dot
  exact Text.notMem_of_mem_pieces (List.mem_filter.mp isWord).1
    (Segment.mem_of_mem_name_ofChars dot)

theorem isArray_of_mem_segments {fullname : String} {s : Segment} (mem : s ∈ segments fullname)
    (empty : s.name = "") : s.isArray = true := by
  obtain ⟨word, isWord, rfl⟩ := List.mem_map.mp mem
  exact Segment.isArray_ofChars (by simpa using (List.mem_filter.mp isWord).2) empty

theorem words_ofSegments {segments : List Segment} (plain : Segment.Plain segments) :
    Text.words '.' (ofSegments segments).toList = segments.map fun s => s.text.toList := by
  have written : (ofSegments segments).toList =
      ['.'].intercalate (segments.map fun s => s.text.toList) := by
    rw [ofSegments, String.toList_intercalate, List.map_map]
    rfl
  rw [written]
  apply Text.words_intercalate
  intro piece mem
  obtain ⟨s, hs, rfl⟩ := List.mem_map.mp mem
  exact ⟨Segment.text_ne_nil (plain.hop s hs), Segment.dot_notMem_text (plain.unmarked s hs)⟩

theorem segments_ofSegments {segments : List Segment} (plain : Segment.Plain segments) :
    Fullname.segments (ofSegments segments) = segments := by
  unfold Fullname.segments
  rw [words_ofSegments plain, List.map_map]
  calc
    segments.map (Segment.ofChars ∘ fun s => s.text.toList) = segments.map id :=
      List.map_congr_left fun s hs => Segment.ofChars_text (plain.unmarked s hs)
    _ = segments := List.map_id _

theorem IsPlain.segments {fullname : String} (h : IsPlain fullname) :
    Segment.Plain (Fullname.segments fullname) := by
  obtain ⟨segments, -, plain, rfl⟩ := h
  rwa [segments_ofSegments plain]

theorem IsPlain.segments_ne_nil {fullname : String} (h : IsPlain fullname) :
    Fullname.segments fullname ≠ [] := by
  obtain ⟨segments, ne, plain, rfl⟩ := h
  rwa [segments_ofSegments plain]

theorem IsPlain.ofSegments_segments {fullname : String} (h : IsPlain fullname) :
    ofSegments (Fullname.segments fullname) = fullname := by
  obtain ⟨segments, -, plain, rfl⟩ := h
  rw [segments_ofSegments plain]

theorem isPlain_iff {fullname : String} :
    IsPlain fullname ↔ Fullname.segments fullname ≠ [] ∧
      Segment.Plain (Fullname.segments fullname) ∧
      ofSegments (Fullname.segments fullname) = fullname :=
  ⟨fun h => ⟨h.segments_ne_nil, h.segments, h.ofSegments_segments⟩,
    fun h => ⟨_, h.1, h.2.1, h.2.2.symm⟩⟩

instance (fullname : String) : Decidable (IsPlain fullname) :=
  decidable_of_iff _ isPlain_iff.symm

end Fullname

end ShapeLines
