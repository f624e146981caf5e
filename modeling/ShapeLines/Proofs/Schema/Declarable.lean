import ShapeLines.Proofs.Schema.Declared

/-!
# Fields that can be declared

A field without segments says nothing in a draft. Of any other field only the first segment can be a
bare `[]`: a later one would ask for an array where the segment before it has reached an object.
Fields with names without brackets are therefore placed, if they can be declared at all.
-/

namespace ShapeLines

namespace Field

/-- No name in the fullname holds a bracket. -/
def Unbracketed (f : Field) : Prop :=
  ∀ s ∈ f.segments, s.name.toList.contains '[' = false ∧ s.name.toList.contains ']' = false

instance (f : Field) : Decidable f.Unbracketed :=
  inferInstanceAs (Decidable (∀ s ∈ f.segments, _ ∧ _))

def hasSegments (f : Field) : Bool :=
  !f.segments.isEmpty

theorem Unbracketed.unmarked {f : Field} (h : f.Unbracketed) :
    ∀ s ∈ f.segments, Fullname.isUnmarked s.name = true := by
  intro s mem
  obtain ⟨opening, closing⟩ := h s mem
  refine Fullname.isUnmarked_iff.mpr ⟨Fullname.dot_notMem_segments mem, ?_, ?_⟩
  · simpa using opening
  · simpa using closing

end Field

namespace Draft

open Schema

variable {d d' : Draft} {f : Field} {fields : List Field} {w : List Hop} {t : Schema}

/-- Segments as they come from a fullname without brackets in its names. -/
structure Bracketless (segments : List Segment) : Prop where
  unmarked : ∀ s ∈ segments, Fullname.isUnmarked s.name = true
  hop : ∀ s ∈ segments, s.name = "" → s.isArray = true

theorem Bracketless.tail {s : Segment} {tail : List Segment} (h : Bracketless (s :: tail)) :
    Bracketless tail :=
  ⟨fun r mem => h.unmarked r (List.mem_cons_of_mem s mem),
    fun r mem => h.hop r (List.mem_cons_of_mem s mem)⟩

theorem Bracketless.eq_bare {s : Segment} {tail : List Segment} (h : Bracketless (s :: tail))
    (empty : s.name = "") : s = ⟨"", true⟩ := by
  have isArray := h.hop s List.mem_cons_self empty
  cases s
  simp_all

theorem isEmpty_of_bare {tail : List Segment} (bare : ∃ s ∈ tail, s.name = "") :
    tail.isEmpty = false := by
  obtain ⟨s, mem, -⟩ := bare
  cases tail with
  | nil => contradiction
  | cons r tail => rfl

/-- A bare `[]` after the place of an object cannot be followed. -/
theorem walk_of_bare {segments : List Segment} (bracketless : Bracketless segments)
    (bare : ∃ s ∈ segments, s.name = "") (start : w = [] → ∀ s ∈ segments.head?, s.name ≠ "")
    (tracks : d.Tracks) (named : Way.Named w) (found : d.root.at? w = some t)
    (holds : t.kind = .object) : ∃ e, d.walk ⟨w, Way.place w⟩ f segments = .error e := by
  induction segments generalizing d w t with
  | nil => simp at bare
  | cons s tail ih =>
    by_cases ne : s.name = ""
    · have below : w ≠ [] := fun nil => start nil s rfl ne
      have failed : d.ensureKind ⟨w, Way.place w⟩ .array =
          .error (.kindConflict (Way.place w) .object .array) := by
        simp [ensureKind, found, holds, below]
      rw [bracketless.eq_bare ne, walk_cons, descend_bare, failed]
      exact ⟨_, rfl⟩
    · have bareTail : ∃ s ∈ tail, s.name = "" := by simpa [ne] using bare
      have namedHops : Way.Named (w ++ s.hops) := by
        intro name mem
        rcases List.mem_append.mp mem with mem | mem
        · exact named name mem
        · obtain ⟨rfl, -⟩ := Way.mem_hops_property mem
          exact ⟨ne, bracketless.unmarked s List.mem_cons_self⟩
      have below : w ++ s.hops ≠ [] := by simp [Segment.hops, ne]
      -- whatever is left below the segment, the node that it leads to has to be an object
      have goesOn : [Hop.property ""].head? ≠ some .elements := by simp
      rw [walk_cons, isEmpty_of_bare bareTail]
      cases descended : d.descend ⟨w, Way.place w⟩ f s false with
      | error e => exact ⟨e, rfl⟩
      | ok r =>
        obtain ⟨d', spot⟩ := r
        obtain ⟨rfl, tracks', node, at', kind⟩ :=
          descend_of_ok ne tracks namedHops found holds goesOn descended
        show ∃ e, d'.proceed _ f tail = .error e
        rw [proceed, isEmpty_of_bare bareTail]
        exact ih bracketless.tail bareTail (fun nil => absurd nil below) tracks' namedHops at' kind

theorem walk_root_of_bare {segments : List Segment} (sound : d.Sound)
    (bracketless : Bracketless segments)
    (bare : ∃ s ∈ segments.tail, s.name = "") : ∃ e, d.walk .root f segments = .error e := by
  cases segments with
  | nil => simp at bare
  | cons s tail =>
    rw [List.tail_cons] at bare
    by_cases ne : s.name = ""
    · have container : Kind.array ≠ .scalar := by decide
      have namedHop : Way.Named ([] ++ [Hop.elements]) := fun name mem => by simp at mem
      rw [bracketless.eq_bare ne, walk_cons, descend_bare, isEmpty_of_bare bare]
      rcases ensureKind_root sound container with
        ⟨_, -, -, failed⟩ | ⟨-, d', ok, tracks, array, -⟩
      · rw [failed]
        exact ⟨_, rfl⟩
      · have entered := element_eq_reach d' [] .object
        rw [Way.place_nil] at entered
        rw [ok]
        simp only [Except.bind, Spot.root, Bool.false_eq_true, if_false, entered]
        cases reached : d'.reach [] .elements .object with
        | error e => exact ⟨e, rfl⟩
        | ok d'' =>
          obtain ⟨tracks', node, at', kind⟩ :=
            reach_of_ok tracks namedHop (at?_nil d'.root) array reached
          simp only [Except.map, proceed, isEmpty_of_bare bare]
          exact walk_of_bare bracketless.tail bare (by simp) tracks' namedHop at' kind
    · by_cases object : d.root.kind = .object
      · refine walk_of_bare bracketless ?_ ?_ sound.tracks Way.named_nil (at?_nil d.root) object
        · obtain ⟨b, inTail, empty⟩ := bare
          exact ⟨b, List.mem_cons_of_mem s inTail, empty⟩
        · intro _ r first
          cases first
          exact ne
      · have named := Way.named_flatMap_hops bracketless.unmarked
        exact ⟨_, walk_of_not_object sound.tracks ne named.of_append_left object
          (sound.isLeaf_of_not_object object) tail⟩

/-- A field that has been declared is placed. -/
theorem placed_of_declare (sound : d.Sound) (unbracketed : f.Unbracketed)
    (nonempty : f.segments ≠ []) (ok : d.declare f = .ok d') : f.Placed := by
  refine ⟨⟨unbracketed.unmarked, fun s mem => Fullname.isArray_of_mem_segments mem,
    fun s mem empty => ?_⟩, nonempty⟩
  have bracketless : Bracketless f.segments :=
    ⟨unbracketed.unmarked, fun s mem => Fullname.isArray_of_mem_segments mem⟩
  obtain ⟨e, failed⟩ := walk_root_of_bare (f := f) sound bracketless ⟨s, mem, empty⟩
  rw [declare, failed] at ok
  contradiction

/-- Of fields that have been declared, those with segments are placed, and the others may be left
out. -/
theorem ofFields_filter (unbracketed : ∀ f ∈ fields, f.Unbracketed) (ok : ofFields fields = .ok d) :
    (∀ f ∈ fields.filter Field.hasSegments, f.Placed) ∧
      ofFields (fields.filter Field.hasSegments) = .ok d := by
  induction fields using List.reverseRecOn generalizing d with
  | nil => exact ⟨by simp, ok⟩
  | append_singleton fields f ih =>
    rw [ofFields_concat] at ok
    cases before : ofFields fields with
    | error e =>
      rw [before] at ok
      contradiction
    | ok e =>
      rw [before] at ok
      have declared : e.declare f = .ok d := ok
      obtain ⟨placed, same⟩ := ih (fun g mem => unbracketed g (List.mem_append_left _ mem)) before
      rw [List.filter_append]
      cases said : f.hasSegments with
      | false =>
        have nil : f.segments = [] := by simpa [Field.hasSegments] using said
        rw [declare_of_segments_eq_nil nil] at declared
        cases declared
        rw [List.filter_cons_of_neg (by simp [said]), List.filter_nil, List.append_nil]
        exact ⟨placed, same⟩
      | true =>
        have nonempty : f.segments ≠ [] := by simpa [Field.hasSegments] using said
        have placedF := placed_of_declare (declares_ofFields placed same).sound
          (unbracketed f (by simp)) nonempty declared
        rw [List.filter_cons_of_pos said, List.filter_nil]
        refine ⟨fun g mem => ?_, ?_⟩
        · rcases List.mem_append.mp mem with mem | mem
          · exact placed g mem
          · rwa [List.mem_singleton.mp mem]
        · rw [ofFields_concat, same]
          exact declared

end Draft

end ShapeLines
