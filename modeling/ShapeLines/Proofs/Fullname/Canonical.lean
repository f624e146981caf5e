import Mathlib.Data.List.Infix
import ShapeLines.Proofs.Fullname.Positional
import ShapeLines.Proofs.Text.Joined

/-!
# Canonical fullnames

A canonical fullname consists of parts between dots, each a name with any number of `[]` behind it;
only the first may do without a name. Names may hold brackets and number signs, as long as no `[]`
and no `#` alone is among them. Such a fullname is the place of a way, so it is read back from its
positional path, and read as a positional path it is itself.
-/

namespace ShapeLines.Fullname

/-- A name that a positional path keeps as it is. -/
structure IsName (name : String) : Prop where
  ne : name ≠ ""
  dot : '.' ∉ name.toList
  hop : ¬ ['[', ']'] <:+: name.toList
  selector : name ≠ "#"

instance (name : String) : Decidable (IsName name) :=
  decidable_of_iff (name ≠ "" ∧ '.' ∉ name.toList ∧ ¬ ['[', ']'] <:+: name.toList ∧ name ≠ "#")
    ⟨fun h => ⟨h.1, h.2.1, h.2.2.1, h.2.2.2⟩, fun h => ⟨h.ne, h.dot, h.hop, h.selector⟩⟩

/-- A name and the number of hops behind it. -/
structure Part where
  name : String
  hops : Nat

namespace Part

def text (p : Part) : List Char :=
  p.name.toList ++ (List.replicate p.hops ['[', ']']).flatten

/-- Only at the start there may be hops without a name. -/
def Starts (p : Part) : Prop :=
  IsName p.name ∨ p.name = "" ∧ 0 < p.hops

instance (p : Part) : Decidable p.Starts :=
  inferInstanceAs (Decidable (_ ∨ _))

def way (p : Part) : List Hop :=
  (if p.name = "" then [] else [.property p.name]) ++ List.replicate p.hops .elements

end Part

def IsCanonical (fullname : String) : Prop :=
  ∃ first others, Part.Starts first ∧ (∀ p ∈ others, IsName p.name) ∧
    fullname.toList = ['.'].intercalate ((first :: others).map Part.text)

namespace Part

variable {p first : Part} {others : List Part}

theorem Starts.of_isName (h : IsName p.name) : p.Starts :=
  .inl h

theorem mem_hops_text {c : Char} (n : Nat) (mem : c ∈ (List.replicate n ['[', ']']).flatten) :
    c = '[' ∨ c = ']' := by
  obtain ⟨hop, inHops, inHop⟩ := List.mem_flatten.mp mem
  obtain rfl := (List.mem_replicate.mp inHops).2
  simpa using inHop

theorem Starts.text_ne_nil (starts : p.Starts) : p.text ≠ [] := by
  unfold text
  rcases starts with name | ⟨-, some⟩
  · exact List.append_ne_nil_of_left_ne_nil (by simpa using name.ne) _
  · cases hops : p.hops with
    | zero => omega
    | succ n => simp [List.replicate_succ]

theorem Starts.dot_notMem (starts : p.Starts) : '.' ∉ p.text := by
  rw [text, List.mem_append, not_or]
  constructor
  · rcases starts with name | ⟨empty, -⟩
    · exact name.dot
    · simp [empty]
  · intro mem
    rcases mem_hops_text p.hops mem with eq | eq <;> cases eq

theorem Starts.text_ne_selector (starts : p.Starts) : p.text ≠ ['#'] := by
  intro eq
  cases hops : p.hops with
  | zero =>
    have name : p.name = "#" := String.toList_inj.mp (by simpa [text, hops] using eq)
    rcases starts with isName | ⟨empty, some⟩
    · exact isName.selector name
    · omega
  | succ n =>
    have bracket : '[' ∈ p.text := by simp [text, hops, List.replicate_succ]
    rw [eq] at bracket
    cases List.mem_singleton.mp bracket

/-! ## The way of a canonical fullname -/

theorem toList_place_append_replicate (w : List Hop) (n : Nat) :
    (Way.place (w ++ List.replicate n .elements)).toList =
      (Way.place w).toList ++ (List.replicate n ['[', ']']).flatten := by
  induction n with
  | zero => simp
  | succ n ih =>
    rw [List.replicate_succ', ← List.append_assoc, Way.place_append_singleton, Hop.below,
      Way.toList_element, ih, List.replicate_succ', List.flatten_append]
    simp

theorem toList_place_way (p : Part) : (Way.place p.way).toList = p.text := by
  unfold way text
  rw [toList_place_append_replicate]
  split
  · next empty => rw [empty]; rfl
  · rfl

theorem toList_place_append_way {w : List Hop} (root : Way.place w ≠ "") (name : p.name ≠ "") :
    (Way.place (w ++ p.way)).toList = (Way.place w).toList ++ '.' :: p.text := by
  rw [way, if_neg name, ← List.append_assoc, toList_place_append_replicate,
    Way.place_append_singleton, Hop.below, Way.toList_join, if_neg root, text]
  simp

theorem toList_place_parts (starts : first.Starts) (names : ∀ p ∈ others, IsName p.name) :
    (Way.place ((first :: others).flatMap way)).toList =
      ['.'].intercalate ((first :: others).map text) := by
  induction others using List.reverseRecOn with
  | nil => simpa using toList_place_way first
  | append_singleton others p ih =>
    obtain ⟨front, last⟩ := List.forall_mem_append.mp names
    have before := ih front
    have root : Way.place ((first :: others).flatMap way) ≠ "" := by
      intro empty
      rw [empty, List.map_cons, Text.intercalate_cons] at before
      exact starts.text_ne_nil (List.append_eq_nil_iff.mp before.symm).1
    rw [← List.cons_append, List.flatMap_append, List.flatMap_singleton,
      toList_place_append_way root (last p List.mem_cons_self).ne, before, List.map_append,
      List.map_cons, List.cons_append, Text.intercalate_cons, Text.intercalate_cons]
    simp

theorem way_ne_nil (starts : p.Starts) : p.way ≠ [] := by
  intro nil
  have text := toList_place_way p
  rw [nil] at text
  exact starts.text_ne_nil text.symm

theorem partable_way (starts : p.Starts) : Way.Partable p.way := by
  intro name mem
  rw [way, List.mem_append] at mem
  rcases mem with own | hop
  · split at own
    · cases own
    · next ne =>
      obtain rfl := Hop.property.inj (List.mem_singleton.mp own)
      obtain ⟨empty, dot, hop, selector⟩ := starts.resolve_right fun none => ne none.1
      exact ⟨empty, dot, hop, selector⟩
  · cases (List.mem_replicate.mp hop).2

end Part

variable {fullname : String}

/-- A canonical fullname is the place of a way whose names are parts of a positional path. -/
theorem IsCanonical.exists_way (canonical : IsCanonical fullname) :
    ∃ way, way ≠ [] ∧ Way.Partable way ∧ fullname = Way.place way := by
  obtain ⟨first, others, starts, names, whole⟩ := canonical
  refine ⟨(first :: others).flatMap Part.way, ?_, fun name mem => ?_, ?_⟩
  · rw [List.flatMap_cons]
    exact List.append_ne_nil_of_left_ne_nil (Part.way_ne_nil starts) _
  · obtain ⟨p, inParts, onWay⟩ := List.mem_flatMap.mp mem
    rcases List.mem_cons.mp inParts with rfl | later
    · exact Part.partable_way starts name onWay
    · exact Part.partable_way (.of_isName (names p later)) name onWay
  · exact String.toList_inj.mp (whole.trans (Part.toList_place_parts starts names).symm)

/-! ## Canonical fullnames as positional paths -/

/-- A segment that stays as it is when a fullname is read as a positional path. -/
structure KeptSegment (part : List Char) : Prop where
  ne : part ≠ []
  dot : '.' ∉ part
  selector : part ≠ ['#']

theorem Part.Starts.keptSegment {p : Part} (starts : p.Starts) : KeptSegment p.text :=
  ⟨starts.text_ne_nil, starts.dot_notMem, starts.text_ne_selector⟩

/-- Behind a segment that is not empty, segments that are no selectors are put behind dots. -/
theorem foldl_addPart {done : List Char} {parts : List (List Char)} (ne : done ≠ [])
    (names : ∀ part ∈ parts, part ≠ ['#']) :
    parts.foldl addPart done = done ++ parts.flatMap (['.'] ++ ·) := by
  induction parts generalizing done with
  | nil => simp
  | cons part parts ih =>
    obtain ⟨name, others⟩ := List.forall_mem_cons.mp names
    rw [List.foldl_cons, addPart, if_neg name, if_neg (by simpa using ne),
      ih (by simp) others, List.flatMap_cons]
    simp

/-- Segments that stay as they are are read back as a whole. -/
theorem ofPositionalChars_intercalate {parts : List (List Char)}
    (kept : ∀ part ∈ parts, KeptSegment part) :
    ofPositionalChars (['.'].intercalate parts) = ['.'].intercalate parts := by
  rw [ofPositionalChars,
    Text.words_intercalate fun part mem => ⟨(kept part mem).ne, (kept part mem).dot⟩]
  cases parts with
  | nil => rfl
  | cons first others =>
    obtain ⟨own, behind⟩ := List.forall_mem_cons.mp kept
    rw [List.foldl_cons, addPart, if_neg own.selector, if_pos (by rfl),
      foldl_addPart own.ne fun part mem => (behind part mem).selector, Text.intercalate_cons]

theorem IsCanonical.ofPositional_eq_self (canonical : IsCanonical fullname) :
    ofPositional fullname = fullname := by
  obtain ⟨first, others, starts, names, whole⟩ := canonical
  have kept : ∀ part ∈ (first :: others).map Part.text, KeptSegment part := by
    rw [List.map_cons, List.forall_mem_cons, List.forall_mem_map]
    exact ⟨starts.keptSegment, fun p mem => (Part.Starts.of_isName (names p mem)).keptSegment⟩
  apply String.toList_inj.mp
  rw [ofPositional, String.toList_ofList, whole, ofPositionalChars_intercalate kept]

end ShapeLines.Fullname
