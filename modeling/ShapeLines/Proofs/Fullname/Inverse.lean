import ShapeLines.Proofs.Fullname.Canonical

/-!
# Fullnames and positional paths back and forth

The positional path of any text consists of segments that hold no `[]`, so it is the positional path
of a way, and its fullname leads back to it. The fullname of any positional path consists of segments
that are no `#`, so it is its own fullname. For canonical fullnames the two writings are inverse, and
implied bindings tell these fullnames apart.
-/

namespace ShapeLines

namespace Text

variable {separator : Char} {s word : List Char}

theorem apart_of_mem_words (mem : word ∈ words separator s) : word ≠ [] ∧ separator ∉ word := by
  obtain ⟨inPieces, ne⟩ := List.mem_filter.mp mem
  exact ⟨by simpa using ne, notMem_of_mem_pieces inPieces⟩

theorem isInfix_of_mem_words (mem : word ∈ words separator s) : word <:+: s := by
  have inside : word <:+: [separator].intercalate (pieces separator s) :=
    isInfix_intercalate (List.mem_of_mem_filter mem)
  rwa [pieces, List.intercalate_splitOn] at inside

end Text

namespace Way

/-- The hop that a part of a positional path is read as. -/
def ofPart (p : List Char) : Hop :=
  if p = ['#'] then .elements else .property (String.ofList p)

theorem part_ofPart (p : List Char) : part (ofPart p) = p := by
  unfold ofPart
  split
  · next selector => exact selector.symm
  · exact String.toList_ofList

theorem partable_map_ofPart {parts : List (List Char)}
    (apart : ∀ p ∈ parts, (p ≠ [] ∧ '.' ∉ p) ∧ ¬ ['[', ']'] <:+: p) :
    Partable (parts.map ofPart) := by
  intro name mem
  obtain ⟨p, inParts, isName⟩ := List.mem_map.mp mem
  obtain ⟨⟨ne, dot⟩, noHop⟩ := apart p inParts
  unfold ofPart at isName
  split at isName
  · cases isName
  · next noSelector =>
    obtain rfl := Hop.property.inj isName
    rw [← String.toList_inj.ne, ← String.toList_inj.ne, String.toList_ofList]
    exact ⟨ne, dot, noHop, noSelector⟩

end Way

namespace Fullname

/-- Between the hops apart no `[]` is left. -/
theorem noHop_hopsApart (s : List Char) : ¬ ['[', ']'] <:+: hopsApart s := by
  fun_induction hopsApart s with
  | case1 s ih => simp [List.infix_cons_iff, ih]
  | case2 c s noHop ih =>
    rw [List.infix_cons_iff, not_or]
    refine ⟨fun start => ?_, ih⟩
    obtain ⟨t, whole⟩ := start
    obtain ⟨rfl, closing⟩ := List.cons.inj whole
    cases s with
    | nil => cases closing
    | cons d s =>
      have head : (hopsApart (d :: s)).head? = some ']' := by rw [← closing]; rfl
      rw [hopsApart.eq_def] at head
      split at head
      · cases head
      · next eq =>
        obtain ⟨rfl, -⟩ := List.cons.inj eq
        obtain rfl := Option.some.inj head
        exact noHop s rfl rfl
      · cases head
  | case3 => simp

theorem exists_way_toPositional (s : String) :
    ∃ way, Way.Partable way ∧ toPositional s = toPositional (Way.place way) := by
  let parts := Text.words '.' (hopsApart s.toList)
  have partable : Way.Partable (parts.map Way.ofPart) :=
    Way.partable_map_ofPart fun p mem => ⟨Text.apart_of_mem_words mem, fun hop =>
      noHop_hopsApart s.toList (hop.trans (Text.isInfix_of_mem_words mem))⟩
  have same : (parts.map Way.ofPart).map Way.part = parts := by
    rw [List.map_map]
    exact List.map_id'' Way.part_ofPart parts
  refine ⟨parts.map Way.ofPart, partable, ?_⟩
  rw [toPositional, toPositional, Way.toPositionalChars_place partable, same]
  rfl

theorem KeptSegment.append_hop {part : List Char} (kept : KeptSegment part) :
    KeptSegment (part ++ ['[', ']']) := by
  refine ⟨by simp, by simpa using kept.dot, fun eq => ?_⟩
  have length := congrArg List.length eq
  simp at length

/-- The fullname of a positional path consists of segments that stay as they are. -/
theorem exists_kept_foldl_addPart {words : List (List Char)}
    (apart : ∀ w ∈ words, w ≠ [] ∧ '.' ∉ w) :
    ∃ parts, (∀ part ∈ parts, KeptSegment part) ∧
      words.foldl addPart [] = ['.'].intercalate parts := by
  induction words using List.reverseRecOn with
  | nil => exact ⟨[], by simp, rfl⟩
  | append_singleton words w ih =>
    obtain ⟨before, last⟩ := List.forall_mem_append.mp apart
    obtain ⟨ne, dot⟩ := last w List.mem_cons_self
    obtain ⟨parts, kept, text⟩ := ih before
    rw [List.foldl_append, List.foldl_cons, List.foldl_nil, text, addPart]
    split
    · -- A hop belongs to the last segment, or it is the first one.
      rcases List.eq_nil_or_concat' parts with rfl | ⟨front, part, rfl⟩
      · exact ⟨[['[', ']']], by simpa using ⟨by decide, by decide, by decide⟩, rfl⟩
      · obtain ⟨others, own⟩ := List.forall_mem_append.mp kept
        refine ⟨front ++ [part ++ ['[', ']']], List.forall_mem_append.mpr ⟨others, ?_⟩,
          (Text.intercalate_concat_append ..).symm⟩
        simpa using (own part List.mem_cons_self).append_hop
    · next noSelector =>
      have new : KeptSegment w := ⟨ne, dot, noSelector⟩
      by_cases first : parts = []
      · subst first
        exact ⟨[w], by simpa using new, by simp⟩
      · have some : ['.'].intercalate parts ≠ [] :=
          Text.intercalate_ne_nil (fun part mem => (kept part mem).ne) first
        refine ⟨parts ++ [w], List.forall_mem_append.mpr ⟨kept, by simpa using new⟩, ?_⟩
        rw [if_neg (by simpa using some), Text.intercalate_concat _ first]
        rfl

variable {id f g : String}

theorem impliedBinding_eq_iff :
    impliedBinding id f = impliedBinding id g ↔ toPositional f = toPositional g := by
  have below (path : String) : id ++ "." ++ path ≠ id := by
    intro eq
    have length := congrArg (fun s => s.toList.length) eq
    simp at length
  simp only [impliedBinding]
  by_cases root : id = ""
  · rw [if_pos root, if_pos root]
  · rw [if_neg root, if_neg root]
    by_cases emptyF : toPositional f = "" <;> by_cases emptyG : toPositional g = ""
    · simp [emptyF, emptyG]
    · simp [emptyF, emptyG, (below _).symm]
    · simp [emptyF, emptyG, below]
    · rw [if_neg emptyF, if_neg emptyG, String.append_right_inj]

/-- A canonical fullname is read back from its positional path, so canonical fullnames have different
implied bindings. The positional path of any text is read back from its fullname, and the fullname of
any positional path is its own fullname. -/
theorem ofPositional_toPositional_inverse :
    (∀ f, IsCanonical f → ofPositional (toPositional f) = f) ∧
    (∀ id f g, IsCanonical f → IsCanonical g → f ≠ g →
      impliedBinding id f ≠ impliedBinding id g) ∧
    (∀ s, toPositional (ofPositional (toPositional s)) = toPositional s) ∧
    ∀ s, ofPositional (ofPositional s) = ofPositional s := by
  have inverse : ∀ f, IsCanonical f → ofPositional (toPositional f) = f := by
    intro f canonical
    obtain ⟨way, -, partable, rfl⟩ := canonical.exists_way
    exact Way.ofPositional_toPositional_place partable
  refine ⟨inverse, fun id f g canonicalF canonicalG ne same => ne ?_, fun s => ?_, fun s => ?_⟩
  · rw [← inverse f canonicalF, ← inverse g canonicalG, impliedBinding_eq_iff.mp same]
  · obtain ⟨way, partable, path⟩ := exists_way_toPositional s
    rw [path, Way.ofPositional_toPositional_place partable]
  · have apart : ∀ w ∈ Text.words '.' s.toList, w ≠ [] ∧ '.' ∉ w :=
      fun w mem => Text.apart_of_mem_words mem
    obtain ⟨parts, kept, text⟩ := exists_kept_foldl_addPart apart
    have chars : (ofPositional s).toList = ['.'].intercalate parts := by
      rw [ofPositional, String.toList_ofList, ofPositionalChars, text]
    apply String.toList_inj.mp
    rw [chars, ofPositional, String.toList_ofList, chars, ofPositionalChars_intercalate kept]

theorem ofPositional_toPositional_inverse_brackets :
    (IsCanonical "a[[].#x[][].]" ∧ IsCanonical "a[.[.#x[][].]" ∧
      "a[[].#x[][].]" ≠ "a[.[.#x[][].]") ∧
    ofPositional (toPositional "a[[].#x[][].]") = "a[[].#x[][].]" ∧
    impliedBinding "P" "a[[].#x[][].]" ≠ impliedBinding "P" "a[.[.#x[][].]" ∧
    toPositional (ofPositional (toPositional "..[[]]a[]#.")) = toPositional "..[[]]a[]#." ∧
    ofPositional (ofPositional ".#.#.[]#.a[") = ofPositional ".#.#.[]#.a[" := by
  have nested : IsCanonical "a[[].#x[][].]" :=
    ⟨⟨"a[", 1⟩, [⟨"#x", 2⟩, ⟨"]", 0⟩], by decide +kernel, by decide +kernel, by decide +kernel⟩
  have apart : IsCanonical "a[.[.#x[][].]" :=
    ⟨⟨"a[", 0⟩, [⟨"[", 0⟩, ⟨"#x", 2⟩, ⟨"]", 0⟩], by decide +kernel, by decide +kernel,
      by decide +kernel⟩
  have ne : "a[[].#x[][].]" ≠ "a[.[.#x[][].]" := by decide
  obtain ⟨inverse, distinct, path, fullname⟩ := ofPositional_toPositional_inverse
  exact ⟨⟨nested, apart, ne⟩, inverse _ nested, distinct "P" _ _ nested apart ne, path _, fullname _⟩

end Fullname

end ShapeLines
