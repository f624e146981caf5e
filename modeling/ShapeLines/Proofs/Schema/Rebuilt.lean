import ShapeLines.Proofs.Schema.Alike
import ShapeLines.Proofs.Schema.AttributeRoundTrip
import ShapeLines.Proofs.Schema.Drafted

/-!
# Rebuilding a schema from its fields

The fields that a schema is flattened into need not be those it was made from: a container may have
been passed over, and the flag of an array handed on to its elements. They make an alike schema all
the same. At or below every node there is a shown one, so no node is lost; a node that is passed
over says nothing but its kind, which the fields below it demand; and an object lists the name of a
property exactly if a shown node at it or at its elements has been handed the flag.
-/

namespace ShapeLines.Schema

open Draft (ofFields_of_agree)

variable {fields : List Field} {d d' : Draft} {f g : Field} {id : String} {u w r : List Hop}
  {t t' : Schema}

/-- The fields of a schema, bound as a shape that is read has them. -/
def boundFields (id : String) (s : Schema) : List Field :=
  (s.fields "" false).map (Field.bindInPlace id)

/-- A node whose keywords are written again by the field that is read from them. -/
def Steady (t : Schema) : Prop :=
  ∀ fullname required,
    Entries.ofList (Field.ofKeywords fullname t.type required t.marks.keywords).keywords =
      t.marks.keywords

/-- The field is the one that the node at `w` is flattened into. -/
structure ShownAs (s : Schema) (w : List Hop) (t : Schema) (g : Field) : Prop where
  found : s.at? w = some t
  shown : t.isShown (carried false w s) = true
  fullname : g.fullname = Way.place w
  way : g.way = w
  placed : g.Placed
  type : g.type = t.type
  required : g.required = carried false w s
  keywords : Entries.ofList g.keywords = t.marks.keywords

/-- A schema that its own fields can make again. No array stands directly in an array, the names
that objects list are properties of theirs, and the root says nothing but that it is there. -/
structure Rebuildable (s : Schema) : Prop where
  neat : Neat s
  regular : ∀ w t, s.at? w = some t → Way.Regular w
  unmarked : s.marks.keywords = []
  fresh : s.isLeaf = true → s = bare .object
  nodup : ∀ w t, s.at? w = some t → t.label.required.Nodup
  listed : ∀ w t, s.at? w = some t → ∀ name ∈ t.label.required,
    ∃ r, s.at? (w ++ [.property name]) = some r
  steady : ∀ w t, s.at? w = some t → t.Steady

theorem steady_of_numbersReadBack (drafted : Drafted fields d)
    (numbers : ∀ f ∈ fields, f.NumbersReadBack) (found : d.root.at? w = some t) : t.Steady := by
  intro fullname required
  rcases Draft.ends_or_away fields w with ⟨f, mem, rfl⟩ | away
  · obtain ⟨type, keywords, -⟩ := drafted.node_of_mem mem found
    rw [type, keywords]
    exact Field.keywords_ofKeywords (numbers f mem) fullname required
  · rw [drafted.keywords_of_away found away]
    rfl

theorem placed_of_place (regular : Way.Regular w) (ne : w ≠ []) (eq : g.fullname = Way.place w) :
    g.Placed := by
  have segments : g.segments = Way.segments w := by
    unfold Field.segments
    rw [eq, regular.segments_place]
  refine ⟨by rw [segments]; exact Way.plain_segments regular, fun nil => ne ?_⟩
  rw [← Way.flatMap_hops_segments regular.named, ← segments, nil]
  rfl

/-- What a field demands on its way is of the kinds that are there. -/
theorem ShownAs.demand {s : Schema} (shownAs : ShownAs s w t g) (eq : u ++ r = w) :
    ∃ p, s.at? u = some p ∧ p.kind = g.demand r := by
  have found := shownAs.found
  rw [← eq, at?_append] at found
  obtain ⟨p, at', below⟩ := Option.bind_eq_some_iff.mp found
  refine ⟨p, at', ?_⟩
  cases r with
  | nil =>
    rw [at?_nil] at below
    cases below
    rw [Field.demand, shownAs.type]
    rfl
  | cons hop r => exact kind_of_at? (by rw [below]; rfl)

namespace Rebuildable

section

variable (sound : Rebuildable s)

include sound

/-- Elements that have been handed a flag are shown: they are no array themselves. -/
theorem isShown_elements (found : s.at? (u ++ [Hop.elements]) = some t) :
    t.isShown true = true := by
  by_contra hidden
  obtain ⟨e, elements⟩ := elements_of_not_shown (by simpa using hidden)
  have twice : s.at? (u ++ [Hop.elements] ++ [Hop.elements]) = some e := by
    rw [at?_append, found]
    exact elements
  exact (sound.regular _ _ twice).apart ⟨u, [], by simp⟩

theorem mem_fields_iff : g ∈ s.fields "" false ↔
    ∃ w t, s.at? w = some t ∧ t.isShown (carried false w s) = true ∧ w ≠ [] ∧
      g = shownField w (carried false w s) t :=
  Schema.mem_fields_iff sound.neat.ordered fun w t found => (sound.regular w t found).named

theorem shownAs_shownField (found : s.at? w = some t)
    (shown : t.isShown (carried false w s) = true) (ne : w ≠ []) (id : String) :
    ShownAs s w t (Field.bindInPlace id (shownField w (carried false w s) t)) := by
  have regular := sound.regular w t found
  have fullname : (Field.bindInPlace id (shownField w (carried false w s) t)).fullname =
      Way.place w := fullname_shownField w (carried false w s) t
  refine ⟨found, shown, fullname, Field.way_of_place regular fullname,
    placed_of_place regular ne fullname, ?_, ?_, ?_⟩
  · exact Field.type_ofKeywords ..
  · apply (Field.required_ofKeywords ..).trans
    rw [(sound.neat.tidy w t found).flag, Bool.or_false]
  · exact sound.steady w t found _ _

theorem exists_shownAs (mem : g ∈ boundFields id s) : ∃ w t, ShownAs s w t g := by
  obtain ⟨f, isField, rfl⟩ := List.mem_map.mp mem
  obtain ⟨w, t, found, shown, ne, rfl⟩ := sound.mem_fields_iff.mp isField
  exact ⟨w, t, shownAs_shownField sound found shown ne id⟩

theorem exists_boundField (found : s.at? w = some t)
    (shown : t.isShown (carried false w s) = true) (ne : w ≠ []) :
    ∃ g ∈ boundFields id s, ShownAs s w t g := by
  refine ⟨_, List.mem_map_of_mem (sound.mem_fields_iff.mpr ⟨w, t, found, shown, ne, rfl⟩), ?_⟩
  exact shownAs_shownField sound found shown ne id

theorem placed_of_mem_boundFields (mem : g ∈ boundFields id s) : g.Placed := by
  obtain ⟨w, t, shownAs⟩ := exists_shownAs sound mem
  exact shownAs.placed

theorem nodup_way_boundFields : ((boundFields id s).map Field.way).Nodup := by
  have distinct : (s.fields "" false).Pairwise fun a b => a.fullname ≠ b.fullname :=
    fields_pairwise (u := []) sound.neat.ordered (fun w t found => (sound.regular w t found).named)
      false
  unfold boundFields List.Nodup
  rw [List.pairwise_map, List.pairwise_map]
  refine List.Pairwise.imp_of_mem (fun {a b} memA memB ne eq => ne ?_) distinct
  obtain ⟨v, p, shownA⟩ := exists_shownAs sound (List.mem_map_of_mem memA)
  obtain ⟨w, q, shownB⟩ := exists_shownAs sound (List.mem_map_of_mem memB)
  rw [shownA.way, shownB.way] at eq
  subst eq
  exact shownA.fullname.trans shownB.fullname.symm

theorem ofFields_boundFields (id : String) :
    ∃ d', Draft.ofFields (boundFields id s) = .ok d' := by
  refine ofFields_of_agree (fun g mem => placed_of_mem_boundFields sound mem)
    (fun u => (s.at? u).elim .object Schema.kind) fun g mem u r eq => ?_
  obtain ⟨w, t, shownAs⟩ := exists_shownAs sound mem
  obtain ⟨p, at', kind⟩ := shownAs.demand (eq.trans shownAs.way)
  rw [at', Option.elim_some, kind]

theorem drafted_boundFields (ok : Draft.ofFields (boundFields id s) = .ok d') :
    Drafted (boundFields id s) d' :=
  drafted_ofFields (fun _ mem => placed_of_mem_boundFields sound mem)
    (nodup_way_boundFields sound) ok

/-- The flag of a property is shown at the property, or at the elements it is handed on to. -/
theorem exists_required_boundField {name : String}
    (there : s.at? (u ++ [Hop.property name]) = some t)
    (flag : carried false (u ++ [Hop.property name]) s = true) (id : String) :
    ∃ g ∈ boundFields id s, g.required = true ∧ g.EndsBelow u name := by
  cases shown : t.isShown true with
  | true =>
    obtain ⟨g, isField, shownAs⟩ := exists_boundField sound there
      (by rw [flag, shown]) (by simp)
    exact ⟨g, isField, shownAs.required.trans flag, .inl shownAs.way⟩
  | false =>
    obtain ⟨e, elements⟩ := elements_of_not_shown shown
    have at' : s.at? (u ++ [Hop.property name] ++ [Hop.elements]) = some e := by
      rw [at?_append, there]
      exact elements
    have handed : carried false (u ++ [Hop.property name] ++ [Hop.elements]) s = true := by
      obtain ⟨o, array, eq⟩ := carried_elements at' false
      rw [there] at array
      cases array
      rw [eq, flag, keywords_of_not_shown shown]
      rfl
    obtain ⟨g, isField, shownAs⟩ := exists_boundField sound at'
      (by rw [handed, sound.isShown_elements at']) (by simp)
    exact ⟨g, isField, shownAs.required.trans handed, .inr shownAs.way⟩

variable (again : Drafted (boundFields id s) d')

include again

theorem isSome_at?_rebuilt (w : List Hop) :
    (d'.root.at? w).isSome = (s.at? w).isSome := by
  cases w with
  | nil => rw [at?_nil, at?_nil]; rfl
  | cons hop w =>
    rw [Bool.eq_iff_iff, again.declares.isSome_at?_iff (List.cons_ne_nil hop w)]
    constructor
    · intro ⟨g, mem, r, eq⟩
      obtain ⟨v, t, shownAs⟩ := exists_shownAs sound mem
      obtain ⟨p, at', -⟩ := shownAs.demand (eq.trans shownAs.way)
      rw [at']
      rfl
    · intro isSome
      obtain ⟨t, found⟩ := Option.isSome_iff_exists.mp isSome
      obtain ⟨v, q, below, shown⟩ := exists_isShown t (carried false (hop :: w) s)
      have at' : s.at? (hop :: w ++ v) = some q := by rw [at?_append, found]; exact below
      rw [← carried_append found] at shown
      obtain ⟨g, mem, shownAs⟩ := exists_boundField sound at' shown (by simp)
      exact ⟨g, mem, v, shownAs.way.symm⟩

theorem isLeaf_rebuilt : d'.root.isLeaf = s.isLeaf := by
  rw [Bool.eq_iff_iff, isLeaf_iff, isLeaf_iff]
  simp only [← Option.not_isSome_iff_eq_none, isSome_at?_rebuilt sound again]

/-- A node has its type from the field that it is shown as, or from what is below it. -/
theorem type_rebuilt (found : s.at? w = some t) (found' : d'.root.at? w = some t') :
    t'.type = t.type := by
  cases leaf : t.isLeaf with
  | true =>
    cases w with
    | nil =>
      rw [at?_nil] at found found'
      cases found
      cases found'
      have leaf' := isLeaf_rebuilt sound again
      rw [leaf] at leaf'
      rw [sound.fresh leaf, again.declares.sound.fresh leaf']
    | cons hop v =>
      obtain ⟨g, mem, shownAs⟩ := exists_boundField sound found (isShown_of_isLeaf leaf)
        (List.cons_ne_nil hop v)
      rw [← shownAs.way] at found'
      exact (again.node_of_mem mem found').1.trans shownAs.type
  | false =>
    obtain ⟨hop, child, below⟩ := exists_hop_of_held leaf
    have isSome := isSome_at?_rebuilt sound again (w ++ [hop])
    rw [at?_append, at?_append, found, found', Option.bind_some, Option.bind_some, below] at isSome
    exact type_eq_of_holds hop (kind_of_at? isSome) (kind_of_at? (by rw [below]; rfl))

theorem keywords_rebuilt (found : s.at? w = some t) (found' : d'.root.at? w = some t') :
    t'.marks.keywords = t.marks.keywords := by
  rcases Draft.ends_or_away (boundFields id s) w with ⟨g, mem, rfl⟩ | away
  · obtain ⟨v, p, shownAs⟩ := exists_shownAs sound mem
    have same := shownAs.found
    rw [← shownAs.way, found] at same
    cases same
    exact (again.node_of_mem mem found').2.1.trans shownAs.keywords
  · rw [again.keywords_of_away found' away]
    by_cases nil : w = []
    · subst nil
      rw [at?_nil] at found
      cases found
      exact sound.unmarked.symm
    · cases shown : t.isShown (carried false w s) with
      | true =>
        obtain ⟨g, mem, shownAs⟩ := exists_boundField sound found shown nil
        exact absurd shownAs.way (away g mem)
      | false => exact (keywords_of_not_shown shown).symm

theorem required_of_mem_rebuilt {name : String} (found : s.at? u = some t)
    (found' : d'.root.at? u = some t') (mem : name ∈ t'.label.required) :
    name ∈ t.label.required := by
  obtain ⟨g, isField, required, way⟩ := (again.mem_required_iff found').mp mem
  obtain ⟨v, p, shownAs⟩ := exists_shownAs sound isField
  have flag := shownAs.required
  rw [required] at flag
  have at' := shownAs.found
  have flagged {q : Schema} (there : s.at? (u ++ [Hop.property name]) = some q)
      (handed : carried false (u ++ [Hop.property name]) s = true) :
      name ∈ t.label.required := by
    obtain ⟨o, object, lists⟩ := carried_property there false
    rw [found] at object
    cases object
    rw [handed] at lists
    simpa using lists.symm
  rcases way with here | below
  · rw [shownAs.way] at here
    subst here
    exact flagged at' flag.symm
  · rw [shownAs.way] at below
    subst below
    obtain ⟨q, there, handed⟩ := carried_elements at' false
    rw [← flag] at handed
    have both := handed.symm
    rw [Bool.and_eq_true] at both
    exact flagged there both.1

theorem mem_rebuilt_of_required {name : String} (found : s.at? u = some t)
    (found' : d'.root.at? u = some t') (mem : name ∈ t.label.required) :
    name ∈ t'.label.required := by
  rw [again.mem_required_iff found']
  obtain ⟨r, there⟩ := sound.listed u t found name mem
  have flag : carried false (u ++ [Hop.property name]) s = true := by
    obtain ⟨p, at', eq⟩ := carried_property there false
    rw [found] at at'
    cases at'
    rw [eq, List.contains_iff_mem]
    exact mem
  exact exists_required_boundField sound there flag id

theorem alike : Alike s d'.root := fun w =>
  rel_of_isSome (isSome_at?_rebuilt sound again w).symm fun t t' found found' => by
    refine ⟨type_rebuilt sound again found found', ?_, ?_⟩
    · have flag := (sound.neat.tidy w t found).flag
      have flag' := (again.neat.tidy w t' found').flag
      calc
        t'.marks = ⟨t'.marks.flag, t'.marks.keywords⟩ := rfl
        _ = ⟨t.marks.flag, t.marks.keywords⟩ := by
          rw [flag', flag, keywords_rebuilt sound again found found']
    · rw [List.perm_ext_iff_of_nodup (sound.nodup w t found) (again.nodup_required found')]
      intro name
      exact ⟨mem_rebuilt_of_required sound again found found',
        required_of_mem_rebuilt sound again found found'⟩

end

end Rebuildable

/-! ## The schema of a draft -/

section

variable (drafted : Drafted fields d) (steady : ∀ w t, d.root.at? w = some t → t.Steady)

include drafted steady

theorem Drafted.rebuildable : Rebuildable d.root where
  neat := drafted.neat
  regular _ _ found := drafted.regular_of_at? found
  unmarked := drafted.keywords_of_away (at?_nil d.root) drafted.nonempty
  fresh := drafted.declares.sound.fresh
  nodup _ _ found := drafted.nodup_required found
  listed w t found name mem := by
    obtain ⟨f, isField, -, way⟩ := (drafted.mem_required_iff found).mp mem
    refine Option.isSome_iff_exists.mp ((drafted.declares.isSome_at?_iff (by simp)).mpr
      ⟨f, isField, ?_⟩)
    rcases way with here | below
    · exact ⟨[], by rw [List.append_nil, here]⟩
    · rw [below]
      exact List.prefix_append _ _
  steady := steady

theorem ofFields_boundFields (id : String) :
    ∃ d', Draft.ofFields (boundFields id d.root) = .ok d' :=
  (drafted.rebuildable steady).ofFields_boundFields id

theorem drafted_boundFields (ok : Draft.ofFields (boundFields id d.root) = .ok d') :
    Drafted (boundFields id d.root) d' :=
  (drafted.rebuildable steady).drafted_boundFields ok

theorem alike_rebuilt (again : Drafted (boundFields id d.root) d') : Alike d.root d'.root :=
  (drafted.rebuildable steady).alike again

end

end ShapeLines.Schema
