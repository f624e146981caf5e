import ShapeLines.Schema.Flatten
import ShapeLines.Proofs.Schema.Read
import ShapeLines.Proofs.Schema.Taken

/-!
# Which nodes are flattened into fields

Flattening shows a node as a field of its own or passes it over. The fields of a schema are the
shown nodes, each once and under the place of its way. A flag of being required is carried down: an
object gives it to the properties that it lists, an array without keywords hands its own on to its
elements.
-/

namespace ShapeLines.Schema

variable {s t : Schema} {u w : List Hop} {hop : Hop} {required : Bool}

/-- Whether a node is a field of its own. -/
def isShown (required : Bool) : Schema → Bool
  | .scalar _ _ => true
  | .array marks items => items.isNone || !marks.keywords.isEmpty
  | .object marks _ properties => !marks.keywords.isEmpty || required || properties.isEmpty

/-- The flag that a node hands to the node one hop below. -/
def passes (required : Bool) (hop : Hop) : Schema → Bool
  | .object _ names _ => match hop with
    | .property name => names.contains name
    | .elements => false
  | .array marks _ => required && marks.keywords.isEmpty
  | .scalar _ _ => false

/-- The flag that is carried down a way. -/
def carried (required : Bool) : List Hop → Schema → Bool
  | [], _ => required
  | hop :: way, s => (s.at? [hop]).elim false (carried (s.passes required hop) way)

def children : Schema → List (Hop × Schema)
  | .scalar _ _ => []
  | .array _ items => (items.map fun s => (Hop.elements, s)).toList
  | .object _ _ properties => properties.map fun e => (.property e.1, e.2)

theorem propertyFields_eq (place : String) (names : List String)
    (properties : List (String × Schema)) :
    propertyFields place names properties = properties.flatMap fun e =>
      e.2.fields (Fullname.join place e.1) (names.contains e.1) := by
  induction properties with
  | nil => simp [propertyFields]
  | cons e rest ih =>
    obtain ⟨name, s⟩ := e
    rw [propertyFields, ih, List.flatMap_cons]

theorem fields_eq (place : String) (required : Bool) (s : Schema) :
    s.fields place required =
      (if s.isShown required then fieldAt place required s.type s.marks else []) ++
        s.children.flatMap fun e => e.2.fields (e.1.below place) (s.passes required e.1) := by
  cases s with
  | scalar type marks =>
    rw [fields]
    simp [isShown, children, Schema.type, Schema.marks]
  | array marks items =>
    rw [fields]
    cases items with
    | none =>
      rw [arrayFields]
      simp [isShown, children, Schema.type, Schema.marks]
    | some items =>
      rw [arrayFields]
      cases empty : marks.keywords.isEmpty <;>
        simp [isShown, children, Schema.type, Schema.marks, empty, passes, Hop.below]
  | object marks names properties =>
    rw [fields, propertyFields_eq]
    simp only [isShown, children, Schema.type, Schema.marks, List.flatMap_map]
    rfl

theorem mem_children (ordered : Ordered s) : (hop, t) ∈ s.children ↔ s.at? [hop] = some t := by
  cases s with
  | scalar => cases hop <;> simp [children, at?]
  | array marks items =>
    cases hop with
    | property => cases items <;> simp [children, at?]
    | elements => cases items <;> simp [children, at?_elements, eq_comm]
  | object marks names properties =>
    cases hop with
    | elements => simp [children, at?]
    | property name =>
      rw [at?_property, children]
      simp only [List.mem_map, Prod.mk.injEq, Hop.property.injEq]
      constructor
      · rintro ⟨e, mem, rfl, rfl⟩
        rw [ordered.ascending.get?_of_mem mem]
        simp
      · intro found
        obtain ⟨r, there, eq⟩ := Option.bind_eq_some_iff.mp found
        have same : r = t := by simpa using eq
        subst same
        exact ⟨(name, r), Entries.mem_of_get? there, rfl, rfl⟩

theorem children_pairwise (ordered : Ordered s) :
    s.children.Pairwise fun a b => a.1 ≠ b.1 := by
  cases s with
  | scalar => exact List.Pairwise.nil
  | array marks items => cases items <;> simp [children]
  | object marks names properties =>
    rw [children, List.pairwise_map]
    apply List.Pairwise.imp _ ordered.ascending
    intro a b lt eq
    have same : a.1 = b.1 := Hop.property.inj eq
    rw [same] at lt
    exact String.lt_irrefl _ lt

@[simp] theorem carried_nil (required : Bool) (s : Schema) : carried required [] s = required :=
  rfl

theorem carried_cons_of_at? (found : s.at? [hop] = some t) (required : Bool) (w : List Hop) :
    carried required (hop :: w) s = carried (s.passes required hop) w t := by
  rw [carried, found]
  rfl

theorem carried_append (found : s.at? u = some t) (required : Bool) (w : List Hop) :
    carried required (u ++ w) s = carried (carried required u s) w t := by
  induction u generalizing s required with
  | nil =>
    rw [at?_nil] at found
    cases found
    rfl
  | cons hop u ih =>
    rw [at?_cons] at found
    obtain ⟨r, at', found⟩ := Option.bind_eq_some_iff.mp found
    rw [List.cons_append, carried_cons_of_at? at', carried_cons_of_at? at', ih found]

/-- One hop further down, a flag is what the node before the hop passes on. -/
theorem exists_carried_concat (found : s.at? (u ++ [hop]) = some t) (required : Bool) :
    ∃ p, s.at? u = some p ∧ p.at? [hop] = some t ∧
      carried required (u ++ [hop]) s = p.passes (carried required u s) hop := by
  rw [at?_append] at found
  obtain ⟨p, at', below⟩ := Option.bind_eq_some_iff.mp found
  refine ⟨p, at', below, ?_⟩
  rw [carried_append at', carried_cons_of_at? below, carried_nil]

theorem carried_property {name : String} (found : s.at? (u ++ [Hop.property name]) = some t)
    (required : Bool) : ∃ p, s.at? u = some p ∧
      carried required (u ++ [Hop.property name]) s = p.label.required.contains name := by
  obtain ⟨p, at', below, passed⟩ := exists_carried_concat found required
  refine ⟨p, at', passed.trans ?_⟩
  cases p with
  | scalar => contradiction
  | array marks items => cases items <;> contradiction
  | object => rfl

/-- Elements have the flag of an array that has no keywords. -/
theorem carried_elements (found : s.at? (u ++ [Hop.elements]) = some t) (required : Bool) :
    ∃ p, s.at? u = some p ∧
      carried required (u ++ [Hop.elements]) s =
        (carried required u s && p.marks.keywords.isEmpty) := by
  obtain ⟨p, at', below, passed⟩ := exists_carried_concat found required
  refine ⟨p, at', passed.trans ?_⟩
  cases p with
  | scalar => contradiction
  | array => rfl
  | object => contradiction

def shownField (way : List Hop) (required : Bool) (s : Schema) : Field :=
  .ofKeywords (Way.place way) s.type (required || s.marks.flag) s.marks.keywords

/-- The fields below a place are the shown nodes below it. -/
theorem mem_fields (ordered : Ordered s) (named : ∀ w t, s.at? w = some t → Way.Named (u ++ w))
    {g : Field} : g ∈ s.fields (Way.place u) required ↔
      ∃ w t, s.at? w = some t ∧ t.isShown (carried required w s) = true ∧ u ++ w ≠ [] ∧
        g = shownField (u ++ w) (carried required w s) t := by
  induction s using hopInduction generalizing u required with
  | step s ih =>
    have own : g ∈ (if s.isShown required then fieldAt (Way.place u) required s.type s.marks
        else []) ↔ s.isShown required = true ∧ u ≠ [] ∧ g = shownField u required s := by
      have namedU : Way.Named u := by simpa using named [] s (at?_nil s)
      unfold fieldAt shownField
      simp only [Way.place_eq_empty_iff namedU]
      cases s.isShown required <;> by_cases nil : u = [] <;> simp [nil]
    have under (hop : Hop) (t : Schema) (found : s.at? [hop] = some t) :
        g ∈ t.fields (hop.below (Way.place u)) (s.passes required hop) ↔
          ∃ w r, t.at? w = some r ∧
            r.isShown (carried required (hop :: w) s) = true ∧ u ++ hop :: w ≠ [] ∧
            g = shownField (u ++ hop :: w) (carried required (hop :: w) s) r := by
      rw [← Way.place_append_singleton, ih hop t found (ordered.at? found)]
      · simp only [carried_cons_of_at? found, List.append_assoc, List.singleton_append]
      · intro w r at'
        have namedW := named (hop :: w) r (by rw [at?_cons, found]; exact at')
        simpa using namedW
    rw [fields_eq, List.mem_append, own, List.mem_flatMap]
    constructor
    · intro h
      rcases h with ⟨shown, ne, eq⟩ | ⟨⟨hop, t⟩, mem, inside⟩
      · exact ⟨[], s, at?_nil s, shown, by simpa using ne, by simpa using eq⟩
      · have found := (mem_children ordered).mp mem
        obtain ⟨w, r, at', rest⟩ := (under hop t found).mp inside
        exact ⟨hop :: w, r, by rw [at?_cons, found]; exact at', rest⟩
    · intro ⟨w, r, at', shown, ne, eq⟩
      cases w with
      | nil =>
        rw [at?_nil] at at'
        cases at'
        exact .inl ⟨shown, by simpa using ne, by simpa using eq⟩
      | cons hop w =>
        rw [at?_cons] at at'
        obtain ⟨t, found, at'⟩ := Option.bind_eq_some_iff.mp at'
        exact .inr ⟨(hop, t), (mem_children ordered).mpr found,
          (under hop t found).mpr ⟨w, r, at', shown, ne, eq⟩⟩

/-- The fields of a schema are its shown nodes, apart from the root. -/
theorem mem_fields_iff (ordered : Ordered s) (named : ∀ w t, s.at? w = some t → Way.Named w)
    {g : Field} : g ∈ s.fields "" false ↔
      ∃ w t, s.at? w = some t ∧ t.isShown (carried false w s) = true ∧ w ≠ [] ∧
        g = shownField w (carried false w s) t := by
  have member : g ∈ s.fields (Way.place []) false ↔ _ := mem_fields (u := []) ordered named
  rwa [Way.place_nil] at member

theorem fullname_shownField (way : List Hop) (required : Bool) (s : Schema) :
    (shownField way required s).fullname = Way.place way :=
  Field.fullname_ofKeywords ..

/-- No two fields of a schema have the same fullname. -/
theorem fields_pairwise (ordered : Ordered s)
    (named : ∀ w t, s.at? w = some t → Way.Named (u ++ w)) (required : Bool) :
    (s.fields (Way.place u) required).Pairwise fun a b => a.fullname ≠ b.fullname := by
  induction s using hopInduction generalizing u required with
  | step s ih =>
    have namedBelow (hop : Hop) (t : Schema) (found : s.at? [hop] = some t) (w : List Hop)
        (r : Schema) (at' : t.at? w = some r) : Way.Named (u ++ [hop] ++ w) := by
      have namedW := named (hop :: w) r (by rw [at?_cons, found]; exact at')
      simpa using namedW
    have fullname (hop : Hop) (t : Schema) (found : s.at? [hop] = some t) (g : Field)
        (mem : g ∈ t.fields (hop.below (Way.place u)) (s.passes required hop)) :
        ∃ w, Way.Named (u ++ [hop] ++ w) ∧ g.fullname = Way.place (u ++ [hop] ++ w) := by
      rw [← Way.place_append_singleton, mem_fields (ordered.at? found)
        (namedBelow hop t found)] at mem
      obtain ⟨w, r, at', -, -, rfl⟩ := mem
      exact ⟨w, namedBelow hop t found w r at', fullname_shownField ..⟩
    rw [fields_eq, List.pairwise_append]
    refine ⟨?_, ?_, ?_⟩
    · unfold fieldAt
      split
      · split <;> simp
      · exact List.Pairwise.nil
    · rw [List.pairwise_flatMap]
      constructor
      · intro ⟨hop, t⟩ mem
        have found := (mem_children ordered).mp mem
        rw [← Way.place_append_singleton]
        exact ih hop t found (ordered.at? found) (namedBelow hop t found) _
      · refine List.Pairwise.imp_of_mem (fun {a b} memA memB ne x memX y memY eq => ?_)
          (children_pairwise ordered)
        obtain ⟨v, namedV, eqX⟩ := fullname a.1 a.2 ((mem_children ordered).mp memA) x memX
        obtain ⟨w, namedW, eqY⟩ := fullname b.1 b.2 ((mem_children ordered).mp memB) y memY
        have ways := Way.place_inj namedV namedW (eqX.symm.trans (eq.trans eqY))
        rw [List.append_assoc, List.append_assoc] at ways
        exact ne (List.cons.inj (List.append_cancel_left ways)).1
    · intro x memX y memY eq
      obtain ⟨⟨hop, t⟩, mem, inside⟩ := List.mem_flatMap.mp memY
      obtain ⟨w, namedW, eqY⟩ := fullname hop t ((mem_children ordered).mp mem) y inside
      have eqX : x.fullname = Way.place u := by
        unfold fieldAt at memX
        split at memX
        · split at memX
          · contradiction
          · rw [List.mem_singleton.mp memX]
            exact Field.fullname_ofKeywords ..
        · contradiction
      have namedU : Way.Named u := by simpa using named [] s (at?_nil s)
      have ways := Way.place_inj namedU namedW (eqX.symm.trans (eq.trans eqY))
      simp at ways

theorem isShown_of_isLeaf (leaf : s.isLeaf = true) : s.isShown required = true := by
  cases s with
  | scalar => rfl
  | array marks items =>
    have nothing : items.isNone = true := leaf
    simp [isShown, nothing]
  | object marks names properties =>
    have nothing : properties.isEmpty = true := leaf
    simp [isShown, nothing]

theorem exists_hop_of_held (held : s.isLeaf = false) : ∃ hop t, s.at? [hop] = some t := by
  cases s with
  | scalar => contradiction
  | array marks items =>
    cases items with
    | none => contradiction
    | some items => exact ⟨.elements, items, at?_singleton_elements marks (some items)⟩
  | object marks names properties =>
    cases properties with
    | nil => contradiction
    | cons e rest =>
      refine ⟨.property e.1, e.2, ?_⟩
      rw [at?_singleton_property, Entries.get?, if_pos rfl]

theorem isLeaf_iff : s.isLeaf = true ↔ ∀ hop, s.at? [hop] = none := by
  constructor
  · intro leaf hop
    exact Draft.at?_cons_of_isLeaf leaf hop []
  · intro none
    by_contra held
    obtain ⟨hop, t, found⟩ := exists_hop_of_held (by simpa using held)
    rw [none] at found
    contradiction

/-- A node that is passed over says nothing of its own. -/
theorem keywords_of_not_shown (hidden : s.isShown required = false) : s.marks.keywords = [] := by
  cases s with
  | scalar => contradiction
  | array marks items => simp_all [isShown, Schema.marks]
  | object marks names properties => simp_all [isShown, Schema.marks]

/-- A node that is passed over with a flag is an array, and hands the flag on. -/
theorem elements_of_not_shown (hidden : s.isShown true = false) :
    ∃ t, s.at? [.elements] = some t := by
  cases s with
  | scalar => contradiction
  | array marks items =>
    cases items with
    | none => contradiction
    | some items => exact ⟨items, at?_singleton_elements marks (some items)⟩
  | object => simp [isShown] at hidden

/-- At or below every node there is a shown one. -/
theorem exists_isShown (s : Schema) (required : Bool) :
    ∃ w t, s.at? w = some t ∧ t.isShown (carried required w s) = true := by
  induction s using hopInduction generalizing required with
  | step s ih =>
    cases leaf : s.isLeaf with
    | true => exact ⟨[], s, at?_nil s, isShown_of_isLeaf leaf⟩
    | false =>
      obtain ⟨hop, t, found⟩ := exists_hop_of_held leaf
      obtain ⟨w, r, at', shown⟩ := ih hop t found (s.passes required hop)
      refine ⟨hop :: w, r, by rw [at?_cons, found]; exact at', ?_⟩
      rw [carried_cons_of_at? found, shown]

end ShapeLines.Schema
