import Mathlib.Data.List.Basic
import ShapeLines.Proofs.Schema.Flattened

/-!
# The draft of fields with different ways

What is known of the nodes of a draft and of the flags that are carried down to them, in terms of
the fields that were declared.
-/

namespace ShapeLines.Schema

open Draft (Declares mem_namesAt nodup_namesAt declares_ofFields neat_ofFields)

variable {fields : List Field} {d : Draft} {f g : Field} {u w : List Hop} {t : Schema}

/-- Containers of one kind are of one type. -/
theorem type_eq_of_holds {type type' : FieldType} (hop : Hop) (holds : type.kind = hop.holder)
    (holds' : type'.kind = hop.holder) : type = type' := by
  cases hop <;> cases type <;> cases type' <;> first | rfl | contradiction

/-- A draft that fields with different ways have made. -/
structure Drafted (fields : List Field) (d : Draft) : Prop where
  declares : Declares fields d
  neat : Neat d.root
  distinct : (fields.map Field.way).Nodup
  regular : ∀ f ∈ fields, Way.Regular f.way
  nonempty : ∀ f ∈ fields, f.way ≠ []

theorem drafted_ofFields (placed : ∀ f ∈ fields, f.Placed) (distinct : (fields.map Field.way).Nodup)
    (ok : Draft.ofFields fields = .ok d) : Drafted fields d :=
  ⟨declares_ofFields placed ok, neat_ofFields placed ok, distinct,
    fun f mem => Field.regular_way (placed f mem).plain,
    fun f mem => Field.way_ne_nil (placed f mem).plain (placed f mem).nonempty⟩

namespace Drafted

theorem regular_of_at? (drafted : Drafted fields d) (found : d.root.at? w = some t) :
    Way.Regular w := by
  by_cases nil : w = []
  · subst nil
    exact ⟨Way.named_nil, by simp⟩
  · obtain ⟨f, mem, le⟩ := (drafted.declares.isSome_at?_iff nil).mp (by rw [found]; rfl)
    exact (drafted.regular f mem).of_part le

theorem exists_at? (drafted : Drafted fields d) (mem : f ∈ fields) :
    ∃ t, d.root.at? f.way = some t :=
  Option.isSome_iff_exists.mp
    ((drafted.declares.isSome_at?_iff (drafted.nonempty f mem)).mpr ⟨f, mem, List.prefix_rfl⟩)

theorem keywords_of_away (drafted : Drafted fields d) (found : d.root.at? w = some t)
    (away : ∀ f ∈ fields, f.way ≠ w) : t.marks.keywords = [] := by
  have keywords := (drafted.declares.labelOf found).keywords_of_away away
  rwa [marks_label] at keywords

/-- The node at which a field ends has its type and its keywords. -/
theorem node_of_mem (drafted : Drafted fields d) (mem : f ∈ fields)
    (found : d.root.at? f.way = some t) :
    t.type = f.type ∧ t.marks.keywords = Entries.ofList f.keywords ∧ t.marks.flag = false := by
  have label := drafted.declares.labelOf found
  have type := label.type_of_mem drafted.distinct mem rfl
  have keywords := label.keywords_of_mem drafted.distinct mem rfl
  rw [type_label] at type
  rw [marks_label] at keywords
  exact ⟨type, keywords, (drafted.neat.tidy f.way t found).flag⟩

theorem eq_of_way_eq (drafted : Drafted fields d) (hf : f ∈ fields) (hg : g ∈ fields)
    (eq : f.way = g.way) : f = g := by
  have single := Draft.ending_eq_singleton drafted.distinct hg
  have mem : f ∈ Draft.ending fields g.way := by simp [Draft.ending, hf, eq]
  rw [single] at mem
  exact List.mem_singleton.mp mem

/-- An object lists the properties at which, or at whose elements, a required field ends. -/
theorem mem_required_iff (drafted : Drafted fields d) (found : d.root.at? u = some t)
    {name : String} :
    name ∈ t.label.required ↔ ∃ f ∈ fields, f.required = true ∧ f.EndsBelow u name := by
  rw [(drafted.declares.labelOf found).required, mem_namesAt]

theorem nodup_required (drafted : Drafted fields d) (found : d.root.at? u = some t) :
    t.label.required.Nodup := by
  rw [(drafted.declares.labelOf found).required]
  exact nodup_namesAt fields u

theorem carried_property_iff (drafted : Drafted fields d) {name : String}
    (found : d.root.at? (u ++ [Hop.property name]) = some t) :
    carried false (u ++ [Hop.property name]) d.root = true ↔
      ∃ f ∈ fields, f.required = true ∧ f.EndsBelow u name := by
  obtain ⟨p, at', eq⟩ := carried_property found false
  rw [eq, List.contains_iff_mem, drafted.mem_required_iff at']

/-- A flag that is carried to elements comes from a property without keywords. -/
theorem exists_of_carried_elements (drafted : Drafted fields d)
    (found : d.root.at? (u ++ [Hop.elements]) = some t)
    (flag : carried false (u ++ [Hop.elements]) d.root = true) :
    ∃ p, d.root.at? u = some p ∧ p.marks.keywords = [] ∧
      ∃ f ∈ fields, f.required = true ∧ (f.way = u ∨ f.way = u ++ [Hop.elements]) := by
  obtain ⟨p, at', eq⟩ := carried_elements found false
  rw [eq, Bool.and_eq_true, List.isEmpty_iff] at flag
  obtain ⟨flag, noKeywords⟩ := flag
  rcases List.eq_nil_or_concat' u with rfl | ⟨v, hop, rfl⟩
  · contradiction
  · cases hop with
    | elements =>
      refine absurd ?_ (drafted.regular_of_at? found).apart
      exact ⟨v, [], by simp⟩
    | property name =>
      exact ⟨p, at', noKeywords, (drafted.carried_property_iff at').mp flag⟩

/-- The fields of the draft are its shown nodes. -/
theorem mem_fields_iff (drafted : Drafted fields d) : g ∈ d.root.fields "" false ↔
    ∃ w t, d.root.at? w = some t ∧ t.isShown (carried false w d.root) = true ∧ w ≠ [] ∧
      g = shownField w (carried false w d.root) t :=
  Schema.mem_fields_iff drafted.neat.ordered fun _ _ found => (drafted.regular_of_at? found).named

theorem fields_pairwise (drafted : Drafted fields d) :
    (d.root.fields "" false).Pairwise fun a b => a.fullname ≠ b.fullname :=
  Schema.fields_pairwise (u := []) drafted.neat.ordered
    (fun _ _ found => (drafted.regular_of_at? found).named) false

/-- The kind of a node is demanded by the fields that go through it or end at it. -/
theorem kind_of_at? (drafted : Drafted fields d) (found : d.root.at? w = some t) (mem : f ∈ fields)
    {rest : List Hop} (eq : w ++ rest = f.way) : t.kind = f.demand rest := by
  have kind := (drafted.declares.labelOf found).kind f mem rest eq
  rwa [kind_label] at kind

/-- A field with a place below its elements is an array. -/
theorem type_of_elements (drafted : Drafted fields d) (hf : f ∈ fields) (hg : g ∈ fields)
    (below : f.way ++ [Hop.elements] <+: g.way) : f.type = .array := by
  obtain ⟨t, found⟩ := drafted.exists_at? hf
  obtain ⟨rest, eq⟩ := below
  have own := drafted.kind_of_at? found hf (List.append_nil f.way)
  rw [List.append_assoc] at eq
  have through := drafted.kind_of_at? found hg eq
  exact type_eq_of_holds .elements (own.symm.trans through) rfl

end Drafted

end ShapeLines.Schema
