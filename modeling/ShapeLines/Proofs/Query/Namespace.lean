import ShapeLines.Proofs.Fullname.Canonical
import ShapeLines.Query.Text

/-!
# Queries without a name space

The destinations that a shape implies are its fullnames under its id. Taking the id off every
destination gives the fullnames back, so the query is the one that the fields have without any
destination. Field by field the same key is declared with the same source, unless the choice of a
coercion reads the destination.
-/

namespace ShapeLines

variable {f : Field} {id : String} {coercion : Coercion}

/-- The choice does not depend on the destination of the field. -/
def Coercion.IgnoresDestination (c : Coercion) : Prop :=
  ∀ direction field dst, c direction { field with dst } = c direction field

theorem Coercion.ignoresDestination_byFormat : byFormat.IgnoresDestination := fun direction _ _ => by
  cases direction <;> rfl

namespace Field

def undirected (f : Field) : Field :=
  { f with dst := "" }

/-- The field has a canonical fullname and the destination that is implied under `id`. -/
def ImpliedUnder (id : String) (f : Field) : Prop :=
  Fullname.IsCanonical f.fullname ∧ f.dst = impliedBinding id f.fullname

end Field

theorem isTemplate_iff {binding : String} :
    isTemplate binding = true ↔ ∃ rest, binding.toList = '\x7b' :: '\x7b' :: rest := by
  unfold isTemplate
  split
  · next rest chars => simp [chars]
  · next other => simpa using other

/-- What stands under an id is a template only if the id is one. -/
theorem isTemplate_of_append_dot {path : String} (named : id ≠ "")
    (template : isTemplate (id ++ "." ++ path) = true) : isTemplate id = true := by
  obtain ⟨rest, whole⟩ := isTemplate_iff.mp template
  rw [isTemplate_iff]
  cases chars : id.toList with
  | nil => exact absurd (String.toList_eq_nil_iff.mp chars) named
  | cons c front =>
    cases front with
    | nil => simp [chars] at whole
    | cons d front =>
      have start : c = '\x7b' ∧ d = '\x7b' := by
        simp only [String.toList_append, chars, List.cons_append, List.cons.injEq] at whole
        exact ⟨whole.1, whole.2.1⟩
      exact ⟨front, by rw [start.1, start.2]⟩

theorem Coercion.apply_undirected (ignores : coercion.IgnoresDestination) (direction : Direction)
    (f : Field) : coercion.apply direction f.undirected = coercion.apply direction f := by
  rw [apply, apply, Field.undirected, ignores]

namespace Field

theorem ImpliedUnder.keyPath (implied : f.ImpliedUnder id) (named : id ≠ "") :
    f.keyPath (.stripping id) = f.undirected.keyPath {} := by
  obtain ⟨canonical, bound⟩ := implied
  obtain ⟨way, ne, partable, place⟩ := canonical.exists_way
  rw [keyPath_stripping named partable ne place bound]
  exact canonical.ofPositional_eq_self.symm

theorem ImpliedUnder.hasTemplate (implied : f.ImpliedUnder id) (named : id ≠ "")
    (plain : isTemplate id = false) : f.hasTemplate = f.undirected.hasTemplate := by
  obtain ⟨canonical, bound⟩ := implied
  obtain ⟨way, ne, partable, place⟩ := canonical.exists_way
  have under : f.dst = id ++ "." ++ Fullname.toPositional f.fullname := by
    rw [bound, impliedBinding, place]
    simp [named, Way.toPositional_place_ne_empty partable ne]
  have noTemplate : isTemplate f.dst = false := by
    rw [under, ← Bool.not_eq_true]
    intro template
    rw [isTemplate_of_append_dot named template] at plain
    cases plain
  rw [Field.hasTemplate, noTemplate]
  rfl

end Field

namespace KeyTree

theorem addField_stripping (ignores : coercion.IgnoresDestination) (named : id ≠ "")
    (plain : isTemplate id = false) (implied : f.ImpliedUnder id) (direction : Direction)
    (t : KeyTree) :
    addField direction coercion (.stripping id) t f =
      addField direction coercion {} t f.undirected := by
  rw [addField, addField, implied.hasTemplate named plain, implied.keyPath named,
    coercion.apply_undirected ignores]

/-- The id of a shape is taken off its implied destinations as if there were none. -/
theorem text_stripping_implied {direction : Direction} {fields : List Field}
    (ignores : coercion.IgnoresDestination) (named : id ≠ "") (plain : isTemplate id = false)
    (implied : ∀ f ∈ fields, f.ImpliedUnder id) :
    (ofFields direction coercion (.stripping id) fields).text =
      (ofFields direction coercion {} (fields.map Field.undirected)).text := by
  rw [ofFields, ofFields, List.foldl_map]
  refine congrArg text (List.foldl_ext _ _ _ fun t f mem => ?_)
  exact addField_stripping ignores named plain (implied f mem) direction t

/-- Fields under an id with a dot, one of which starts as the id does, with brackets and number signs
in names and with hops that follow each other. -/
def signFields : List Field :=
  [{ fullname := "a[[].#x[][]", format := some "int", src := "s.#.n", dst := "P.a.a[.#.#x.#.#" },
   { fullname := "[][].P.a", src := "t", dst := "P.a.#.#.P.a" },
   { fullname := "P.a", format := some "bool", src := "u", dst := "P.a.P.a" },
   { fullname := "b", src := "\x7b\x7bv\x7d\x7d", dst := "P.a.b" }]

theorem text_stripping_implied_sign : Coercion.byFormat.IgnoresDestination ∧ "P.a" ≠ "" ∧
    isTemplate "P.a" = false ∧ (∀ f ∈ signFields, f.ImpliedUnder "P.a") ∧
    (ofFields .inbound Coercion.byFormat (.stripping "P.a") signFields).text =
      (ofFields .inbound Coercion.byFormat {} (signFields.map Field.undirected)).text := by
  have ignores := Coercion.ignoresDestination_byFormat
  have implied : ∀ f ∈ signFields, f.ImpliedUnder "P.a" := by
    simp only [signFields, List.forall_mem_cons]
    refine ⟨⟨⟨⟨"a[", 1⟩, [⟨"#x", 2⟩], ?_⟩, ?_⟩, ⟨⟨⟨"", 2⟩, [⟨"P", 0⟩, ⟨"a", 0⟩], ?_⟩, ?_⟩,
      ⟨⟨⟨"P", 0⟩, [⟨"a", 0⟩], ?_⟩, ?_⟩, ⟨⟨⟨"b", 0⟩, [], ?_⟩, ?_⟩, List.forall_mem_nil _⟩
    all_goals decide +kernel
  exact ⟨ignores, by decide, by decide, implied,
    text_stripping_implied ignores (by decide) (by decide) implied⟩

end KeyTree

end ShapeLines
