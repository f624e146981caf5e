import Mathlib.Tactic.SplitIfs
import ShapeLines.Proofs.Json.Rearranged
import ShapeLines.Proofs.Schema.Read

/-!
# Schemas that differ in the order of required names

Alike schemas have the same nodes, and each object lists the same names as required, in some order.
Their documents are rearrangements of each other.
-/

namespace ShapeLines.Schema

open Json (RearrangedAt RearrangedMembers)

variable {s s' t t' : Schema} {hop : Hop}

/-- Two nodes that say the same, apart from what is below them. -/
structure SaysSame (t t' : Schema) : Prop where
  type : t'.type = t.type
  marks : t'.marks = t.marks
  required : t.label.required.Perm t'.label.required

def Alike (s s' : Schema) : Prop :=
  ∀ w, Option.Rel SaysSame (s.at? w) (s'.at? w)

theorem Alike.saysSame (alike : Alike s s') : SaysSame s s' := by
  have root := alike []
  rw [at?_nil, at?_nil] at root
  cases root with
  | some same => exact same

theorem Alike.at? (alike : Alike s s') (found : s.at? [hop] = some t)
    (found' : s'.at? [hop] = some t') : Alike t t' := by
  intro w
  have deeper := alike (hop :: w)
  rw [at?_cons s, at?_cons s', found, found'] at deeper
  exact deeper

theorem map_fst_propertyMembers (properties : List (String × Schema)) :
    (propertyMembers properties).map Prod.fst = properties.map Prod.fst := by
  induction properties with
  | nil => rfl
  | cons e rest ih =>
    obtain ⟨name, s⟩ := e
    rw [propertyMembers, List.map_cons, List.map_cons, ih]

theorem ascending_propertyMembers {properties : List (String × Schema)}
    (ascending : Entries.Ascending properties) :
    Entries.Ascending (propertyMembers properties) := by
  have keys : (properties.map Prod.fst).Pairwise (· < ·) := List.pairwise_map.mpr ascending
  rw [← map_fst_propertyMembers] at keys
  exact List.pairwise_map.mp keys

/-- What is written of the nodes one hop below is rearranged. -/
def RearrangedBelow (s s' : Schema) : Prop :=
  ∀ hop, Option.Rel (fun t t' => RearrangedMembers t.members t'.members)
    (s.at? [hop]) (s'.at? [hop])

theorem rearranged_requiredMember? (same : SaysSame s s') :
    Option.Rel (RearrangedAt "required") s.requiredMember? s'.requiredMember? := by
  obtain ⟨type, -, required⟩ := same
  cases s with
  | scalar =>
    cases s' <;> first | contradiction | exact .none
  | array =>
    cases s' <;> first | contradiction | exact .none
  | object marks names properties =>
    cases s' with
    | scalar => contradiction
    | array => contradiction
    | object marks' names' properties' =>
      have perm : names.Perm names' := required
      rw [requiredMember?, requiredMember?, ← perm.isEmpty_eq]
      split
      · exact .none
      · exact .some (.required perm)

theorem rearranged_itemsMember? (type : s'.type = s.type) (below : RearrangedBelow s s') :
    Option.Rel (RearrangedAt "items") s.itemsMember? s'.itemsMember? := by
  cases s with
  | scalar =>
    cases s' <;> first | contradiction | exact .none
  | object =>
    cases s' <;> first | contradiction | exact .none
  | array marks items =>
    cases s' with
    | scalar => contradiction
    | object => contradiction
    | array marks' items' =>
      have elements := below .elements
      rw [at?_singleton_elements, at?_singleton_elements] at elements
      cases elements with
      | none => exact .none
      | some rearranged => exact .some (.value (.obj rearranged))

theorem rearranged_propertyMembers {properties properties' : List (String × Schema)}
    (ascending : Entries.Ascending properties) (ascending' : Entries.Ascending properties')
    (found : ∀ name, Option.Rel (fun t t' => RearrangedMembers t.members t'.members)
      (Entries.get? name properties) (Entries.get? name properties')) :
    RearrangedMembers (propertyMembers properties) (propertyMembers properties') := by
  refine .of_get? (ascending_propertyMembers ascending) (ascending_propertyMembers ascending')
    fun name => ?_
  rw [get?_propertyMembers, get?_propertyMembers]
  exact rel_map (found name) fun _ _ rearranged => .value (.obj rearranged)

theorem rearranged_propertiesMember? (ordered : Ordered s) (ordered' : Ordered s')
    (type : s'.type = s.type) (below : RearrangedBelow s s') :
    Option.Rel (RearrangedAt "properties") s.propertiesMember? s'.propertiesMember? := by
  cases s with
  | scalar =>
    cases s' <;> first | contradiction | exact .none
  | array =>
    cases s' <;> first | contradiction | exact .none
  | object marks names properties =>
    cases s' with
    | scalar => contradiction
    | array => contradiction
    | object marks' names' properties' =>
      have rearranged := rearranged_propertyMembers ordered.ascending ordered'.ascending
        fun name => by
          have found := below (.property name)
          rwa [at?_singleton_property, at?_singleton_property] at found
      have keys : properties.isEmpty = properties'.isEmpty := by
        have same := rearranged.map_fst
        rw [map_fst_propertyMembers, map_fst_propertyMembers] at same
        rw [← List.isEmpty_map, same, List.isEmpty_map]
      rw [propertiesMember?, propertiesMember?, ← keys]
      split
      · exact .none
      · exact .some (.value (.obj rearranged))

/-- Alike schemas are written with rearranged members. -/
theorem rearranged_members (neat : Neat s) (neat' : Neat s') (alike : Alike s s') :
    RearrangedMembers s.members s'.members := by
  induction s using hopInduction generalizing s' with
  | step s ih =>
    have same := alike.saysSame
    have tidy := neat.tidy [] s (at?_nil s)
    have tidy' := neat'.tidy [] s' (at?_nil s')
    have below : RearrangedBelow s s' := fun hop =>
      rel_of_isSome (isSome_eq_of_rel (alike [hop])) fun t t' found found' =>
        ih hop t found (neat.at? found) (neat'.at? found') (alike.at? found found')
    refine .of_get? (ascending_members tidy) (ascending_members tidy') fun key => ?_
    rw [get?_members tidy, get?_members tidy']
    split_ifs with properties items required type
    · subst properties
      exact rearranged_propertiesMember? neat.ordered neat'.ordered same.type below
    · subst items
      exact rearranged_itemsMember? same.type below
    · subst required
      exact rearranged_requiredMember? same
    · rw [same.type]
      exact .some (.refl _ _)
    · rw [same.marks]
      cases Entries.get? key s.marks.keywords with
      | none => exact .none
      | some v => exact .some (.refl _ _)

/-- The documents of alike schemas are rearrangements of each other. -/
theorem rearranged_document (neat : Neat s) (neat' : Neat s') (alike : Alike s s')
    (version : String) : (s.document version).Rearranged (s'.document version) := by
  have members := rearranged_members neat neat' alike
  have ascending := ascending_members (neat.tidy [] s (at?_nil s))
  have ascending' := ascending_members (neat'.tidy [] s' (at?_nil s'))
  refine .obj (.of_get? (ascending.insert _ _) (ascending'.insert _ _) fun key => ?_)
  rw [Entries.get?_insert, Entries.get?_insert]
  split
  · exact .some (.refl _ _)
  · exact members.rel_get? key

end ShapeLines.Schema
