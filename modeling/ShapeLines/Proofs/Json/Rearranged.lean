import ShapeLines.Json.Basic
import ShapeLines.Proofs.KeyMap

/-!
# Values that differ in the order of required names

Two documents are rearrangements of each other when they are equal but for the order of the texts in
arrays under the key `required`.
-/

namespace ShapeLines

theorem isSome_eq_of_rel {α β : Type} {r : α → β → Prop} {o : Option α} {o' : Option β}
    (h : Option.Rel r o o') : o.isSome = o'.isSome := by
  cases h <;> rfl

theorem rel_of_isSome {α β : Type} {r : α → β → Prop} {o : Option α} {o' : Option β}
    (same : o.isSome = o'.isSome) (rel : ∀ a b, o = some a → o' = some b → r a b) :
    Option.Rel r o o' := by
  cases o with
  | none =>
    cases o' with
    | none => exact .none
    | some b => contradiction
  | some a =>
    cases o' with
    | none => contradiction
    | some b => exact .some (rel a b rfl rfl)

theorem rel_map {α β α' β' : Type} {r : α → β → Prop} {r' : α' → β' → Prop} {f : α → α'}
    {g : β → β'} {o : Option α} {o' : Option β} (h : Option.Rel r o o')
    (imp : ∀ a b, r a b → r' (f a) (g b)) : Option.Rel r' (o.map f) (o'.map g) := by
  cases h with
  | none => exact .none
  | some rel => exact .some (imp _ _ rel)

namespace Json

mutual

inductive Rearranged : Json → Json → Prop
  | refl (v : Json) : Rearranged v v
  | obj {members members' : List (String × Json)} :
    RearrangedMembers members members' → Rearranged (.obj members) (.obj members')

/-- The values of one key. -/
inductive RearrangedAt : String → Json → Json → Prop
  | value {key : String} {v v' : Json} : Rearranged v v' → RearrangedAt key v v'
  | required {names names' : List String} : names.Perm names' →
    RearrangedAt "required" (.arr (names.map .str)) (.arr (names'.map .str))

inductive RearrangedMembers : List (String × Json) → List (String × Json) → Prop
  | nil : RearrangedMembers [] []
  | cons {key : String} {v v' : Json} {rest rest' : List (String × Json)} :
    RearrangedAt key v v' → RearrangedMembers rest rest' →
      RearrangedMembers ((key, v) :: rest) ((key, v') :: rest')

end

theorem RearrangedAt.refl (key : String) (v : Json) : RearrangedAt key v v :=
  .value (.refl v)

theorem RearrangedMembers.map_fst {members members' : List (String × Json)}
    (h : RearrangedMembers members members') : members.map Prod.fst = members'.map Prod.fst := by
  induction members generalizing members' with
  | nil =>
    cases h
    rfl
  | cons e rest ih =>
    cases h with
    | cons value tail => rw [List.map_cons, List.map_cons, ih tail]

theorem RearrangedMembers.rel_get? {members members' : List (String × Json)}
    (h : RearrangedMembers members members') (key : String) :
    Option.Rel (RearrangedAt key) (Entries.get? key members) (Entries.get? key members') := by
  induction members generalizing members' with
  | nil =>
    cases h
    exact .none
  | cons e rest ih =>
    cases h with
    | cons value tail =>
      rw [Entries.get?, Entries.get?]
      split
      · next eq =>
        rw [eq]
        exact .some value
      · exact ih tail

end Json

namespace Entries

variable {α : Type}

theorem Ascending.get?_eq_none_of_lt {e : String × α} {rest : List (String × α)}
    (h : Ascending (e :: rest)) {key : String} (lt : key < e.1) : get? key (e :: rest) = none := by
  rw [get?_eq_none_iff]
  intro d mem eq
  rcases List.mem_cons.mp mem with rfl | mem
  · rw [eq] at lt
    exact String.lt_irrefl key lt
  · have below := String.lt_trans lt ((List.pairwise_cons.mp h).1 d mem)
    rw [eq] at below
    exact String.lt_irrefl key below

theorem Ascending.get?_tail {e : String × α} {rest : List (String × α)}
    (h : Ascending (e :: rest)) (key : String) :
    get? key rest = if key = e.1 then none else get? key (e :: rest) := by
  split
  · next eq =>
    rw [get?_eq_none_iff]
    intro d mem same
    have below := (List.pairwise_cons.mp h).1 d mem
    rw [same, eq] at below
    exact String.lt_irrefl _ below
  · next ne => rw [get?, if_neg ne]

/-- Where the same keys are found, two ascending lists begin with the same key. -/
theorem Ascending.head_eq {e e' : String × α} {rest rest' : List (String × α)}
    (h : Ascending (e :: rest)) (h' : Ascending (e' :: rest'))
    (same : ∀ key, (get? key (e :: rest)).isSome = (get? key (e' :: rest')).isSome) :
    e.1 = e'.1 := by
  have here : (get? e.1 (e' :: rest')).isSome = true := by
    rw [← same]
    simp [get?]
  have there : (get? e'.1 (e :: rest)).isSome = true := by
    rw [same]
    simp [get?]
  refine String.le_antisymm (String.not_lt.mp fun lt => ?_) (String.not_lt.mp fun lt => ?_)
  · rw [h.get?_eq_none_of_lt lt] at there
    contradiction
  · rw [h'.get?_eq_none_of_lt lt] at here
    contradiction

end Entries

namespace Json

open Entries

/-- Members in ascending order are rearranged if what is found at each key is. -/
theorem RearrangedMembers.of_get? {members members' : List (String × Json)}
    (h : Ascending members) (h' : Ascending members')
    (found : ∀ key, Option.Rel (RearrangedAt key) (get? key members) (get? key members')) :
    RearrangedMembers members members' := by
  have same (key : String) := isSome_eq_of_rel (found key)
  induction members generalizing members' with
  | nil =>
    cases members' with
    | nil => exact .nil
    | cons e rest =>
      have first := same e.1
      simp [get?] at first
  | cons e rest ih =>
    cases members' with
    | nil =>
      have first := same e.1
      simp [get?] at first
    | cons e' rest' =>
      have key := h.head_eq h' same
      obtain ⟨k, v⟩ := e
      obtain ⟨k', v'⟩ := e'
      dsimp only at key
      subst key
      have values := found k
      rw [get?, get?, if_pos rfl, if_pos rfl] at values
      have tails (key : String) :
          Option.Rel (RearrangedAt key) (get? key rest) (get? key rest') := by
        rw [h.get?_tail, h'.get?_tail]
        split
        · exact .none
        · exact found key
      cases values with
      | some value =>
        exact .cons value (ih h.tail h'.tail tails fun key => isSome_eq_of_rel (tails key))

end Json

end ShapeLines
