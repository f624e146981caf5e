import Mathlib.Data.List.Induction
import ShapeLines.Line.Entry
import ShapeLines.Proofs.KeyMap
import ShapeLines.Proofs.Results

/-!
# What a list of pairs declares

Reading pairs one after the other is the same as asking for each key which values it is given: the
last one counts, all of them for a list. `Field.declared` answers in this way, so only the order of
the pairs with one key matters.
-/

namespace ShapeLines

open Entries (valuesAt)

/-- The value that is given to a key last. -/
def Line.lastOf (key : String) (pairs : List Line.Pair) : Option String :=
  (valuesAt key pairs).getLast?

open Line (lastOf)

theorem Line.lastOf_concat (key : String) (pairs : List Line.Pair) (pair : Line.Pair) :
    lastOf key (pairs ++ [pair]) = if pair.1 = key then some pair.2 else lastOf key pairs := by
  rw [lastOf, Entries.valuesAt_append, Entries.valuesAt_cons]
  split
  · simp
  · simp [lastOf]

theorem Entries.valuesAt_concat {α : Type} (key : String) (l : List (String × α))
    (e : String × α) :
    valuesAt key (l ++ [e]) = if e.1 = key then valuesAt key l ++ [e.2] else valuesAt key l := by
  rw [valuesAt_append, valuesAt_cons]
  split <;> simp

namespace Field

/-- A type has to be one of the six, a flag has to be `true` or `false`. -/
def Readable (pair : Line.Pair) : Prop :=
  (pair.1 = "type" → ∃ type, FieldType.ofShortName? pair.2 = some type) ∧
    (pair.1 = "required" → pair.2 = "true" ∨ pair.2 = "false")

/-- The pairs under keys that a field does not read itself. -/
def extrasOf (pairs : List Line.Pair) : List Line.Pair :=
  pairs.filter fun pair => !ownKeys.contains pair.1

def declared (pairs : List Line.Pair) : Field where
  fullname := (lastOf "fullname" pairs).getD ""
  type := ((lastOf "type" pairs).bind FieldType.ofShortName?).getD (.scalar .string)
  format := lastOf "format" pairs
  required := lastOf "required" pairs == some "true"
  enumValues := valuesAt "enum" pairs
  enumNames := valuesAt "enumNames" pairs
  constValues := valuesAt "const" pairs
  defaultText := lastOf "default" pairs
  exampleText := lastOf "example" pairs
  examplesText := lastOf "examples" pairs
  src := (lastOf "src" pairs).getD ""
  dst := (lastOf "dst" pairs).getD ""
  extra := KeyMap.ofList (extrasOf pairs)

theorem extrasOf_concat (pairs : List Line.Pair) (pair : Line.Pair) :
    extrasOf (pairs ++ [pair]) =
      if pair.1 ∈ ownKeys then extrasOf pairs else extrasOf pairs ++ [pair] := by
  rw [extrasOf, List.filter_append]
  split
  · next h => simp [extrasOf, h]
  · next h => simp [extrasOf, h]

theorem extra_concat (m : List Line.Pair) (pair : Line.Pair) :
    KeyMap.ofList (m ++ [pair]) = (KeyMap.ofList m).insert pair.1 pair.2 := by
  apply KeyMap.ext_get?
  intro key
  rw [KeyMap.get?_insert, KeyMap.get?_ofList, KeyMap.get?_ofList, Entries.valuesAt_concat]
  by_cases h : pair.1 = key
  · simp [h]
  · simp [h, Ne.symm h]

theorem declare_declared {pair : Line.Pair} (h : Readable pair) (pairs : List Line.Pair) :
    (declared pairs).declare pair = .ok (declared (pairs ++ [pair])) := by
  obtain ⟨key, value⟩ := pair
  obtain ⟨types, flags⟩ := h
  unfold declare declared
  simp only [Line.lastOf_concat, Entries.valuesAt_concat, extrasOf_concat]
  split
  case h_2 =>
    obtain ⟨type, eq⟩ := types rfl
    simp [typeOf, eq, Except.map, ownKeys]
  case h_4 =>
    rcases flags rfl with eq | eq <;> simp only at eq <;>
      simp [flag, eq, Except.map, ownKeys]
  case h_13 =>
    have other : key ∉ ownKeys := by
      simp_all [ownKeys]
    simp_all [extra_concat]
  all_goals simp [ownKeys]

theorem foldlM_declare {pairs : List Line.Pair} (h : ∀ pair ∈ pairs, Readable pair) :
    pairs.foldlM declare { fullname := "" } = .ok (declared pairs) := by
  induction pairs using List.reverseRecOn with
  | nil => rfl
  | append_singleton pairs pair ih =>
    have front := ih fun p hp => h p (List.mem_append_left _ hp)
    rw [List.foldlM_append, front]
    have step := declare_declared (h pair (by simp)) pairs
    simp only [List.foldlM_cons, List.foldlM_nil, bind, Except.bind, step]
    rfl

theorem readable_of_declare {field after : Field} {pair : Line.Pair}
    (taken : field.declare pair = .ok after) : Readable pair := by
  obtain ⟨key, value⟩ := pair
  constructor
  · rintro rfl
    cases known : FieldType.ofShortName? value with
    | some type => exact ⟨type, rfl⟩
    | none => simp [declare, typeOf, known, Except.map] at taken
  · rintro rfl
    by_cases yes : value = "true"
    · exact .inl yes
    · by_cases no : value = "false"
      · exact .inr no
      · simp [declare, flag, Except.map] at taken

/-- What is taken from pairs is what they declare. -/
theorem foldlM_declare_eq_ok_iff {pairs : List Line.Pair} {f : Field} :
    pairs.foldlM declare { fullname := "" } = .ok f ↔
      (∀ pair ∈ pairs, Readable pair) ∧ f = declared pairs := by
  constructor
  · intro taken
    have readable : ∀ pair ∈ pairs, Readable pair := fun pair mem => by
      obtain ⟨before, after, step⟩ := Results.exists_step_of_foldlM taken pair mem
      exact readable_of_declare step
    rw [foldlM_declare readable] at taken
    exact ⟨readable, (Except.ok.inj taken).symm⟩
  · rintro ⟨readable, rfl⟩
    exact foldlM_declare readable

theorem valuesAt_extrasOf (key : String) (pairs : List Line.Pair) :
    valuesAt key (extrasOf pairs) = if key ∈ ownKeys then [] else valuesAt key pairs := by
  induction pairs with
  | nil => simp [extrasOf]
  | cons p pairs ih =>
    rw [extrasOf, List.filter_cons]
    by_cases hp : p.1 ∈ ownKeys
    · rw [if_neg (by simpa using hp), ← extrasOf, ih, Entries.valuesAt_cons]
      by_cases hk : key ∈ ownKeys
      · simp only [hk, ↓reduceIte]
      · have ne : p.1 ≠ key := fun eq => hk (eq ▸ hp)
        simp only [hk, ne, ↓reduceIte, List.nil_append]
    · rw [if_pos (by simpa using hp), ← extrasOf, Entries.valuesAt_cons, ih, Entries.valuesAt_cons]
      by_cases hk : key ∈ ownKeys
      · have ne : p.1 ≠ key := fun eq => hp (eq ▸ hk)
        simp only [hk, ne, ↓reduceIte, List.nil_append]
      · simp only [hk, ↓reduceIte]

/-- Only what is given to each key counts. -/
theorem declared_congr {pairs pairs' : List Line.Pair}
    (h : ∀ key, valuesAt key pairs = valuesAt key pairs') : declared pairs = declared pairs' := by
  have last : ∀ key, lastOf key pairs = lastOf key pairs' := by
    intro key
    rw [lastOf, lastOf, h]
  have extra : KeyMap.ofList (extrasOf pairs) = KeyMap.ofList (extrasOf pairs') := by
    apply KeyMap.ext_get?
    intro key
    rw [KeyMap.get?_ofList, KeyMap.get?_ofList, valuesAt_extrasOf, valuesAt_extrasOf, h]
  simp only [declared, last, h, extra]

theorem checked_eq_ok_iff {f g : Field} :
    checked f = .ok g ↔ f = g ∧ f.fullname ≠ "" ∧ ¬(f.src = "" ∧ f.dst = "") := by
  unfold checked
  split
  · next empty => simp [empty]
  · next ne =>
    split
    · next unbound => simp [unbound]
    · next bound => simp [ne, bound]

theorem ofPairs_eq_ok_iff {ps : List Line.Pair} {f : Field} : ofPairs ps = .ok f ↔
    f = declared ps ∧ (∀ pair ∈ ps, Readable pair) ∧ f.fullname ≠ "" ∧
      ¬(f.src = "" ∧ f.dst = "") := by
  rw [ofPairs, Results.bind_eq_ok_iff]
  simp only [foldlM_declare_eq_ok_iff, checked_eq_ok_iff]
  constructor
  · rintro ⟨g, ⟨readable, rfl⟩, rfl, valid⟩
    exact ⟨rfl, readable, valid⟩
  · rintro ⟨rfl, readable, valid⟩
    exact ⟨_, ⟨readable, rfl⟩, rfl, valid⟩

end Field

end ShapeLines
