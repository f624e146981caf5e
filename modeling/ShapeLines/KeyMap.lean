/-!
# Entries in ascending key order

Entries are pairs of a key and a value. `Entries.insert` keeps them in ascending order of their keys
and replaces the value of a key that is already there, so of two writes to one key the last wins.
Keys are compared by code points, which orders them as their UTF-8 bytes do. `KeyMap` is a list of
entries together with the fact that its keys ascend.
-/

namespace ShapeLines

namespace Entries

variable {α : Type}

/-- Every key is below all keys after it. -/
def Ascending (entries : List (String × α)) : Prop :=
  entries.Pairwise fun a b => a.1 < b.1

instance (entries : List (String × α)) : Decidable (Ascending entries) :=
  inferInstanceAs (Decidable (entries.Pairwise fun a b => a.1 < b.1))

def insert (key : String) (value : α) : List (String × α) → List (String × α)
  | [] => [(key, value)]
  | (k, v) :: rest =>
    if key < k then (key, value) :: (k, v) :: rest
    else if key = k then (key, value) :: rest
    else (k, v) :: insert key value rest

def update (entries newer : List (String × α)) : List (String × α) :=
  newer.foldl (fun acc entry => insert entry.1 entry.2 acc) entries

/-- Changes the value at `key`, if there is one. -/
def adjust (key : String) (f : α → α) : List (String × α) → List (String × α)
  | [] => []
  | (k, v) :: rest => if key = k then (k, f v) :: rest else (k, v) :: adjust key f rest

/-- The entries of a list in which a key may stand more than once. -/
def ofList (l : List (String × α)) : List (String × α) :=
  update [] l

/-- The value of the first entry at `key`. -/
def get? (key : String) : List (String × α) → Option α
  | [] => none
  | (k, v) :: rest => if key = k then some v else get? key rest

theorem mem_insert {key : String} {value : α} {e : String × α} {entries : List (String × α)}
    (h : e ∈ insert key value entries) : e = (key, value) ∨ e ∈ entries := by
  induction entries with
  | nil => simpa [insert] using h
  | cons a rest ih =>
    simp only [insert] at h
    split at h
    · simpa using h
    · split at h
      · rcases List.mem_cons.mp h with h | h
        · exact .inl h
        · exact .inr (List.mem_cons_of_mem _ h)
      · rcases List.mem_cons.mp h with h | h
        · exact .inr (h ▸ List.mem_cons_self)
        · exact (ih h).imp_right (List.mem_cons_of_mem _)

theorem Ascending.insert {entries : List (String × α)} (h : Ascending entries) (key : String)
    (value : α) : Ascending (insert key value entries) := by
  induction entries with
  | nil => exact List.pairwise_singleton _ _
  | cons a rest ih =>
    obtain ⟨below, tail⟩ := List.pairwise_cons.mp h
    simp only [Entries.insert]
    split
    · next lt =>
      refine List.pairwise_cons.mpr ⟨fun e he => ?_, h⟩
      rcases List.mem_cons.mp he with rfl | he
      · exact lt
      · exact String.lt_trans lt (below e he)
    · next notLt =>
      split
      · next eq => exact List.pairwise_cons.mpr ⟨fun e he => eq ▸ below e he, tail⟩
      · next ne =>
        refine List.pairwise_cons.mpr ⟨fun e he => ?_, ih tail⟩
        rcases mem_insert he with rfl | he
        · exact String.not_le.mp fun le => ne (String.le_antisymm le (String.not_lt.mp notLt))
        · exact below e he

theorem Ascending.update {entries : List (String × α)} (h : Ascending entries)
    (newer : List (String × α)) : Ascending (update entries newer) := by
  induction newer generalizing entries with
  | nil => exact h
  | cons e rest ih => exact ih (h.insert e.1 e.2)

theorem ascending_ofList (l : List (String × α)) : Ascending (ofList l) :=
  Ascending.update List.Pairwise.nil l

@[simp] theorem get?_insert_self (key : String) (value : α) (entries : List (String × α)) :
    get? key (insert key value entries) = some value := by
  induction entries with
  | nil => simp [insert, get?]
  | cons a rest ih =>
    simp only [insert]
    split
    · simp [get?]
    · split
      · simp [get?]
      · next ne => simp [get?, ne, ih]

theorem get?_insert_of_ne {key other : String} (ne : other ≠ key) (value : α)
    (entries : List (String × α)) : get? other (insert key value entries) = get? other entries := by
  induction entries with
  | nil => simp [insert, get?, ne]
  | cons a rest ih =>
    simp only [insert]
    split
    · simp [get?, ne]
    · split
      · next eq => simp [get?, ne, ← eq]
      · simp [get?, ih]

end Entries

/-- A finite map from texts, with its entries in ascending order of the keys. Two maps with the same
values at the same keys are equal. -/
structure KeyMap (α : Type) where
  entries : List (String × α)
  ascending : Entries.Ascending entries
  deriving DecidableEq

namespace KeyMap

variable {α : Type}

def empty : KeyMap α := ⟨[], List.Pairwise.nil⟩

instance : EmptyCollection (KeyMap α) := ⟨empty⟩

instance : Inhabited (KeyMap α) := ⟨empty⟩

def get? (m : KeyMap α) (key : String) : Option α :=
  Entries.get? key m.entries

def insert (m : KeyMap α) (key : String) (value : α) : KeyMap α :=
  ⟨Entries.insert key value m.entries, m.ascending.insert key value⟩

/-- Of two entries with one key the later is kept. -/
def ofList (l : List (String × α)) : KeyMap α :=
  ⟨Entries.ofList l, Entries.ascending_ofList l⟩

def isEmpty (m : KeyMap α) : Bool := m.entries.isEmpty

end KeyMap

end ShapeLines
