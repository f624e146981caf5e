import ShapeLines.Json.Member
import ShapeLines.Proofs.Json.TextRoundTrip
import ShapeLines.Proofs.Results

/-!
# Records as objects

A record is written as an object with a member for each of its parts that is not left out, and read
from the values at the names of the parts. So what is read depends on the values at those names
only: members that are added under other names change nothing, and an array of the values in the
order of the names is read as the object is.
-/

namespace ShapeLines.Json

variable {α : Type} {read : Json → Option α}

/-- Whatever is written is read back, from the value and from the text of the value. -/
structure RoundTrips (write : α → Json) (read : Json → Option α) : Prop where
  value (x : α) : read (write x) = some x
  text (x : α) : (parse? (write x).text).bind read = some x

theorem RoundTrips.of_numberless {write : α → Json} {k : Nat} (value : ∀ x, read (write x) = some x)
    (flat : ∀ x, Numberless k (write x)) (room : k ≤ depthLimit) : RoundTrips write read where
  value := value
  text x := by rw [(flat x).parse?_text room, Option.bind_some, value]

/-! ## What is written -/

/-- The parts of a record under their names. A part that is left out has no value. -/
structure Parts where
  names : List String
  part? : String → Option Json
  named : ∀ {key v}, part? key = some v → key ∈ names

namespace Parts

variable {p : Parts} {v : Json}

def members (p : Parts) : List (String × Json) :=
  p.names.filterMap fun name => (p.part? name).map (name, ·)

theorem mem_members_iff {key : String} : (key, v) ∈ p.members ↔ p.part? key = some v := by
  rw [members, List.mem_filterMap]
  constructor
  · rintro ⟨name, -, written⟩
    obtain ⟨w, part, eq⟩ := Option.map_eq_some_iff.mp written
    cases eq
    exact part
  · intro part
    exact ⟨key, p.named part, by rw [part, Option.map_some]⟩

theorem get?_members (p : Parts) (key : String) :
    Entries.get? key (Entries.ofList p.members) = p.part? key :=
  Entries.get?_ofList_of_mem_iff fun _ => mem_members_iff

/-- The value of a list of texts, which is left out when it is empty. -/
def textsPart? (texts : List String) : Option Json :=
  if texts.isEmpty then none else some (.arr (texts.map .str))

section Numberless

variable {k : Nat}

theorem numberless (each : ∀ key v, p.part? key = some v → Numberless k v) :
    Numberless (k + 1) (ofMembers p.members) :=
  numberless_ofMembers fun e mem => each e.1 e.2 (mem_members_iff.mp mem)

theorem numberless_text {s : Option String} (written : s.map .str = some v) : Numberless k v := by
  obtain ⟨s, -, rfl⟩ := Option.map_eq_some_iff.mp written
  exact numberless_str s

theorem numberless_texts {texts : List String} (written : textsPart? texts = some v) :
    Numberless (k + 1) v := by
  unfold textsPart? at written
  split at written
  · cases written
  · cases written
    apply numberless_arr
    rw [List.forall_mem_map]
    exact fun s _ => numberless_str s

end Numberless

/-! ## What is read of it -/

theorem required?_eq (key : String) (there : p.part? key = some v) :
    required? (Entries.ofList p.members) key read = read v := by
  rw [required?, get?_members, there, Option.bind_some]

theorem optional?_eq (key : String) (absent : α) (there : p.part? key = some v) :
    optional? (Entries.ofList p.members) key absent read = read v := by
  rw [optional?, get?_members, there]

theorem optional?_absent (key : String) (absent : α) (left : p.part? key = none) :
    optional? (Entries.ofList p.members) key absent read = some absent := by
  rw [optional?, get?_members, left]

theorem optional?_text {s : Option String} (key : String) (there : p.part? key = s.map .str) :
    optional? (Entries.ofList p.members) key none optionalString? = some s := by
  cases s with
  | none => exact optional?_absent key none there
  | some s => exact optional?_eq key none there

theorem optional?_texts {texts : List String} (key : String)
    (there : p.part? key = textsPart? texts) :
    optional? (Entries.ofList p.members) key [] strings? = some texts := by
  cases texts with
  | nil => exact optional?_absent key [] there
  | cons s rest =>
    rw [optional?_eq key [] there, strings?]
    refine Results.mapM_map_of_inverse ?_ (s :: rest)
    exact fun _ => rfl

end Parts

/-! ## Readers of named members -/

section Named

variable {names : List String} {members more : List (String × Json)} {key : String}
  {readMembers : List (String × Json) → Option α}

/-- The reader looks only at the first member of each name. -/
def LooksAt (names : List String) (readMembers : List (String × Json) → Option α) : Prop :=
  ∀ ⦃members members'⦄,
    (∀ name ∈ names, Entries.get? name members' = Entries.get? name members) →
      readMembers members' = readMembers members

/-- The second object has more members than the first, none of them under one of the names. -/
inductive Extended (names : List String) : Json → Json → Prop
  | members (members more : List (String × Json)) (foreign : ∀ e ∈ more, e.1 ∉ names) :
    Extended names (.obj members) (.obj (Entries.update members more))

theorem get?_update_of_foreign (foreign : ∀ e ∈ more, e.1 ≠ key) :
    Entries.get? key (Entries.update members more) = Entries.get? key members := by
  have none : Entries.valuesAt key more = [] := by
    rw [Entries.valuesAt, List.filterMap_eq_nil_iff]
    exact fun e mem => if_neg (foreign e mem)
  rw [Entries.get?_update, none]
  rfl

theorem LooksAt.record?_of_extended (looks : LooksAt names readMembers) {v w : Json}
    (extended : Extended names v w) :
    record? names readMembers w = record? names readMembers v := by
  obtain ⟨members, more, foreign⟩ := extended
  refine looks fun name mem => get?_update_of_foreign fun e added eq => ?_
  rw [← eq] at mem
  exact foreign e added mem

/-- An array stands for the object that has its values under the first of the names. -/
structure ReadsInOrder (names : List String) (read : Json → Option α) : Prop where
  fits (values : List Json) (fits : values.length ≤ names.length) :
    read (.arr values) = read (ofMembers (names.zip values))
  tooLong (values : List Json) (long : names.length < values.length) : read (.arr values) = none

theorem nodup_keys_zip (distinct : names.Nodup) (values : List Json) :
    ((names.zip values).map Prod.fst).Nodup := by
  rw [List.zip_eq_zip_take_min, List.map_fst_zip (by simp)]
  exact distinct.sublist (List.take_sublist _ _)

theorem LooksAt.readsInOrder (looks : LooksAt names readMembers) (distinct : names.Nodup) :
    ReadsInOrder names (record? names readMembers) where
  fits values fits := by
    rw [record?, if_pos fits]
    exact looks fun name _ =>
      (Entries.get?_ofList_of_nodup (nodup_keys_zip distinct values) name).symm
  tooLong values long := by
    rw [record?, if_neg (Nat.not_le.mpr long)]

end Named

end ShapeLines.Json
