import ShapeLines.KeyMap

/-!
# Entries and what is found at their keys

Entries in ascending order are determined by what is found at each key. The values that a list of
entries gives to one key are `Entries.valuesAt`; an update finds the last of them, and keeps what
was there where there is none.
-/

namespace ShapeLines.Entries

variable {α : Type}

def valuesAt (key : String) (entries : List (String × α)) : List α :=
  entries.filterMap fun e => if e.1 = key then some e.2 else none

@[simp] theorem valuesAt_nil (key : String) : valuesAt key ([] : List (String × α)) = [] := rfl

theorem valuesAt_cons (key : String) (e : String × α) (rest : List (String × α)) :
    valuesAt key (e :: rest) = (if e.1 = key then [e.2] else []) ++ valuesAt key rest := by
  by_cases h : e.1 = key <;> simp [valuesAt, h]

@[simp] theorem valuesAt_append (key : String) (l l' : List (String × α)) :
    valuesAt key (l ++ l') = valuesAt key l ++ valuesAt key l' :=
  List.filterMap_append

theorem mem_valuesAt_iff {key : String} {value : α} {l : List (String × α)} :
    value ∈ valuesAt key l ↔ (key, value) ∈ l := by
  rw [valuesAt, List.mem_filterMap]
  constructor
  · rintro ⟨⟨k, v⟩, mem, eq⟩
    split at eq
    · next h => cases eq; exact h ▸ mem
    · cases eq
  · exact fun mem => ⟨(key, value), mem, if_pos rfl⟩

theorem get?_eq_head? (key : String) (l : List (String × α)) :
    get? key l = (valuesAt key l).head? := by
  induction l with
  | nil => rfl
  | cons e rest ih =>
    obtain ⟨k, v⟩ := e
    rw [valuesAt_cons, get?]
    by_cases h : key = k
    · simp [h]
    · simp [h, Ne.symm h, ih]

theorem mem_of_get? {key : String} {value : α} {l : List (String × α)}
    (h : get? key l = some value) : (key, value) ∈ l := by
  induction l with
  | nil => simp [get?] at h
  | cons e rest ih =>
    obtain ⟨k, v⟩ := e
    rw [get?] at h
    split at h
    · next hk =>
      cases h
      rw [hk]
      exact List.mem_cons_self ..
    · exact List.mem_cons_of_mem _ (ih h)

theorem get?_eq_none_iff {key : String} {l : List (String × α)} :
    get? key l = none ↔ ∀ e ∈ l, e.1 ≠ key := by
  induction l with
  | nil => simp [get?]
  | cons e rest ih =>
    obtain ⟨k, v⟩ := e
    by_cases h : key = k
    · simp [get?, h]
    · simp [get?, h, Ne.symm h, ih]

/-- Where no key stands twice, every entry is the first at its key. -/
theorem get?_of_mem {l : List (String × α)} (distinct : (l.map Prod.fst).Nodup) {key : String}
    {value : α} (mem : (key, value) ∈ l) : get? key l = some value := by
  induction l with
  | nil => simp at mem
  | cons e rest ih =>
    obtain ⟨k, v⟩ := e
    rw [List.map_cons, List.nodup_cons] at distinct
    rcases List.mem_cons.mp mem with eq | inRest
    · cases eq
      simp [get?]
    · have ne : key ≠ k := by
        rintro rfl
        exact distinct.1 (List.mem_map.mpr ⟨_, inRest, rfl⟩)
      rw [get?, if_neg ne, ih distinct.2 inRest]

theorem Ascending.nodup_keys {l : List (String × α)} (h : Ascending l) :
    (l.map Prod.fst).Nodup := by
  refine List.pairwise_map.mpr (List.Pairwise.imp ?_ h)
  intro a b lt eq
  rw [eq] at lt
  exact String.lt_irrefl b.1 lt

theorem Ascending.get?_of_mem {l : List (String × α)} (h : Ascending l) {key : String} {value : α}
    (mem : (key, value) ∈ l) : get? key l = some value :=
  Entries.get?_of_mem h.nodup_keys mem

theorem Ascending.get?_eq_some_iff {l : List (String × α)} (h : Ascending l) {key : String}
    {value : α} : get? key l = some value ↔ (key, value) ∈ l :=
  ⟨mem_of_get?, h.get?_of_mem⟩

theorem Ascending.nodup {l : List (String × α)} (h : Ascending l) : l.Nodup :=
  List.Pairwise.of_map Prod.fst (fun _ _ ne eq => ne (congrArg Prod.fst eq)) h.nodup_keys

theorem Ascending.filter {l : List (String × α)} (h : Ascending l) (p : String × α → Bool) :
    Ascending (l.filter p) :=
  List.Pairwise.filter p h

/-- Ascending entries with the same values at the same keys are the same. -/
theorem Ascending.ext {l l' : List (String × α)} (h : Ascending l) (h' : Ascending l')
    (eq : ∀ key, get? key l = get? key l') : l = l' := by
  have perm : l.Perm l' := by
    rw [List.perm_ext_iff_of_nodup h.nodup h'.nodup]
    rintro ⟨key, value⟩
    rw [← h.get?_eq_some_iff, ← h'.get?_eq_some_iff, eq]
  refine perm.eq_of_pairwise (fun a b _ _ hab hba => ?_) h h'
  exact absurd (String.lt_trans hab hba) (String.lt_irrefl a.1)

theorem get?_insert (key other : String) (value : α) (l : List (String × α)) :
    get? other (insert key value l) = if other = key then some value else get? other l := by
  split
  · next h => rw [h, get?_insert_self]
  · next h => rw [get?_insert_of_ne h]

theorem get?_update (key : String) (l newer : List (String × α)) :
    get? key (update l newer) = (valuesAt key newer).getLast?.or (get? key l) := by
  unfold update
  induction newer generalizing l with
  | nil => rfl
  | cons e rest ih =>
    rw [List.foldl_cons, ih, get?_insert, valuesAt_cons]
    by_cases h : e.1 = key
    · rw [if_pos h.symm, if_pos h, List.singleton_append, List.getLast?_cons]
      cases (valuesAt key rest).getLast? <;> rfl
    · rw [if_neg (Ne.symm h), if_neg h, List.nil_append]

theorem mem_update {e : String × α} {l newer : List (String × α)} (h : e ∈ update l newer) :
    e ∈ l ∨ e ∈ newer := by
  unfold update at h
  induction newer generalizing l with
  | nil => exact .inl h
  | cons d rest ih =>
    rcases ih h with inserted | later
    · rcases mem_insert inserted with rfl | old
      · exact .inr List.mem_cons_self
      · exact .inl old
    · exact .inr (List.mem_cons_of_mem _ later)

theorem get?_ofList (key : String) (l : List (String × α)) :
    get? key (ofList l) = (valuesAt key l).getLast? := by
  rw [ofList, get?_update]
  simp [get?]

/-- A key under which a list has one value at most gets that value. -/
theorem get?_ofList_of_mem_iff {key : String} {l : List (String × α)} {o : Option α}
    (only : ∀ v, (key, v) ∈ l ↔ o = some v) : get? key (ofList l) = o := by
  rw [get?_ofList]
  cases last : (valuesAt key l).getLast? with
  | some v => exact ((only v).mp (mem_valuesAt_iff.mp (List.mem_of_getLast? last))).symm
  | none =>
    cases o with
    | none => rfl
    | some v =>
      have mem := mem_valuesAt_iff.mpr ((only v).mpr rfl)
      rw [List.getLast?_eq_none_iff.mp last] at mem
      exact absurd mem List.not_mem_nil

theorem get?_ofList_of_nodup {l : List (String × α)} (distinct : (l.map Prod.fst).Nodup)
    (key : String) : get? key (ofList l) = get? key l :=
  get?_ofList_of_mem_iff fun _ => ⟨get?_of_mem distinct, mem_of_get?⟩

theorem Ascending.length_valuesAt_le {l : List (String × α)} (h : Ascending l) (key : String) :
    (valuesAt key l).length ≤ 1 := by
  induction l with
  | nil => simp
  | cons e rest ih =>
    obtain ⟨below, tail⟩ := List.pairwise_cons.mp h
    rw [valuesAt_cons]
    split
    · next he =>
      have none : valuesAt key rest = [] := by
        rw [valuesAt, List.filterMap_eq_nil_iff]
        intro d hd
        have lt := below d hd
        rw [he] at lt
        exact if_neg fun eq => String.lt_irrefl key (by rwa [eq] at lt)
      simp [none]
    · simpa using ih tail

/-- At each key of ascending entries there is one value at most. -/
theorem Ascending.valuesAt {l : List (String × α)} (h : Ascending l) (key : String) :
    valuesAt key l = (get? key l).toList := by
  have le := h.length_valuesAt_le key
  rw [get?_eq_head?]
  match hv : Entries.valuesAt key l with
  | [] => rfl
  | [v] => rfl
  | _ :: _ :: _ => simp [hv] at le

theorem ofList_eq_nil_iff {l : List (String × α)} : ofList l = [] ↔ l = [] := by
  constructor
  · intro nil
    cases l with
    | nil => rfl
    | cons e rest =>
      have found := get?_ofList e.1 (e :: rest)
      rw [nil, valuesAt_cons, if_pos rfl, List.singleton_append, List.getLast?_cons] at found
      contradiction
  · intro nil
    rw [nil]
    rfl

end ShapeLines.Entries

namespace ShapeLines.KeyMap

variable {α : Type}

theorem ext_get? {m m' : KeyMap α} (eq : ∀ key, m.get? key = m'.get? key) : m = m' := by
  have entries : m.entries = m'.entries := m.ascending.ext m'.ascending eq
  cases m
  cases m'
  simpa using entries

theorem get?_insert (m : KeyMap α) (key other : String) (value : α) :
    (m.insert key value).get? other = if other = key then some value else m.get? other :=
  Entries.get?_insert key other value m.entries

theorem get?_ofList (key : String) (l : List (String × α)) :
    (ofList l).get? key = (Entries.valuesAt key l).getLast? :=
  Entries.get?_ofList key l

/-- The values of `newer`, and those of `m` at all other keys. -/
def update (m newer : KeyMap α) : KeyMap α :=
  ⟨Entries.update m.entries newer.entries, m.ascending.update newer.entries⟩

theorem get?_update (m newer : KeyMap α) (key : String) :
    (m.update newer).get? key = (newer.get? key).or (m.get? key) := by
  have values := newer.ascending.valuesAt key
  unfold update get?
  rw [Entries.get?_update, values]
  cases Entries.get? key newer.entries <;> rfl

end ShapeLines.KeyMap
