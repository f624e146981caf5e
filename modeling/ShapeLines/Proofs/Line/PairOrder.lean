import ShapeLines.Proofs.Line.Declared

/-!
# The order of the pairs on a line

The pairs of a line may stand in any order, as long as the pairs with one key keep theirs. Whether
the line is the header does not change, and neither does what it declares. A header has the same
fault in every order. A field can have another one: of several pairs that it refuses the first is
reported, and no order of different keys is kept. The number of the line is only put to a fault.
-/

namespace ShapeLines

open Entries (valuesAt)
open Line (lastOf)

namespace Line

variable {p q : List Pair} {key : String}

/-- The pairs `q` are the pairs `p` in an order in which those with one key stand as before. -/
structure Reordered (p q : List Pair) : Prop where
  perm : p.Perm q
  kept : ∀ key, p.filter (·.1 = key) = q.filter (·.1 = key)

/-- Only the keys that occur have to be looked at. -/
theorem reordered_iff : Reordered p q ↔
    p.Perm q ∧ ∀ key ∈ p.map Prod.fst, p.filter (·.1 = key) = q.filter (·.1 = key) := by
  constructor
  · exact fun h => ⟨h.perm, fun key _ => h.kept key⟩
  · rintro ⟨perm, kept⟩
    refine ⟨perm, fun key => ?_⟩
    by_cases occurs : key ∈ p.map Prod.fst
    · exact kept key occurs
    · have none (l : List Pair) (same : l.Perm p) : l.filter (·.1 = key) = [] := by
        rw [List.filter_eq_nil_iff]
        intro pair mem eq
        exact occurs (List.mem_map.mpr ⟨pair, same.subset mem, by simpa using eq⟩)
      rw [none p (.refl p), none q perm.symm]

instance (p q : List Pair) : Decidable (Reordered p q) :=
  decidable_of_iff _ reordered_iff.symm

theorem valuesAt_eq_map_filter (key : String) (pairs : List Pair) :
    valuesAt key pairs = (pairs.filter (·.1 = key)).map Prod.snd := by
  induction pairs with
  | nil => rfl
  | cons pair pairs ih =>
    rw [Entries.valuesAt_cons, ih]
    by_cases own : pair.1 = key <;> simp [own]

theorem Reordered.valuesAt (h : Reordered p q) (key : String) :
    valuesAt key p = valuesAt key q := by
  rw [valuesAt_eq_map_filter, valuesAt_eq_map_filter, h.kept]

theorem Reordered.hasKey (h : Reordered p q) (key : String) : hasKey key p = hasKey key q :=
  h.perm.any_eq

/-- Whether the pairs are read as a header: they name an id and no fullname. -/
def NamesHeader (pairs : List Pair) : Prop :=
  hasKey "id" pairs = true ∧ hasKey "fullname" pairs = false

instance (pairs : List Pair) : Decidable (NamesHeader pairs) :=
  inferInstanceAs (Decidable (_ ∧ _))

theorem Reordered.namesHeader_iff (h : Reordered p q) : NamesHeader p ↔ NamesHeader q := by
  rw [NamesHeader, NamesHeader, h.hasKey, h.hasKey]

theorem Entry.ofPairs_of_namesHeader (names : NamesHeader p) :
    ofPairs p = (Header.ofPairs p).map .header := by
  rw [ofPairs, if_pos (by simp [names.1, names.2])]

theorem Entry.ofPairs_of_not_namesHeader (names : ¬NamesHeader p) :
    ofPairs p = (Field.ofPairs p).map .field := by
  rw [ofPairs, if_neg (by simpa [NamesHeader] using names)]

end Line

namespace Header

variable {p q : List Line.Pair}

theorem lastValue?_eq (key : String) (pairs : List Line.Pair) :
    lastValue? key pairs = lastOf key pairs := by
  rw [lastValue?, lastOf, Line.valuesAt_eq_map_filter, List.getLast?_map, ← List.head?_reverse,
    ← List.filter_reverse, List.head?_filter]
  rfl

/-- A header is read from the last value of each of its keys. -/
theorem ofPairs_congr (same : ∀ key, valuesAt key p = valuesAt key q) : ofPairs p = ofPairs q := by
  have last (key : String) : lastValue? key p = lastValue? key q := by
    rw [lastValue?_eq, lastValue?_eq, lastOf, lastOf, same]
  simp only [ofPairs, needed, directionOf, last]

end Header

namespace Field

variable {p q : List Line.Pair} {f : Field}

/-- If no pair is refused, a field is read from the values that are given to each key. -/
theorem ofPairs_congr (same : ∀ key, valuesAt key p = valuesAt key q)
    (readableP : ∀ pair ∈ p, Readable pair) (readableQ : ∀ pair ∈ q, Readable pair) :
    ofPairs p = ofPairs q := by
  rw [ofPairs, ofPairs, foldlM_declare readableP, foldlM_declare readableQ, declared_congr same]

theorem ofPairs_eq_ok_of_reordered (h : Line.Reordered p q) (read : ofPairs p = .ok f) :
    ofPairs q = .ok f := by
  obtain ⟨-, readable, -⟩ := ofPairs_eq_ok_iff.mp read
  have readableQ : ∀ pair ∈ q, Readable pair := fun pair mem => readable pair (h.perm.symm.subset mem)
  rw [← ofPairs_congr h.valuesAt readable readableQ, read]

end Field

namespace Line

variable {p q : List Pair}

theorem Reordered.symm (h : Reordered p q) : Reordered q p :=
  ⟨h.perm.symm, fun key => (h.kept key).symm⟩

/-- Reordered pairs are both read as a header or both as a field. A header is read alike from both,
faults included. A field is read from the one exactly if it is read from the other, and if no pair
is refused by itself, then the faults are the same as well. -/
theorem Entry.ofPairs_reordered (h : Reordered p q) :
    (NamesHeader p ↔ NamesHeader q) ∧
    (NamesHeader p → ofPairs p = (Header.ofPairs p).map .header ∧
      ofPairs q = (Header.ofPairs q).map .header ∧ Header.ofPairs p = Header.ofPairs q) ∧
    (¬NamesHeader p → ofPairs p = (Field.ofPairs p).map .field ∧
      ofPairs q = (Field.ofPairs q).map .field ∧
      (∀ f, Field.ofPairs p = .ok f ↔ Field.ofPairs q = .ok f) ∧
      ((∀ pair ∈ p, Field.Readable pair) → Field.ofPairs p = Field.ofPairs q)) := by
  refine ⟨h.namesHeader_iff, fun names => ?_, fun names => ?_⟩
  · have namesQ := h.namesHeader_iff.mp names
    exact ⟨ofPairs_of_namesHeader names, ofPairs_of_namesHeader namesQ,
      Header.ofPairs_congr h.valuesAt⟩
  · have namesQ := h.namesHeader_iff.not.mp names
    refine ⟨ofPairs_of_not_namesHeader names, ofPairs_of_not_namesHeader namesQ, fun f => ?_, ?_⟩
    · exact ⟨Field.ofPairs_eq_ok_of_reordered h, Field.ofPairs_eq_ok_of_reordered h.symm⟩
    · intro readable
      exact Field.ofPairs_congr h.valuesAt readable fun pair mem =>
        readable pair (h.perm.symm.subset mem)

/-- The pairs of a field in which a list is given in two parts and a further key twice. -/
def sizePairs : List Pair :=
  [("fullname", "size"), ("enum", "s"), ("note", "old"), ("src", "P.size"), ("enum", "l"),
    ("note", "new"), ("required", "true")]

def sizePairsReordered : List Pair :=
  [("note", "old"), ("enum", "s"), ("required", "true"), ("note", "new"), ("src", "P.size"),
    ("enum", "l"), ("fullname", "size")]

theorem Entry.ofPairs_reordered_size : Reordered sizePairs sizePairsReordered ∧
    ¬NamesHeader sizePairs ∧ (∀ pair ∈ sizePairs, Field.Readable pair) ∧
    Field.ofPairs sizePairsReordered = .ok
      { fullname := "size", required := true, enumValues := ["s", "l"], src := "P.size",
        extra := KeyMap.ofList [("note", "new")] } := by
  have reordered : Reordered sizePairs sizePairsReordered := by decide
  have names : ¬NamesHeader sizePairs := by decide
  have readable : ∀ pair ∈ sizePairs, Field.Readable pair := by
    simp [sizePairs, Field.Readable]
  obtain ⟨-, -, fields⟩ := ofPairs_reordered reordered
  obtain ⟨-, -, same, -⟩ := fields names
  exact ⟨reordered, names, readable, (same _).mp (by decide +kernel)⟩

end Line

end ShapeLines
