import ShapeLines.Line.Entry
import ShapeLines.Proofs.Line.Declared
import ShapeLines.Proofs.Line.KeyOrder
import ShapeLines.Proofs.Shape.WrittenText

/-!
# Reading a written field

Sorting keeps the pairs of one key in their order, and only that order counts when a line is read.
So a field is read from its line as from the pairs before they are sorted: every text is found under
its key again, and a binding that is not written is the implied one.
-/

namespace ShapeLines

open Text (Storable Trimmed OneLine)
open Entries (valuesAt)
open Line (IsKey IsLabel lastOf)

namespace Field

theorem valuesAt_meaning (key : String) (ps : List WrittenPair) :
    valuesAt key (meaning ps) = (ps.filter (·.1 = key)).flatMap (·.2.values) := by
  induction ps with
  | nil => rfl
  | cons p ps ih =>
    rw [meaning, List.flatMap_cons, ← meaning, Entries.valuesAt_append, ih]
    by_cases h : p.1 = key
    · simp [h, valuesAt, List.filterMap_map]
    · simp [h, valuesAt, List.filterMap_map]

/-- The order of the keys changes nothing of what is given to each. -/
theorem valuesAt_orderedPairs (order : KeyOrder) (h : Header) (f : Field) (key : String) :
    valuesAt key (meaning (f.orderedPairs order h)) =
      valuesAt key (meaning (f.writtenPairs h)) := by
  rw [valuesAt_meaning, valuesAt_meaning, orderedPairs, order.filter_mergeSort]

def texts (f : Field) : List String :=
  [f.fullname, f.src, f.dst] ++ f.format.toList ++ f.defaultText.toList ++ f.exampleText.toList ++
    f.examplesText.toList ++ f.enumValues ++ f.enumNames ++ f.constValues ++
    f.extra.entries.map (·.2)

/-- A field that can be put on a line. -/
structure Writable (f : Field) : Prop where
  fullname : f.fullname ≠ ""
  src : f.src ≠ ""
  dst : f.dst ≠ ""
  texts : ∀ t ∈ f.texts, Storable t
  extraKeys : ∀ e ∈ f.extra.entries, IsKey e.1.toList ∧ e.1 ∉ ownKeys

instance (f : Field) : Decidable f.Writable :=
  decidable_of_iff (f.fullname ≠ "" ∧ f.src ≠ "" ∧ f.dst ≠ "" ∧ (∀ t ∈ f.texts, Storable t) ∧
      ∀ e ∈ f.extra.entries, IsKey e.1.toList ∧ e.1 ∉ ownKeys)
    ⟨fun h => ⟨h.1, h.2.1, h.2.2.1, h.2.2.2.1, h.2.2.2.2⟩,
      fun h => ⟨h.fullname, h.src, h.dst, h.texts, h.extraKeys⟩⟩

/-- Whether the source is written, and whether the destination is. -/
def WritesSrc (h : Header) (f : Field) : Prop :=
  f.src ≠ impliedBinding h.id f.fullname ∨
    ((f.src = impliedBinding h.id f.fullname ∧ f.dst = impliedBinding h.id f.fullname) ∧
      h.direction = .outbound)

def WritesDst (h : Header) (f : Field) : Prop :=
  f.dst ≠ impliedBinding h.id f.fullname ∨
    ((f.src = impliedBinding h.id f.fullname ∧ f.dst = impliedBinding h.id f.fullname) ∧
      h.direction ≠ .outbound)

instance (h : Header) (f : Field) : Decidable (WritesSrc h f) :=
  inferInstanceAs (Decidable (_ ∨ _))

instance (h : Header) (f : Field) : Decidable (WritesDst h f) :=
  inferInstanceAs (Decidable (_ ∨ _))

/-- The texts of a field that are no bindings and not in lists. -/
def plainTexts (f : Field) : List String :=
  [f.fullname] ++ f.format.toList ++ f.defaultText.toList ++ f.exampleText.toList ++
    f.examplesText.toList ++ f.extra.entries.map (·.2)

def lists (f : Field) : List (List String) :=
  [f.enumValues, f.enumNames, f.constValues]

theorem forall_lists {f : Field} {P : List String → Prop} :
    (∀ vs ∈ f.lists, P vs) ↔ P f.enumValues ∧ P f.enumNames ∧ P f.constValues := by
  simp [lists]

/-- What every field satisfies that is read from a line: its texts are such that a token can give
them, and what it keeps under further keys has come under no key of its own. A binding that is not
written may be any text. -/
structure Stored (h : Header) (f : Field) : Prop where
  fullname : f.fullname ≠ ""
  src : f.src ≠ ""
  dst : f.dst ≠ ""
  srcText : WritesSrc h f → Storable f.src
  dstText : WritesDst h f → Storable f.dst
  texts : ∀ t ∈ f.plainTexts, Storable t
  lists : ∀ vs ∈ f.lists, ∀ v ∈ vs, Trimmed v.toList
  extraKeys : ∀ e ∈ f.extra.entries, IsLabel e.1.toList ∧ e.1 ∉ ownKeys

/-- No list that is written value by value holds a line feed. -/
def KeepsLists (f : Field) : Prop :=
  ∀ vs ∈ f.lists, vs.any opensBracket = false → ∀ v ∈ vs, OneLine v.toList

instance (f : Field) : Decidable f.KeepsLists :=
  inferInstanceAs (Decidable (∀ vs ∈ f.lists, _ → _))

/-- Every further key is read as it is written. -/
def KeepsKeys (f : Field) : Prop :=
  ∀ e ∈ f.extra.entries, KeepsKey (e.1, .text e.2)

instance (f : Field) : Decidable f.KeepsKeys :=
  inferInstanceAs (Decidable (∀ e ∈ f.extra.entries, _))

/-- A field that is read from its line as it was. -/
structure Legible (h : Header) (f : Field) : Prop where
  stored : f.Stored h
  keepsLists : f.KeepsLists
  keepsKeys : f.KeepsKeys

theorem Writable.legible {f : Field} (w : f.Writable) (h : Header) : f.Legible h := by
  have texts := w.texts
  simp only [Field.texts, List.forall_mem_append, List.forall_mem_cons] at texts
  obtain ⟨⟨⟨⟨⟨⟨⟨⟨⟨fullname, src, dst, -⟩, format⟩, default⟩, example'⟩, examples⟩, enum⟩, names⟩,
    const⟩, extra⟩ := texts
  have lists : ∀ vs ∈ f.lists, ∀ v ∈ vs, Storable v := forall_lists.mpr ⟨enum, names, const⟩
  have plain : ∀ t ∈ f.plainTexts, Storable t := by
    simp only [plainTexts, List.forall_mem_append, List.forall_mem_singleton]
    exact ⟨⟨⟨⟨⟨fullname, format⟩, default⟩, example'⟩, examples⟩, extra⟩
  exact ⟨⟨w.fullname, w.src, w.dst, fun _ => src, fun _ => dst, plain,
      fun vs hvs v hv => (lists vs hvs v hv).1,
      fun e he => ⟨(w.extraKeys e he).1.label, (w.extraKeys e he).2⟩⟩,
    fun vs hvs _ v hv => (lists vs hvs v hv).2,
    fun e he => keepsKey_of_isKey (w.extraKeys e he).1 _⟩

theorem isKey_of_mem_ownKeys : ∀ key ∈ ownKeys, IsKey key.toList := by
  decide

/-! ## What is written under a key -/

theorem valuesAt_text (key k v : String) :
    valuesAt key (meaning [(k, .text v)]) = if k = key then [v] else [] := by
  simp [meaning, Written.values, Entries.valuesAt_cons]

theorem valuesAt_textPairs (key k : String) (v : Option String) :
    valuesAt key (meaning (textPairs k v)) = if k = key then v.toList else [] := by
  cases v with
  | none => simp [textPairs, meaning]
  | some v => exact valuesAt_text key k v

theorem valuesAt_map (key k : String) (vs : List String) :
    valuesAt key (vs.map fun v => (k, v)) = if k = key then vs else [] := by
  split
  · next h => simp [valuesAt, h, List.filterMap_map]
  · next h => simp [valuesAt, h, List.filterMap_map]

theorem valuesAt_repeatedPairs (key k : String) (vs : List String) :
    valuesAt key (meaning (repeatedPairs k vs)) =
      if k = key then (if vs.any opensBracket then [] else vs) else [] := by
  unfold repeatedPairs
  split
  · simp [meaning]
  · rw [meaning, List.flatMap_map, ← valuesAt_map]
    simp [Written.values, ← List.map_eq_flatMap]

theorem valuesAt_literalPair (key k : String) (vs : List String) :
    valuesAt key (meaning (literalPair k vs)) =
      if k = key then (if vs.any opensBracket then vs else []) else [] := by
  unfold literalPair
  split
  · rw [meaning, List.flatMap_singleton, values_literal, valuesAt_map]
  · simp [meaning]

theorem meaning_extra (entries : List (String × String)) :
    meaning (entries.map fun (key, value) => (key, .text value)) = entries := by
  rw [meaning, List.flatMap_map]
  induction entries with
  | nil => rfl
  | cons e rest ih =>
    rw [List.flatMap_cons, ih]
    rfl

@[simp] theorem meaning_append (ps qs : List WrittenPair) :
    meaning (ps ++ qs) = meaning ps ++ meaning qs :=
  List.flatMap_append

theorem meaning_ite (p : Prop) [Decidable p] (ps : List WrittenPair) :
    meaning (if p then ps else []) = if p then meaning ps else [] := by
  split <;> rfl

theorem valuesAt_ite {α : Type} (key : String) (p : Prop) [Decidable p] (l : List (String × α)) :
    valuesAt key (if p then l else []) = if p then valuesAt key l else [] := by
  split <;> rfl

theorem valuesAt_writtenPairs (h : Header) (f : Field) (key : String) :
    valuesAt key (meaning (f.writtenPairs h)) =
      (if "fullname" = key then [f.fullname] else []) ++
      (if WritesSrc h f then (if "src" = key then [f.src] else []) else []) ++
      (if WritesDst h f then (if "dst" = key then [f.dst] else []) else []) ++
      (if f.type = .scalar .string then [] else if "type" = key then [f.type.name] else []) ++
      (if "format" = key then f.format.toList else []) ++
      (if f.required then (if "required" = key then ["true"] else []) else []) ++
      (if "enum" = key then (if f.enumValues.any opensBracket then [] else f.enumValues) else []) ++
      (if "enumNames" = key then (if f.enumNames.any opensBracket then [] else f.enumNames)
        else []) ++
      (if "const" = key then (if f.constValues.any opensBracket then [] else f.constValues)
        else []) ++
      (if "default" = key then f.defaultText.toList else []) ++
      (if "example" = key then f.exampleText.toList else []) ++
      (if "examples" = key then f.examplesText.toList else []) ++
      valuesAt key f.extra.entries ++
      (if "enum" = key then (if f.enumValues.any opensBracket then f.enumValues else []) else []) ++
      (if "enumNames" = key then (if f.enumNames.any opensBracket then f.enumNames else [])
        else []) ++
      (if "const" = key then (if f.constValues.any opensBracket then f.constValues else [])
        else []) := by
  have type : valuesAt key (meaning (if f.type = .scalar .string then []
      else [("type", Written.text f.type.name)])) =
      if f.type = .scalar .string then [] else if "type" = key then [f.type.name] else [] := by
    split
    · rfl
    · exact valuesAt_text ..
  simp only [writtenPairs, bindingPairs, meaning_append, Entries.valuesAt_append, meaning_ite,
    valuesAt_ite, valuesAt_text, type, valuesAt_textPairs, valuesAt_repeatedPairs,
    valuesAt_literalPair, meaning_extra, List.append_assoc]
  rfl

/-- Nothing that is kept under further keys is given to a key that a field reads itself. -/
theorem Stored.valuesAt_extra {f : Field} {h : Header} (s : f.Stored h) {key : String}
    (own : key ∈ ownKeys) : valuesAt key f.extra.entries = [] := by
  rw [f.extra.ascending.valuesAt, Entries.get?_eq_none_iff.mpr]
  · rfl
  · rintro e he rfl
    exact (s.extraKeys e he).2 own

/-- The pairs of a field declare it again, save for a binding that is not written. -/
theorem Stored.declared_writtenPairs {f : Field} {h : Header} (s : f.Stored h) :
    declared (meaning (f.writtenPairs h)) =
      { f with
        src := if WritesSrc h f then f.src else ""
        dst := if WritesDst h f then f.dst else "" } := by
  have list : ∀ vs : List String, (if vs.any opensBracket then [] else vs) ++
      (if vs.any opensBracket then vs else []) = vs := by
    intro vs
    split <;> simp
  have extra : KeyMap.ofList (extrasOf (meaning (f.writtenPairs h))) = f.extra := by
    apply KeyMap.ext_get?
    intro key
    rw [KeyMap.get?_ofList, valuesAt_extrasOf]
    split
    · next own =>
      have none := s.valuesAt_extra own
      rw [f.extra.ascending.valuesAt] at none
      rw [KeyMap.get?, Option.toList_eq_nil_iff.mp none]
      rfl
    · next other =>
      have ne : ∀ k ∈ ownKeys, k ≠ key := by
        rintro k hk rfl
        exact other hk
      simp only [ownKeys, List.forall_mem_cons] at ne
      rw [valuesAt_writtenPairs]
      simp only [ne, ↓reduceIte, ite_self, List.nil_append, List.append_nil]
      rw [f.extra.ascending.valuesAt, KeyMap.get?]
      cases Entries.get? key f.extra.entries <;> rfl
  have own : ∀ key ∈ ownKeys, valuesAt key f.extra.entries = [] := fun _ => s.valuesAt_extra
  simp only [ownKeys, List.forall_mem_cons] at own
  have type : ((if f.type = .scalar .string then [] else [f.type.name]).getLast?.bind
      FieldType.ofShortName?).getD (.scalar .string) = f.type := by
    split
    · next eq => rw [eq]; rfl
    · simp [FieldType.ofShortName?_name]
  have flag : ((if f.required then ["true"] else []).getLast? == some "true") = f.required := by
    cases f.required <;> rfl
  have optional : ∀ v : Option String, v.toList.getLast? = v := by
    intro v
    cases v <;> rfl
  have binding : ∀ (p : Prop) [Decidable p] (v : String),
      (if p then [v] else []).getLast?.getD "" = if p then v else "" := by
    intro p _ v
    split <;> rfl
  simp [declared, lastOf, valuesAt_writtenPairs, own, extra, list, type, flag, optional, binding,
    -List.any_eq_true]

/-- What is not written is filled in again. -/
theorem Stored.fillBindings {f : Field} {h : Header} (s : f.Stored h) (order : KeyOrder) :
    (declared (meaning (f.orderedPairs order h))).fillBindings h.id = f := by
  rw [declared_congr (valuesAt_orderedPairs order h f), s.declared_writtenPairs,
    Field.fillBindings]
  have src : (if (if WritesSrc h f then f.src else "") = "" then impliedBinding h.id f.fullname
      else if WritesSrc h f then f.src else "") = f.src := by
    by_cases writes : WritesSrc h f
    · simp [writes, s.src]
    · have implied : f.src = impliedBinding h.id f.fullname :=
        Classical.not_not.mp fun ne => writes (.inl ne)
      simp [writes, implied]
  have dst : (if (if WritesDst h f then f.dst else "") = "" then impliedBinding h.id f.fullname
      else if WritesDst h f then f.dst else "") = f.dst := by
    by_cases writes : WritesDst h f
    · simp [writes, s.dst]
    · have implied : f.dst = impliedBinding h.id f.fullname :=
        Classical.not_not.mp fun ne => writes (.inl ne)
      simp [writes, implied]
  simp only [src, dst]

theorem fillBindings_declared {f : Field} (w : f.Writable) (order : KeyOrder) (h : Header) :
    (declared (meaning (f.orderedPairs order h))).fillBindings h.id = f :=
  (w.legible h).stored.fillBindings order

theorem writesSrc_or_writesDst (h : Header) (f : Field) : WritesSrc h f ∨ WritesDst h f := by
  by_cases src : f.src = impliedBinding h.id f.fullname
  · by_cases dst : f.dst = impliedBinding h.id f.fullname
    · by_cases out : h.direction = .outbound
      · exact .inl (.inr ⟨⟨src, dst⟩, out⟩)
      · exact .inr (.inr ⟨⟨src, dst⟩, out⟩)
    · exact .inr (.inl dst)
  · exact .inl (.inl src)

theorem Stored.checked {f : Field} {h : Header} (s : f.Stored h) (order : KeyOrder) :
    checked (declared (meaning (f.orderedPairs order h))) =
      .ok (declared (meaning (f.orderedPairs order h))) := by
  rw [declared_congr (valuesAt_orderedPairs order h f), s.declared_writtenPairs, Field.checked,
    if_neg s.fullname, if_neg]
  rintro ⟨src, dst⟩
  rcases writesSrc_or_writesDst h f with writes | writes
  · exact s.src (by simpa [writes] using src)
  · exact s.dst (by simpa [writes] using dst)

/-! ## Every written pair reads back -/

theorem onLine_own {key v : String} (own : key ∈ ownKeys) (plain : key ∉ Line.listKeys)
    (storable : Storable v) : OnLine (key, .text v) :=
  .text (isKey_of_mem_ownKeys key own).label storable fun isList => absurd isList plain

theorem onLine_textPairs {key : String} {v : Option String} (own : key ∈ ownKeys)
    (plain : key ∉ Line.listKeys) (storable : ∀ t ∈ v.toList, Storable t) :
    ∀ p ∈ textPairs key v, OnLine p := by
  intro p hp
  obtain ⟨t, ht, rfl⟩ := List.mem_map.mp hp
  exact onLine_own own plain (storable t ht)

theorem onLine_repeatedPairs {key : String} {vs : List String} (isList : key ∈ Line.listKeys)
    (trimmed : ∀ t ∈ vs, Trimmed t.toList)
    (oneLine : vs.any opensBracket = false → ∀ t ∈ vs, OneLine t.toList) :
    ∀ p ∈ repeatedPairs key vs, OnLine p := by
  intro p hp
  unfold repeatedPairs at hp
  split at hp
  · simp at hp
  · next none =>
    rw [Bool.not_eq_true] at none
    obtain ⟨t, ht, rfl⟩ := List.mem_map.mp hp
    refine .text (Line.isKey_of_mem_listKeys _ isList).label ⟨trimmed t ht, oneLine none t ht⟩
      fun _ => ?_
    rw [List.any_eq_false] at none
    simpa using none t ht

theorem onLine_literalPair {key : String} {vs : List String} (isList : key ∈ Line.listKeys)
    (trimmed : ∀ t ∈ vs, Trimmed t.toList) : ∀ p ∈ literalPair key vs, OnLine p := by
  intro p hp
  unfold literalPair at hp
  split at hp
  · next some =>
    rw [List.mem_singleton] at hp
    subst hp
    refine .literal isList ?_ trimmed
    rintro rfl
    simp at some
  · simp at hp

theorem storable_typeName (type : FieldType) : Storable type.name := by
  cases type with
  | scalar type => cases type <;> decide
  | array => decide
  | object => decide

theorem Stored.onLine {f : Field} {h : Header} (s : f.Stored h) (keeps : f.KeepsLists) :
    ∀ p ∈ f.writtenPairs h, OnLine p := by
  have texts := s.texts
  simp only [plainTexts, List.forall_mem_append, List.forall_mem_singleton] at texts
  obtain ⟨⟨⟨⟨⟨fullname, format⟩, default⟩, example'⟩, examples⟩, extra⟩ := texts
  have trimmed := forall_lists.mp s.lists
  have oneLine := forall_lists.mp keeps
  have own : ∀ key ∈ ownKeys, key ∉ Line.listKeys → ∀ t, Storable t → OnLine (key, .text t) :=
    fun key own plain t storable => onLine_own own plain storable
  have ite : ∀ (q : Prop) [Decidable q] (p : WrittenPair), (q → OnLine p) →
      ∀ p' ∈ (if q then [p] else []), OnLine p' := by
    intro q _ p hp p' hp'
    split at hp'
    · next holds => exact List.mem_singleton.mp hp' ▸ hp holds
    · simp at hp'
  have type : ∀ p ∈ (if f.type = .scalar .string then []
      else [("type", Written.text f.type.name)]), OnLine p := by
    intro p hp
    split at hp
    · simp at hp
    · rw [List.mem_singleton.mp hp]
      exact own _ (by decide) (by decide) _ (storable_typeName f.type)
  have kept : ∀ p ∈ f.extra.entries.map (fun (key, value) => (key, Written.text value)),
      OnLine p := by
    intro p hp
    obtain ⟨e, he, rfl⟩ := List.mem_map.mp hp
    obtain ⟨label, other⟩ := s.extraKeys e he
    refine .text label (extra e.2 (List.mem_map_of_mem he)) fun isList => ?_
    have inOwn : ∀ key ∈ Line.listKeys, key ∈ ownKeys := by decide
    exact absurd (inOwn _ isList) other
  simp only [writtenPairs, bindingPairs, List.forall_mem_append]
  refine ⟨⟨⟨⟨⟨⟨⟨⟨⟨⟨⟨⟨⟨⟨?_, ?_, ?_⟩, type⟩, ?_⟩, ?_⟩, ?_⟩, ?_⟩, ?_⟩, ?_⟩, ?_⟩, ?_⟩, kept⟩,
    ?_⟩, ?_⟩, ?_⟩
  · intro p hp
    rw [List.mem_singleton.mp hp]
    exact own _ (by decide) (by decide) _ fullname
  · exact ite _ _ fun writes => own _ (by decide) (by decide) _ (s.srcText writes)
  · exact ite _ _ fun writes => own _ (by decide) (by decide) _ (s.dstText writes)
  · exact onLine_textPairs (by decide) (by decide) format
  · exact ite _ _ fun _ => own _ (by decide) (by decide) _ (by decide)
  · exact onLine_repeatedPairs (by decide) trimmed.1 oneLine.1
  · exact onLine_repeatedPairs (by decide) trimmed.2.1 oneLine.2.1
  · exact onLine_repeatedPairs (by decide) trimmed.2.2 oneLine.2.2
  · exact onLine_textPairs (by decide) (by decide) default
  · exact onLine_textPairs (by decide) (by decide) example'
  · exact onLine_textPairs (by decide) (by decide) examples
  · exact onLine_literalPair (by decide) trimmed.1
  · exact onLine_literalPair (by decide) trimmed.2.1
  · exact onLine_literalPair (by decide) trimmed.2.2

def textPair (e : Line.Pair) : WrittenPair :=
  (e.1, .text e.2)

/-- Under keys that a field does not read itself its further pairs are written as they are. -/
theorem filter_writtenPairs {f : Field} (h : Header) (keep : String → Bool)
    (fullname : keep "fullname" = true) (others : ∀ key ∈ ownKeys.tail, keep key = false)
    (extras : ∀ e ∈ f.extra.entries, keep e.1 = true) :
    (f.writtenPairs h).filter (fun p => keep p.1) =
      (("fullname", f.fullname) :: f.extra.entries).map textPair := by
  simp only [ownKeys, List.tail_cons, List.forall_mem_cons] at others
  have kept : (f.extra.entries.map fun (key, value) => ((key, .text value) : WrittenPair)).filter
      (fun p => keep p.1) = f.extra.entries.map textPair := by
    rw [List.filter_eq_self.mpr]
    · rfl
    · intro p mem
      obtain ⟨e, inEntries, rfl⟩ := List.mem_map.mp mem
      exact extras e inEntries
  simp only [writtenPairs, bindingPairs, textPairs, repeatedPairs, literalPair, List.filter_append,
    apply_ite (List.filter fun p : WrittenPair => keep p.1), List.filter_cons_of_neg,
    List.filter_cons_of_pos, List.filter_map, kept, List.filter_nil, List.filter_false,
    List.map_nil, ite_self, List.append_nil, others, fullname, Bool.false_eq_true,
    not_false_eq_true, Function.comp_def]
  rfl

/-- A pair is written under a key that a field reads itself, or it is kept as it is. -/
theorem own_or_extra {f : Field} {h : Header} (s : f.Stored h) {p : WrittenPair}
    (mem : p ∈ f.writtenPairs h) : p.1 ∈ ownKeys ∨ ∃ e ∈ f.extra.entries, p = textPair e := by
  by_cases own : p.1 ∈ ownKeys.tail
  · exact .inl (List.mem_of_mem_tail own)
  · have rest := filter_writtenPairs h (fun key => !decide (key ∈ ownKeys.tail)) (by decide)
      (by decide) fun e inExtra => by
        simpa using fun inOwn => (s.extraKeys e inExtra).2 (List.mem_of_mem_tail inOwn)
    have kept : p ∈ (("fullname", f.fullname) :: f.extra.entries).map textPair :=
      rest ▸ List.mem_filter.mpr ⟨mem, by simpa using own⟩
    obtain ⟨e, inEntries, rfl⟩ := List.mem_map.mp kept
    rcases List.mem_cons.mp inEntries with rfl | inExtra
    · exact .inl (List.mem_cons_self ..)
    · exact .inr ⟨e, inExtra, rfl⟩

theorem Legible.readsBack {f : Field} {h : Header} (l : f.Legible h) :
    ∀ p ∈ f.writtenPairs h, ReadsBack p := by
  intro p mem
  refine ⟨l.stored.onLine l.keepsLists p mem, ?_⟩
  rcases own_or_extra l.stored mem with own | ⟨e, he, rfl⟩
  · exact keepsKey_of_isKey (isKey_of_mem_ownKeys _ own) p.2
  · exact l.keepsKeys e he

theorem Writable.readsBack {f : Field} (w : f.Writable) (h : Header) :
    ∀ p ∈ f.writtenPairs h, ReadsBack p :=
  (w.legible h).readsBack

/-! ## Reading the lines -/

theorem hasKey_of_valuesAt {key : String} {pairs : List Line.Pair} (h : valuesAt key pairs ≠ []) :
    Line.hasKey key pairs = true := by
  obtain ⟨v, hv⟩ := List.exists_mem_of_ne_nil _ h
  rw [Line.hasKey, List.any_eq_true]
  exact ⟨(key, v), Entries.mem_valuesAt_iff.mp hv, by simp⟩

theorem Stored.readable {f : Field} {h : Header} (s : f.Stored h) (order : KeyOrder) :
    ∀ pair ∈ meaning (f.orderedPairs order h), Readable pair := by
  have type : valuesAt "type" f.extra.entries = [] := s.valuesAt_extra (by decide)
  have flag : valuesAt "required" f.extra.entries = [] := s.valuesAt_extra (by decide)
  rintro ⟨key, v⟩ hp
  have mem := Entries.mem_valuesAt_iff.mpr hp
  rw [valuesAt_orderedPairs, valuesAt_writtenPairs] at mem
  constructor
  · rintro rfl
    simp only [type] at mem
    by_cases string : f.type = .scalar .string
    · simp [string] at mem
    · have name : v = f.type.name := by simpa [string] using mem
      exact ⟨f.type, by rw [name]; exact FieldType.ofShortName?_name f.type⟩
  · rintro rfl
    simp only [flag] at mem
    by_cases required : f.required
    · exact .inl (by simpa [required] using mem)
    · simp [required] at mem

theorem hasFullname {f : Field} (order : KeyOrder) (h : Header) :
    Line.hasKey "fullname" (meaning (f.orderedPairs order h)) = true := by
  apply hasKey_of_valuesAt
  rw [valuesAt_orderedPairs, valuesAt_writtenPairs]
  simp

/-- The line of a field is read as the field without the bindings that are not written. -/
theorem Legible.entry {f : Field} {h : Header} (l : f.Legible h) (order : KeyOrder) :
    Line.Entry.ofChars (lineOf (f.orderedPairs order h)) =
      .ok (.field (declared (meaning (f.orderedPairs order h)))) := by
  have reads : ∀ p ∈ f.orderedPairs order h, ReadsBack p := by
    intro p hp
    exact l.readsBack p ((List.mergeSort_perm _ _).mem_iff.mp hp)
  have pairs := pairs_lineOf reads (Shape.orderedPairs_ne_nil order h f)
  have folded := foldlM_declare (l.stored.readable order)
  have checks := l.stored.checked order
  rw [Line.Entry.ofChars, pairs]
  simp only [Except.bind, Line.Entry.ofPairs, hasFullname, ofPairs, folded, checks]
  simp [Except.map]

theorem Writable.entry {f : Field} (w : f.Writable) (order : KeyOrder) (h : Header) :
    Line.Entry.ofChars (lineOf (f.orderedPairs order h)) =
      .ok (.field (declared (meaning (f.orderedPairs order h)))) :=
  (w.legible h).entry order

end Field

end ShapeLines
