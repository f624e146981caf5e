import ShapeLines.Proofs.KeyMap
import ShapeLines.Proofs.Query.Insertion

/-!
# What a key tree holds

A key tree is described by the key paths of its fields alone. The keys that a group has are those
that some key path goes on to behind the group's path, in the order in which the fields name them
first. A leaf stands where key paths end and none goes on, and has the source of the last field.
So the order of the fields decides the order of keys and which of two sources for one key is taken,
and nothing else.
-/

namespace ShapeLines

namespace Entries

theorem get?_eq_some_iff_of_nodup {α : Type} {l : List (String × α)}
    (nodup : (l.map Prod.fst).Nodup) {key : String} {value : α} :
    get? key l = some value ↔ (key, value) ∈ l := by
  refine ⟨mem_of_get?, fun mem => ?_⟩
  induction l with
  | nil => simp at mem
  | cons e l ih =>
    obtain ⟨new, nodup⟩ := List.nodup_cons.mp nodup
    rw [get?]
    rcases List.mem_cons.mp mem with rfl | mem
    · rw [if_pos rfl]
    · rw [if_neg fun same : key = e.1 => new (same ▸ List.mem_map_of_mem mem), ih nodup mem]

end Entries

namespace Field

/-- The segments of the key path of a field that have a name. -/
def keySegments (options : KeyOptions) (f : Field) : List Segment :=
  (Fullname.segments (f.keyPath options)).filter (·.name ≠ "")

/-- The keys that lead to the leaf of a field. -/
def keyNames (options : KeyOptions) (f : Field) : List String :=
  (f.keySegments options).map Segment.name

/-- The key path of a field starts with a bare `[]`. -/
def StartsBare (options : KeyOptions) (f : Field) : Prop :=
  ∃ s ∈ (Fullname.segments (f.keyPath options)).head?, s.name = ""

/-- The field is not bound by a template, and a key path leads to its leaf. -/
def HasKey (options : KeyOptions) (f : Field) : Prop :=
  f.hasTemplate = false ∧ f.NamesKeys options

def withKeys (fields : List Field) : List Field :=
  fields.filter (!·.hasTemplate)

/-- The keys that the fields name behind a path, one for each field that names one. -/
def nextKeys (options : KeyOptions) (path : List String) (fields : List Field) : List String :=
  fields.filterMap fun f => KeyTree.nextKey? path (f.keyNames options)

end Field

namespace KeyTree

variable {t g : KeyTree} {path : List String} {key source : String} {segments : List Segment}

/-! ## Groups and leaves -/

/-- The groups of a tree with the paths of keys that lead to them. -/
inductive Group (t : KeyTree) : List String → KeyTree → Prop where
  | root : Group t [] t
  | inside {path : List String} {g : KeyTree} {key : String} {isArray : Bool}
    {children : List (String × KeyNode)} :
    Group t path g → (key, .group isArray children) ∈ g.children →
      Group t (path ++ [key]) ⟨isArray, children⟩

/-- The leaves of a tree with the paths of keys that lead to them. -/
inductive Leaf (t : KeyTree) : List String → String → Prop where
  | inside {path : List String} {g : KeyTree} {key source : String} :
    Group t path g → (key, .leaf source) ∈ g.children → Leaf t (path ++ [key]) source

theorem group?_concat (path : List String) (key : String) (t : KeyTree) :
    group? (path ++ [key]) t =
      (group? path t).bind fun g => groupOf? (Entries.get? key g.children) := by
  induction path generalizing t with
  | nil => exact Option.bind_fun_some _
  | cons first path ih =>
    rw [List.cons_append, group?, group?, Option.bind_assoc]
    exact congrArg _ (funext ih)

theorem leaf?_concat (path : List String) (key : String) (t : KeyTree) :
    leaf? (path ++ [key]) t =
      (group? path t).bind fun g => leafOf? (Entries.get? key g.children) := by
  induction path generalizing t with
  | nil => rfl
  | cons first path ih =>
    rw [List.cons_append, leaf?, if_neg (by simp), group?, Option.bind_assoc]
    exact congrArg _ (funext ih)

theorem groupOf?_eq_some_iff {node : Option KeyNode} :
    groupOf? node = some g ↔ node = some (.group g.isArray g.children) := by
  obtain ⟨isArray, children⟩ := g
  rcases node with _ | _ | _ <;> simp [groupOf?]

theorem leafOf?_eq_some_iff {node : Option KeyNode} :
    leafOf? node = some source ↔ node = some (.leaf source) := by
  rcases node with _ | _ | _ <;> simp [leafOf?]

theorem group_iff (distinct : ∀ path g, group? path t = some g → g.keys.Nodup) :
    Group t path g ↔ group? path t = some g := by
  constructor
  · intro isGroup
    induction isGroup with
    | root => rfl
    | inside outer mem ih =>
      rw [group?_concat, ih, Option.bind_some,
        (Entries.get?_eq_some_iff_of_nodup (distinct _ _ ih)).mpr mem]
      rfl
  · intro found
    induction path using List.reverseRecOn generalizing g with
    | nil =>
      cases found
      exact .root
    | append_singleton path key ih =>
      rw [group?_concat, Option.bind_eq_some_iff] at found
      obtain ⟨outer, above, node⟩ := found
      exact .inside (ih above) (Entries.mem_of_get? (groupOf?_eq_some_iff.mp node))

theorem leaf_iff (distinct : ∀ path g, group? path t = some g → g.keys.Nodup) :
    Leaf t path source ↔ leaf? path t = some source := by
  constructor
  · rintro ⟨outer, mem⟩
    have found := (group_iff distinct).mp outer
    rw [leaf?_concat, found, Option.bind_some,
      (Entries.get?_eq_some_iff_of_nodup (distinct _ _ found)).mpr mem]
    rfl
  · intro found
    rcases List.eq_nil_or_concat' path with rfl | ⟨path, key, rfl⟩
    · cases found
    · rw [leaf?_concat, Option.bind_eq_some_iff] at found
      obtain ⟨outer, above, node⟩ := found
      exact .inside ((group_iff distinct).mpr above)
        (Entries.mem_of_get? (leafOf?_eq_some_iff.mp node))

/-! ## The tree of a list of fields -/

/-- The last element with a property is one after which no element has it. -/
theorem find?_reverse_eq_some_iff {α : Type} {p : α → Bool} {l : List α} {a : α} :
    l.reverse.find? p = some a ↔
      p a = true ∧ ∃ before after, l = before ++ a :: after ∧ ∀ b ∈ after, ¬ p b = true := by
  rw [List.find?_eq_some_iff_append]
  refine and_congr_right fun _ => ?_
  constructor
  · rintro ⟨after, before, eq, none⟩
    refine ⟨before.reverse, after.reverse, ?_, by simpa using none⟩
    rw [← List.reverse_inj, eq]
    simp
  · rintro ⟨before, after, rfl, none⟩
    exact ⟨after.reverse, before.reverse, by simp, by simpa using none⟩

theorem keysAt?_with_isArray (isArray : Bool) (t : KeyTree) :
    keysAt? path { t with isArray } = keysAt? path t := by
  cases path <;> rfl

theorem leaf?_with_isArray (isArray : Bool) (t : KeyTree) :
    leaf? path { t with isArray } = leaf? path t := by
  cases path <;> rfl

theorem group?_eq_none_iff : group? path t = none ↔ keysAt? path t = none :=
  Option.map_eq_none_iff.symm

/-- If at most the first segment has no name, either it has none, or all segments have one. -/
theorem bare_or_named (named : ∀ s ∈ segments.tail, s.name ≠ "") :
    (∃ s, s.name = "" ∧ segments = s :: segments.filter (·.name ≠ "")) ∨
      segments.filter (·.name ≠ "") = segments := by
  cases segments with
  | nil => exact .inr rfl
  | cons s rest =>
    have rest' : rest.filter (·.name ≠ "") = rest :=
      List.filter_eq_self.mpr fun r mem => by simpa using named r mem
    by_cases bare : s.name = ""
    · exact .inl ⟨s, bare, by rw [List.filter_cons_of_neg (by simpa using bare), rest']⟩
    · exact .inr (by rw [List.filter_cons_of_pos (by simpa using bare), rest'])

/-- A bare hop at the start concerns the root only. -/
theorem exists_insert_eq (source : String) (t : KeyTree)
    (named : ∀ s ∈ segments.tail, s.name ≠ "") : ∃ isArray, insert source segments t =
      insert source (segments.filter (·.name ≠ "")) { t with isArray } := by
  rcases bare_or_named named with ⟨s, bare, eq⟩ | eq
  · refine ⟨true, ?_⟩
    nth_rewrite 1 [eq]
    rw [insert, if_pos bare]
  · exact ⟨t.isArray, by rw [eq]⟩

variable {direction : Direction} {coercion : Coercion} {options : KeyOptions} {f : Field}
  {fields : List Field}

theorem keysAt?_addField (hasKey : f.HasKey options) (t : KeyTree) :
    keysAt? path (addField direction coercion options t f) =
      match nextKey? path (f.keyNames options) with
      | none => keysAt? path t
      | some key => some (addKey key ((keysAt? path t).getD [])) := by
  obtain ⟨isArray, eq⟩ := exists_insert_eq (coercion.apply direction f) t hasKey.2
  rw [addField, if_neg (by simp [hasKey.1]), eq,
    keysAt?_insert_of_names fun s mem => by simpa using (List.mem_filter.mp mem).2,
    keysAt?_with_isArray]
  rfl

theorem leaf?_addField (hasKey : f.HasKey options) (t : KeyTree) :
    leaf? path (addField direction coercion options t f) =
      if (nextKey? path (f.keyNames options)).isSome then none
      else if path ≠ [] ∧ path = f.keyNames options ∧ keysAt? path t = none then
        some (coercion.apply direction f)
      else leaf? path t := by
  obtain ⟨isArray, eq⟩ := exists_insert_eq (coercion.apply direction f) t hasKey.2
  rw [addField, if_neg (by simp [hasKey.1]), eq,
    leaf?_insert_of_names fun s mem => by simpa using (List.mem_filter.mp mem).2]
  simp only [group?_eq_none_iff, keysAt?_with_isArray, leaf?_with_isArray]
  rfl

theorem nextKeys_concat (fields : List Field) (f : Field) :
    Field.nextKeys options path (fields ++ [f]) =
      Field.nextKeys options path fields ++ (nextKey? path (f.keyNames options)).toList := by
  rw [Field.nextKeys, List.filterMap_append]
  cases next : nextKey? path (f.keyNames options) <;> simp [Field.nextKeys, next]

/-- The keys of a group are those that the fields name behind its path, the first named first. -/
theorem keysAt?_ofFields (direction : Direction) (coercion : Coercion) (path : List String)
    (hasKeys : ∀ f ∈ fields, f.HasKey options) :
    keysAt? path (ofFields direction coercion options fields) =
      if path = [] ∨ Field.nextKeys options path fields ≠ [] then
        some (Field.nextKeys options path fields).eraseDups
      else none := by
  induction fields using List.reverseRecOn with
  | nil =>
    cases path <;>
      simp [ofFields, keysAt?_cons, Entries.get?, groupOf?, Field.nextKeys, keys]
  | append_singleton fields f ih =>
    have before := ih fun g mem => hasKeys g (List.mem_append_left _ mem)
    have known : (keysAt? path (ofFields direction coercion options fields)).getD [] =
        (Field.nextKeys options path fields).eraseDups := by
      rw [before]
      split
      · rfl
      · simp_all
    rw [ofFields_concat, keysAt?_addField (hasKeys f (by simp)), nextKeys_concat, known]
    cases nextKey? path (f.keyNames options) with
    | none => simpa using before
    | some key => simp [Arranged.eraseDups_concat, addKey]

/-- A leaf has the source of the last field whose key path ends there, if none goes on. -/
theorem leaf?_ofFields (hasKeys : ∀ f ∈ fields, f.HasKey options) :
    leaf? path (ofFields direction coercion options fields) =
      if path ≠ [] ∧ Field.nextKeys options path fields = [] then
        (fields.reverse.find? (·.keyNames options = path)).map (coercion.apply direction)
      else none := by
  induction fields using List.reverseRecOn with
  | nil => cases path <;> simp [ofFields, leaf?, Entries.get?, groupOf?, leafOf?]
  | append_singleton fields f ih =>
    have others : ∀ g ∈ fields, g.HasKey options := fun g mem =>
      hasKeys g (List.mem_append_left _ mem)
    rw [ofFields_concat, leaf?_addField (hasKeys f (by simp)), nextKeys_concat, ih others,
      keysAt?_ofFields direction coercion path others, List.reverse_append,
      List.reverse_singleton, List.singleton_append, List.find?_cons]
    cases nextKey? path (f.keyNames options) with
    | some key => simp
    | none =>
      by_cases here : f.keyNames options = path
      · by_cases root : path = []
        · simp [root]
        · by_cases further : Field.nextKeys options path fields = [] <;> simp [here, root, further]
      · simp [here, Ne.symm here]

theorem mem_nextKeys : key ∈ Field.nextKeys options path fields ↔
    ∃ f ∈ fields, path ++ [key] <+: f.keyNames options := by
  simp [Field.nextKeys, nextKey?_eq_some_iff]

theorem nextKeys_ne_nil_iff : Field.nextKeys options path fields ≠ [] ↔
    ∃ f ∈ fields, path <+: f.keyNames options ∧ path ≠ f.keyNames options := by
  simp only [← isSome_nextKey?]
  rw [Field.nextKeys, ne_eq, List.filterMap_eq_nil_iff]
  simp [Option.isSome_iff_ne_none]

theorem name_ne_empty_of_mem_keyNames {name : String} (mem : name ∈ f.keyNames options) :
    name ≠ "" := by
  obtain ⟨s, inSegments, rfl⟩ := List.mem_map.mp mem
  simpa using (List.mem_filter.mp inSegments).2

/-- The place of the first field whose keys start with a path. -/
def firstNaming (options : KeyOptions) (path : List String) (fields : List Field) : Nat :=
  fields.findIdx fun f => path.isPrefixOf (f.keyNames options)

theorem firstAt_eq_firstNaming (path : List String) (key : String) (fields : List Field) :
    Arranged.firstAt (fun f => nextKey? path (f.keyNames options)) key fields =
      firstNaming options (path ++ [key]) fields := by
  unfold Arranged.firstAt firstNaming
  congr
  funext f
  rw [Bool.eq_iff_iff, beq_iff_eq, nextKey?_eq_some_iff, List.isPrefixOf_iff_prefix]

/-! ## Arrays -/

theorem opens?_elements (ne : path ≠ []) (way : List Hop) :
    Way.opens? path (.elements :: way) = Way.opens? path way := by
  obtain ⟨key, path, rfl⟩ := List.exists_cons_of_ne_nil ne
  rfl

/-- A segment that a further segment follows opens the group of its name. -/
theorem opens?_hops_cons {s : Segment} {rest : List Segment}
    (named : ∀ r ∈ s :: rest, r.name ≠ "") :
    Way.opens? (key :: path) ((s :: rest).flatMap Segment.hops) =
      if s.name = key ∧ rest ≠ [] then
        if path = [] then some s.isArray else Way.opens? path (rest.flatMap Segment.hops)
      else none := by
  rw [flatMap_hops_cons (named s List.mem_cons_self), Way.opens?]
  cases rest with
  | nil => cases s.isArray <;> simp [Hop.isProperty]
  | cons r rest =>
    rw [flatMap_hops_cons (named r (by simp))]
    cases s.isArray with
    | false => cases path <;> simp [Hop.isProperty, Way.opens?]
    | true =>
      by_cases root : path = []
      · simp [Hop.isProperty, Way.opens?, root]
      · simp [Hop.isProperty, opens?_elements root, root]

/-- A way opens the groups at the strict prefixes of its keys, as arrays where it goes through
elements. -/
theorem opens?_hops_iff (named : ∀ s ∈ segments, s.name ≠ "") (ne : path ≠ []) {isArray : Bool} :
    Way.opens? path (segments.flatMap Segment.hops) = some isArray ↔
      ∃ before s after, segments = before ++ s :: after ∧ after ≠ [] ∧
        (before ++ [s]).map Segment.name = path ∧ s.isArray = isArray := by
  induction segments generalizing path with
  | nil => simp [Way.opens?]
  | cons s rest ih =>
    obtain ⟨key, path, rfl⟩ := List.exists_cons_of_ne_nil ne
    have namedRest : ∀ r ∈ rest, r.name ≠ "" := fun r mem => named r (List.mem_cons_of_mem s mem)
    rw [opens?_hops_cons named]
    constructor
    · intro opens
      split at opens
      · next same =>
        obtain ⟨rfl, further⟩ := same
        split at opens
        · next root =>
          exact ⟨[], s, rest, rfl, further, by simp [root], by simpa using opens⟩
        · next inner =>
          obtain ⟨before, s', after, rfl, further, names, array⟩ := (ih namedRest inner).mp opens
          exact ⟨s :: before, s', after, rfl, further, by simpa using names, array⟩
      · cases opens
    · rintro ⟨before, s', after, eq, further, names, array⟩
      cases before with
      | nil =>
        obtain ⟨rfl, rfl⟩ := List.cons.inj eq
        obtain ⟨rfl, rfl⟩ : s.name = key ∧ [] = path := by simpa using names
        rw [if_pos ⟨rfl, further⟩, if_pos rfl, array]
      | cons first before =>
        obtain ⟨rfl, rfl⟩ := List.cons.inj eq
        obtain ⟨rfl, below⟩ : s.name = key ∧ (before ++ [s']).map Segment.name = path := by
          simpa using names
        have inner : path ≠ [] := by
          rintro rfl
          simp at below
        rw [if_pos ⟨rfl, by simp⟩, if_neg inner]
        exact (ih namedRest inner).mpr ⟨before, s', after, rfl, further, below, array⟩

theorem name_ne_empty_of_mem_keySegments {s : Segment} (mem : s ∈ f.keySegments options) :
    s.name ≠ "" := by
  simpa using (List.mem_filter.mp mem).2

/-- The way of a key path goes along the segments that have a name, after a bare hop if the key path
starts with one. -/
theorem keyWay_cases (hasKey : f.HasKey options) :
    (f.StartsBare options ∧
      f.keyWay options = .elements :: (f.keySegments options).flatMap Segment.hops) ∨
    (¬ f.StartsBare options ∧
      f.keyWay options = (f.keySegments options).flatMap Segment.hops) := by
  unfold Field.StartsBare Field.keyWay Field.keySegments
  rcases bare_or_named hasKey.2 with ⟨s, bare, eq⟩ | eq
  · have hop := Fullname.isArray_of_mem_segments (eq ▸ List.mem_cons_self) bare
    generalize List.filter _ _ = named at eq
    refine .inl ?_
    rw [eq, List.flatMap_cons]
    simp [Segment.hops, bare, hop]
  · refine .inr ⟨?_, by rw [eq]⟩
    rintro ⟨s, head, bare⟩
    rw [← eq] at head
    exact name_ne_empty_of_mem_keySegments (List.mem_of_mem_head? head) bare

/-- What a field makes of a group is told by the segments of its key path that have a name. -/
theorem opens?_field_iff (hasKey : f.HasKey options) (ne : path ≠ []) {isArray : Bool} :
    f.opens? options path = some isArray ↔
      ∃ before s after, f.keySegments options = before ++ s :: after ∧ after ≠ [] ∧
        (before ++ [s]).map Segment.name = path ∧ s.isArray = isArray := by
  rw [← opens?_hops_iff (fun s => name_ne_empty_of_mem_keySegments) ne, Field.opens?,
    if_neg (by simp [hasKey.1])]
  rcases keyWay_cases hasKey with ⟨-, eq⟩ | ⟨-, eq⟩
  · rw [eq, opens?_elements ne]
  · rw [eq]

/-- The root is made an array by a key path that starts with a bare hop. -/
theorem opens?_root_iff (hasKey : f.HasKey options) :
    f.opens? options [] = some true ↔ f.StartsBare options := by
  rw [Field.opens?, if_neg (by simp [hasKey.1])]
  rcases keyWay_cases hasKey with ⟨bare, eq⟩ | ⟨noBare, eq⟩
  · simp [eq, Way.opens?, bare]
  · rw [eq, iff_false_right noBare]
    cases named : f.keySegments options with
    | nil => simp [Way.opens?]
    | cons s rest =>
      have inKeys : s ∈ f.keySegments options := by simp [named]
      have ne := name_ne_empty_of_mem_keySegments inKeys
      rw [flatMap_hops_cons ne]
      simp [Way.opens?]

/-! ## The whole tree -/

/-- What a key tree holds, told by the key paths of its fields alone. -/
structure IsMadeOf (options : KeyOptions) (source : Field → String) (fields : List Field)
    (t : KeyTree) : Prop where
  distinct : ∀ path g, Group t path g → g.keys.Nodup
  named : ∀ path g, Group t path g → "" ∉ g.keys
  /-- A leaf stands where a key path ends and none goes on. Its source is that of the last field
  whose key path ends there. -/
  leaf_iff : ∀ path s, Leaf t path s ↔ path ≠ [] ∧ ∃ before f after,
    fields = before ++ f :: after ∧ f.keyNames options = path ∧ s = source f ∧
      (∀ g ∈ after, g.keyNames options ≠ path) ∧
      ∀ g ∈ fields, path <+: g.keyNames options → path = g.keyNames options
  group_iff : ∀ path, path ≠ [] → ((∃ g, Group t path g) ↔
    ∃ f ∈ fields, path <+: f.keyNames options ∧ path ≠ f.keyNames options)
  array_iff : ∀ path g, path ≠ [] → Group t path g → (g.isArray = true ↔
    ∃ f ∈ fields, ∃ before s after, f.keySegments options = before ++ s :: after ∧ after ≠ [] ∧
      (before ++ [s]).map Segment.name = path ∧ s.isArray = true)
  root_iff : t.isArray = true ↔ ∃ f ∈ fields, f.StartsBare options
  ordered : ∀ path g, Group t path g → g.keys.Pairwise fun a b =>
    firstNaming options (path ++ [a]) fields < firstNaming options (path ++ [b]) fields

theorem keys_eq_of_group? (hasKeys : ∀ f ∈ fields, f.HasKey options)
    (found : group? path (ofFields direction coercion options fields) = some g) :
    g.keys = (Field.nextKeys options path fields).eraseDups := by
  have keys := keysAt?_ofFields direction coercion path hasKeys
  rw [keysAt?, found, Option.map_some] at keys
  split at keys
  · exact Option.some.inj keys
  · cases keys

theorem exists_group?_iff (hasKeys : ∀ f ∈ fields, f.HasKey options) (ne : path ≠ []) :
    (∃ g, group? path (ofFields direction coercion options fields) = some g) ↔
      ∃ f ∈ fields, path <+: f.keyNames options ∧ path ≠ f.keyNames options := by
  have keys := keysAt?_ofFields direction coercion path hasKeys
  rw [← nextKeys_ne_nil_iff, ← Option.ne_none_iff_exists', ne_eq, group?_eq_none_iff, keys]
  simp [ne]

theorem isArray_iff_of_group? (hasKeys : ∀ f ∈ fields, f.HasKey options)
    (found : group? path (ofFields direction coercion options fields) = some g) :
    g.isArray = true ↔ ∃ f ∈ fields, f.opens? options path = some true := by
  have array : arrayAt? path (ofFields direction coercion options fields) = some g.isArray := by
    rw [arrayAt?, found, Option.map_some]
  rw [← arrayAt?_ofFields_eq_true fun f mem _ => (hasKeys f mem).2, array, Option.some_inj]

theorem leaf?_ofFields_eq_some_iff (hasKeys : ∀ f ∈ fields, f.HasKey options) {s : String} :
    leaf? path (ofFields direction coercion options fields) = some s ↔
      path ≠ [] ∧ ∃ before f after, fields = before ++ f :: after ∧ f.keyNames options = path ∧
        s = coercion.apply direction f ∧ (∀ g ∈ after, g.keyNames options ≠ path) ∧
        ∀ g ∈ fields, path <+: g.keyNames options → path = g.keyNames options := by
  have last : Field.nextKeys options path fields = [] ↔
      ∀ g ∈ fields, path <+: g.keyNames options → path = g.keyNames options := by
    simpa using not_congr nextKeys_ne_nil_iff
  rw [leaf?_ofFields hasKeys, Option.ite_none_right_eq_some, last, Option.map_eq_some_iff]
  simp only [find?_reverse_eq_some_iff, decide_eq_true_eq]
  constructor
  · rintro ⟨⟨ne, ends⟩, f, ⟨here, before, after, eq, later⟩, rfl⟩
    exact ⟨ne, before, f, after, eq, here, rfl, later, ends⟩
  · rintro ⟨ne, before, f, after, eq, here, rfl, later, ends⟩
    exact ⟨⟨ne, ends⟩, f, ⟨here, before, after, eq, later⟩, rfl⟩

theorem isMadeOf_of_hasKey (hasKeys : ∀ f ∈ fields, f.HasKey options) :
    IsMadeOf options (coercion.apply direction) fields
      (ofFields direction coercion options fields) := by
  have distinct : ∀ path g, group? path (ofFields direction coercion options fields) = some g →
      g.keys.Nodup := fun path g found => by
    rw [keys_eq_of_group? hasKeys found]
    exact Arranged.nodup_eraseDups _
  have isGroup {path : List String} {g : KeyTree} :
      Group (ofFields direction coercion options fields) path g ↔
        group? path (ofFields direction coercion options fields) = some g := group_iff distinct
  refine ⟨fun path g group => distinct path g (isGroup.mp group), fun path g group empty => ?_,
    fun path s => ?_, fun path ne => ?_, fun path g ne group => ?_, ?_, fun path g group => ?_⟩
  · rw [keys_eq_of_group? hasKeys (isGroup.mp group), List.mem_eraseDups, mem_nextKeys] at empty
    obtain ⟨f, -, starts⟩ := empty
    exact name_ne_empty_of_mem_keyNames (starts.subset (by simp)) rfl
  · rw [leaf_iff distinct, leaf?_ofFields_eq_some_iff hasKeys]
  · simp only [isGroup, exists_group?_iff hasKeys ne]
  · rw [isArray_iff_of_group? hasKeys (isGroup.mp group)]
    exact exists_congr fun f => and_congr_right fun mem => opens?_field_iff (hasKeys f mem) ne
  · rw [isArray_iff_of_group? hasKeys (isGroup.mp .root)]
    exact exists_congr fun f => and_congr_right fun mem => opens?_root_iff (hasKeys f mem)
  · have sorted := Arranged.pairwise_eraseDups
      (fun f => nextKey? path (Field.keyNames options f)) fields
    simp only [firstAt_eq_firstNaming] at sorted
    rwa [keys_eq_of_group? hasKeys (isGroup.mp group)]

theorem ofFields_withKeys (fields : List Field) :
    ofFields direction coercion options (Field.withKeys fields) =
      ofFields direction coercion options fields := by
  rw [ofFields, ofFields, Field.withKeys, List.foldl_filter]
  congr
  funext t f
  cases template : f.hasTemplate <;> simp [addField, template]

/-- The tree of a list of fields, in which fields that are bound by a template count for nothing and
the key paths of all others have names after the first segment, is told by these key paths. -/
theorem isMadeOf_ofFields
    (names : ∀ f ∈ fields, f.hasTemplate = false → f.NamesKeys options) :
    IsMadeOf options (coercion.apply direction) (Field.withKeys fields)
      (ofFields direction coercion options fields) := by
  rw [← ofFields_withKeys]
  refine isMadeOf_of_hasKey fun f mem => ?_
  obtain ⟨inFields, keyed⟩ := List.mem_filter.mp mem
  have noTemplate : f.hasTemplate = false := by simpa using keyed
  exact ⟨noTemplate, names f inFields noTemplate⟩

/-- Items of which the rows are declared as a leaf before and after they get keys inside, with a
total that is declared twice and a note that is bound by a template. -/
def rowFields : List Field :=
  [{ fullname := "rows", src := "R", dst := "out.rows" },
   { fullname := "total", src := "count", dst := "out.total" },
   { fullname := "rows[].id", src := "R.#.id", dst := "out.rows.#.id" },
   { fullname := "note", src := "\x7b\x7bnote\x7d\x7d", dst := "out.note.#.#.x" },
   { fullname := "total", src := "R.#", dst := "out.total" },
   { fullname := "rows", src := "S", dst := "out.rows" }]

theorem isMadeOf_ofFields_rows :
    (∀ f ∈ rowFields, f.hasTemplate = false → f.NamesKeys ⟨some "out"⟩) ∧
    ∃ t, ofFields .outbound .byFormat ⟨some "out"⟩ rowFields = t ∧
      IsMadeOf ⟨some "out"⟩ (Coercion.byFormat.apply .outbound) (Field.withKeys rowFields) t ∧
      t.children = [("rows", .group true [("id", .leaf "R.#.id.@tostring")]),
        ("total", .leaf "R.#.@tostring")] := by
  have names : ∀ f ∈ rowFields, f.hasTemplate = false → f.NamesKeys ⟨some "out"⟩ := by
    unfold Field.NamesKeys
    decide
  exact ⟨names, _, rfl, isMadeOf_ofFields names, rfl⟩

end KeyTree

end ShapeLines
