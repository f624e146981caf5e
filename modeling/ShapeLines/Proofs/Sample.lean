import ShapeLines.Sample

/-!
# The leaves of a sample

The leaves of a value are its texts, numbers and truth values with their places, in the order in
which a walk meets them. They are read off the value without regard to what has been met before. The
fields of a sample are the leaves that are the first at their place. Places can be the same also
without an array, as a name may be empty or hold a dot or brackets.
-/

namespace ShapeLines

namespace Sample

/-- A scalar and its place. -/
structure Leaf where
  place : String
  value : Json

namespace Leaf

def format? (leaf : Leaf) : Option String :=
  match leaf.value with
  | .num _ => some "number"
  | .bool _ => some "bool"
  | _ => none

/-- The field of a leaf before its bindings are filled in. -/
def unbound (leaf : Leaf) : Field :=
  fieldOf leaf.place leaf.format? leaf.value.plainText

/-- The field of a leaf: its destination is its place, its source the implied one. -/
def field (leaf : Leaf) : Field where
  fullname := leaf.place
  type := .scalar .string
  format := leaf.format?
  exampleText := some leaf.value.plainText
  src := impliedBinding "example" leaf.place
  dst := leaf.place

end Leaf

mutual

/-- The scalars of the value at `place`. Members come in the order in which the value holds them,
which is that of their keys. -/
def scalars (place : String) : Json → List Leaf
  | .null => []
  | .bool b => [⟨place, .bool b⟩]
  | .num n => [⟨place, .num n⟩]
  | .str s => [⟨place, .str s⟩]
  | .arr elements => elementScalars (Fullname.element place) elements
  | .obj members => memberScalars place members

def elementScalars (place : String) : List Json → List Leaf
  | [] => []
  | v :: rest => scalars place v ++ elementScalars place rest

def memberScalars (place : String) : List (String × Json) → List Leaf
  | [] => []
  | (name, v) :: rest => scalars (Fullname.join place name) v ++ memberScalars place rest

end

/-- The scalars of a value whose places have fullnames that are not empty. -/
def leaves (v : Json) : List Leaf :=
  (scalars "" v).filter (·.place ≠ "")

/-- The leaves that are the first at their place. -/
def firsts : List Leaf → List Leaf
  | [] => []
  | leaf :: rest => leaf :: (firsts rest).filter (·.place ≠ leaf.place)

/-! ## First leaves -/

variable {l : List Leaf} {leaf : Leaf}

theorem mem_of_mem_firsts (mem : leaf ∈ firsts l) : leaf ∈ l := by
  induction l with
  | nil => exact mem
  | cons first rest ih =>
    rcases List.mem_cons.mp mem with rfl | later
    · exact List.mem_cons_self
    · exact List.mem_cons_of_mem first (ih (List.mem_filter.mp later).1)

theorem nodup_firsts (l : List Leaf) : ((firsts l).map Leaf.place).Nodup := by
  induction l with
  | nil => exact List.nodup_nil
  | cons first rest ih =>
    rw [firsts, List.map_cons, List.nodup_cons]
    refine ⟨fun twice => ?_, ih.sublist (List.filter_sublist.map Leaf.place)⟩
    obtain ⟨later, mem, same⟩ := List.mem_map.mp twice
    simpa [same] using (List.mem_filter.mp mem).2

theorem place_mem_firsts (mem : leaf ∈ l) : leaf.place ∈ (firsts l).map Leaf.place := by
  induction l with
  | nil => cases mem
  | cons first rest ih =>
    rw [firsts, List.map_cons, List.mem_cons]
    by_cases same : leaf.place = first.place
    · exact .inl same
    · have later := (List.mem_cons.mp mem).resolve_left fun eq => same (congrArg Leaf.place eq)
      obtain ⟨other, inFirsts, place⟩ := List.mem_map.mp (ih later)
      refine .inr (List.mem_map.mpr ⟨other, List.mem_filter.mpr ⟨inFirsts, ?_⟩, place⟩)
      simpa [place] using same

/-! ## The walk -/

def meetLeaf (found : List Field) (leaf : Leaf) : List Field :=
  meet leaf.place leaf.format? leaf.value found

theorem meetLeaf_eq (found : List Field) (leaf : Leaf) : meetLeaf found leaf =
    if leaf.place = "" ∨ leaf.place ∈ found.map (·.fullname) then found
    else found ++ [leaf.unbound] := by
  simp [meetLeaf, meet, Leaf.unbound]

/-- The leaves that are met for the first time are found. -/
theorem foldl_meetLeaf (l : List Leaf) (found : List Field) : l.foldl meetLeaf found =
    found ++ ((firsts (l.filter (·.place ≠ ""))).filter
      (·.place ∉ found.map (·.fullname))).map Leaf.unbound := by
  induction l generalizing found with
  | nil => simp [firsts]
  | cons leaf l ih =>
    rw [List.foldl_cons, ih, meetLeaf_eq]
    by_cases root : leaf.place = ""
    · simp [root]
    · rw [List.filter_cons_of_pos (by simpa using root), firsts]
      by_cases known : leaf.place ∈ found.map (·.fullname)
      · rw [if_pos (.inr known), List.filter_cons_of_neg (by simpa using known), List.filter_filter]
        congr 2
        refine List.filter_congr fun other _ => ?_
        by_cases same : other.place = leaf.place
        · simp [same, known]
        · simp [same]
      · rw [if_neg (by simp [root, known]), List.filter_cons_of_pos (by simpa using known),
          List.filter_filter, List.map_cons, List.append_assoc, List.singleton_append]
        congr 3
        refine List.filter_congr fun other _ => ?_
        simp [Leaf.unbound, fieldOf, Bool.and_comm]

mutual

/-- The walk through a value meets its scalars one after the other. -/
theorem walk_eq_foldl (place : String) (found : List Field) :
    ∀ v : Json, walk place found v = (scalars place v).foldl meetLeaf found
  | .null => rfl
  | .bool _ => rfl
  | .num _ => rfl
  | .str _ => rfl
  | .arr elements => walkElements_eq_foldl (Fullname.element place) found elements
  | .obj members => walkMembers_eq_foldl place found members

theorem walkElements_eq_foldl (place : String) (found : List Field) : ∀ elements : List Json,
    walkElements place found elements = (elementScalars place elements).foldl meetLeaf found
  | [] => rfl
  | v :: rest => by
    rw [walkElements, elementScalars, List.foldl_append, ← walk_eq_foldl place found v]
    exact walkElements_eq_foldl place (walk place found v) rest

theorem walkMembers_eq_foldl (place : String) (found : List Field) :
    ∀ members : List (String × Json),
      walkMembers place found members = (memberScalars place members).foldl meetLeaf found
  | [] => rfl
  | (name, v) :: rest => by
    rw [walkMembers, memberScalars, List.foldl_append,
      ← walk_eq_foldl (Fullname.join place name) found v]
    exact walkMembers_eq_foldl place (walk (Fullname.join place name) found v) rest

end

theorem walk_eq_firsts (v : Json) : walk "" [] v = (firsts (leaves v)).map Leaf.unbound := by
  rw [walk_eq_foldl, foldl_meetLeaf, List.nil_append, List.filter_eq_self.mpr (by simp)]
  rfl

theorem ne_of_mem_leaves {v : Json} (mem : leaf ∈ leaves v) : leaf.place ≠ "" := by
  simpa using (List.mem_filter.mp mem).2

theorem Leaf.bindInPlace_unbound (ne : leaf.place ≠ "") :
    leaf.unbound.bindInPlace "example" = leaf.field := by
  simp [unbound, field, fieldOf, Field.bindInPlace, Field.fillBindings, ne]

end Sample

namespace Shape

open Sample (Leaf leaves firsts)

/-- The fields of a sample are its first leaves, in order. So no two have one fullname, and the place
of every leaf is the fullname of one. -/
theorem fields_ofSample (v : Json) :
    (ofSample v).fields = (firsts (leaves v)).map Leaf.field ∧
    ((ofSample v).fields.map (·.fullname)).Nodup ∧
    ∀ leaf ∈ leaves v, leaf.place ∈ (ofSample v).fields.map (·.fullname) := by
  have fields : (ofSample v).fields = (firsts (leaves v)).map Leaf.field := by
    rw [ofSample, Sample.walk_eq_firsts, List.map_map]
    refine List.map_congr_left fun leaf mem => ?_
    exact Leaf.bindInPlace_unbound (Sample.ne_of_mem_leaves (Sample.mem_of_mem_firsts mem))
  have fullnames : (ofSample v).fields.map (·.fullname) = (firsts (leaves v)).map Leaf.place := by
    rw [fields, List.map_map]
    rfl
  rw [fullnames]
  exact ⟨fields, Sample.nodup_firsts (leaves v), fun leaf => Sample.place_mem_firsts⟩

/-- A sample with empty and dotted names, elements that differ and nothing at some places. -/
def mixedSample : Json :=
  .obj [("", .obj [("", .str "lost"), ("k", .bool true)]),
    ("a", .arr [.obj [("id", .str "x"), ("more", .arr [])], .null, .str "s",
      .obj [("id", .num (.int 2 (by decide)))], .arr [.num (.int 7 (by decide))]]),
    ("a[]", .bool false), ("a[].id", .str "late")]

theorem fields_ofSample_mixed :
    (ofSample mixedSample).fields =
      [{ fullname := "k", format := some "bool", exampleText := some "true", src := "example.k",
         dst := "k" },
       { fullname := "a[].id", exampleText := some "x", src := "example.a.#.id", dst := "a[].id" },
       { fullname := "a[]", exampleText := some "s", src := "example.a.#", dst := "a[]" },
       { fullname := "a[][]", format := some "number", exampleText := some "7",
         src := "example.a.#.#", dst := "a[][]" }] ∧
    (⟨"a[].id", .str "late"⟩ : Leaf) ∈ leaves mixedSample ∧
    "a[].id" ∈ (ofSample mixedSample).fields.map (·.fullname) := by
  obtain ⟨fields, -, every⟩ := fields_ofSample mixedSample
  have late : (⟨"a[].id", .str "late"⟩ : Leaf) ∈ leaves mixedSample := by
    simp [leaves, mixedSample, Sample.scalars, Sample.memberScalars, Sample.elementScalars,
      Fullname.join, Fullname.element]
  refine ⟨?_, late, every _ late⟩
  rw [fields]
  decide +kernel

end Shape

end ShapeLines
