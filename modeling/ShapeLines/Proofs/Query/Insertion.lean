import ShapeLines.Proofs.Arranged
import ShapeLines.Proofs.Query.Groups

/-!
# What a key path adds to a tree

Looked at from a path of keys, a key path that is declared in a tree is one of three things. It goes
on behind the path, which makes the path lead to a group that has the next key; it ends there, which
puts a leaf there unless there is a group; or it leads elsewhere, which changes nothing.
-/

namespace ShapeLines

namespace KeyTree

variable {t : KeyTree} {path names : List String} {source key : String} {segments : List Segment}

def keys (t : KeyTree) : List String :=
  t.children.map Prod.fst

/-- The keys of the group that a path of keys leads to. -/
def keysAt? (path : List String) (t : KeyTree) : Option (List String) :=
  (group? path t).map keys

/-- The source at a node, if the node is a leaf. -/
def leafOf? : Option KeyNode → Option String
  | some (.leaf source) => some source
  | _ => none

def leaf? : List String → KeyTree → Option String
  | [], _ => none
  | key :: path, t =>
    if path = [] then leafOf? (Entries.get? key t.children)
    else (groupOf? (Entries.get? key t.children)).bind (leaf? path)

/-- The key that names go on to behind a path. -/
def nextKey? : List String → List String → Option String
  | [], names => names.head?
  | _ :: _, [] => none
  | key :: path, name :: names => if key = name then nextKey? path names else none

def addKey (key : String) (keys : List String) : List String :=
  if key ∈ keys then keys else keys ++ [key]

@[simp] theorem keysAt?_nil (t : KeyTree) : keysAt? [] t = some t.keys := rfl

theorem keysAt?_cons (key : String) (path : List String) (t : KeyTree) :
    keysAt? (key :: path) t = (groupOf? (Entries.get? key t.children)).bind (keysAt? path) := by
  rw [keysAt?, group?, Option.map_bind]
  rfl

@[simp] theorem nextKey?_nil (path : List String) : nextKey? path [] = none := by
  cases path <;> rfl

theorem nextKey?_eq_some_iff : nextKey? path names = some key ↔ path ++ [key] <+: names := by
  fun_induction nextKey? path names with
  | case1 names => cases names <;> simp [List.cons_prefix_cons, eq_comm]
  | case2 => simp
  | case3 path key' names ih => simpa [List.cons_prefix_cons] using ih
  | case4 key' path name names ne => simp [List.cons_prefix_cons, ne]

/-- Names go on behind a path that is a strict prefix of them. -/
theorem isSome_nextKey? : (nextKey? path names).isSome ↔ path <+: names ∧ path ≠ names := by
  rw [Option.isSome_iff_exists]
  simp only [nextKey?_eq_some_iff]
  constructor
  · rintro ⟨key, rest, rfl⟩
    exact ⟨⟨[key] ++ rest, by simp⟩, by simp⟩
  · rintro ⟨⟨rest, rfl⟩, ne⟩
    cases rest with
    | nil => simp at ne
    | cons key rest => exact ⟨key, rest, by simp⟩

theorem map_fst_put (key : String) (change : Option KeyNode → KeyNode)
    (l : List (String × KeyNode)) :
    (put key change l).map Prod.fst = addKey key (l.map Prod.fst) := by
  induction l with
  | nil => rfl
  | cons e rest ih =>
    obtain ⟨k, node⟩ := e
    by_cases here : key = k
    · simp [put, addKey, here]
    · rw [put, if_neg here, List.map_cons, List.map_cons, ih, addKey, addKey]
      by_cases inRest : key ∈ rest.map Prod.fst
      · rw [if_pos inRest, if_pos (List.mem_cons_of_mem k inRest)]
      · rw [if_neg inRest, if_neg (by simp [here, inRest])]
        rfl

theorem leafOf?_leafOver (source : String) (old : Option KeyNode) :
    leafOf? (some (leafOver source old)) =
      if groupOf? old = none then some source else leafOf? old := by
  unfold leafOver
  split <;> simp_all [leafOf?, groupOf?]

/-! ## Opening a group -/

theorem group?_openGroup (ne : path ≠ []) (isArray : Bool) (old : Option KeyNode) :
    group? path (openGroup isArray old) = (groupOf? old).bind (group? path) := by
  rw [openGroup_eq]
  obtain ⟨key, path, rfl⟩ := List.exists_cons_of_ne_nil ne
  cases groupOf? old <;> rfl

theorem leaf?_openGroup (isArray : Bool) (old : Option KeyNode) :
    leaf? path (openGroup isArray old) = (groupOf? old).bind (leaf? path) := by
  rw [openGroup_eq]
  cases path with
  | nil => cases groupOf? old <;> rfl
  | cons key path =>
    cases groupOf? old with
    | none => simp [leaf?, Entries.get?, groupOf?, leafOf?]
    | some g => rfl

/-- A group that is opened has the keys of the node, and none if the node was no group. -/
theorem getD_keysAt?_openGroup (isArray : Bool) (old : Option KeyNode) :
    (keysAt? path (openGroup isArray old)).getD [] =
      ((groupOf? old).bind (keysAt? path)).getD [] := by
  cases path with
  | nil =>
    rw [openGroup_eq]
    cases groupOf? old <;> rfl
  | cons key path =>
    rw [keysAt?, group?_openGroup (by simp), Option.map_bind]
    rfl

/-! ## One key path -/

theorem keysAt?_insert_of_names (named : ∀ s ∈ segments, s.name ≠ "") :
    keysAt? path (insert source segments t) =
      match nextKey? path (segments.map Segment.name) with
      | none => keysAt? path t
      | some key => some (addKey key ((keysAt? path t).getD [])) := by
  induction segments generalizing path t with
  | nil => simp [insert]
  | cons s rest ih =>
    have ne := named s List.mem_cons_self
    have namedRest : ∀ r ∈ rest, r.name ≠ "" := fun r mem => named r (List.mem_cons_of_mem s mem)
    rw [insert, if_neg ne, List.map_cons]
    cases path with
    | nil => split <;> simp [nextKey?, keys, map_fst_put]
    | cons key path =>
      rw [nextKey?]
      cases rest with
      | nil =>
        by_cases same : key = s.name <;> simp [keysAt?_cons, get?_put, same, groupOf?_leafOver]
      | cons r rest =>
        simp only [keysAt?_cons, List.isEmpty_cons, Bool.false_eq_true, if_false, get?_put]
        by_cases same : key = s.name
        · rw [if_pos same, if_pos same, groupOf?_toNode, Option.bind_some, ih namedRest,
            getD_keysAt?_openGroup, ← same]
          cases next : nextKey? path ((r :: rest).map Segment.name) with
          | some key => rfl
          | none =>
            have inside : path ≠ [] := by
              rintro rfl
              cases next
            dsimp only
            rw [keysAt?, group?_openGroup inside, Option.map_bind]
            rfl
        · rw [if_neg same, if_neg same]

theorem leaf?_insert_of_names (named : ∀ s ∈ segments, s.name ≠ "") :
    leaf? path (insert source segments t) =
      if (nextKey? path (segments.map Segment.name)).isSome then none
      else if path ≠ [] ∧ path = segments.map Segment.name ∧ group? path t = none then some source
      else leaf? path t := by
  induction segments generalizing path t with
  | nil => simp +contextual [insert]
  | cons s rest ih =>
    have ne := named s List.mem_cons_self
    have namedRest : ∀ r ∈ rest, r.name ≠ "" := fun r mem => named r (List.mem_cons_of_mem s mem)
    rw [insert, if_neg ne, List.map_cons]
    cases path with
    | nil => simp [nextKey?, leaf?]
    | cons key path =>
      rw [nextKey?]
      cases rest with
      | nil =>
        by_cases same : key = s.name
        · subst same
          cases path with
          | nil => simp [leaf?, get?_put, leafOf?_leafOver, group?]
          | cons => simp [leaf?, get?_put, groupOf?_leafOver]
        · simp [leaf?, get?_put, same]
      | cons r rest =>
        simp only [leaf?, List.isEmpty_cons, Bool.false_eq_true, if_false, get?_put]
        by_cases same : key = s.name
        · subst same
          simp only [if_pos, groupOf?_toNode, Option.bind_some, ih namedRest, leaf?_openGroup]
          cases path with
          | nil => simp [nextKey?, leafOf?, toNode]
          | cons next path =>
            rw [group?_openGroup (List.cons_ne_nil next path)]
            simp [group?]
        · simp [same]

end KeyTree

end ShapeLines
