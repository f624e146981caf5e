import Mathlib.Data.List.Induction
import ShapeLines.Query.KeyTree
import ShapeLines.Proofs.Fullname.Enclosing
import ShapeLines.Proofs.Schema.Growth

/-!
# The groups of a key tree

Declaring a key path opens a group at each place that the path goes on to a key from, and makes the
group an array if the path goes through elements there. No other group changes. So a tree has the
groups that some key path opens, whatever the order of the fields, and a group is an array exactly
if some key path makes it one.
-/

namespace ShapeLines

def Fullname.keys (fullname : String) : List String :=
  ((segments fullname).map Segment.name).filter (· ≠ "")

def Hop.isProperty : Hop → Bool
  | .property _ => true
  | .elements => false

/-- What a way says of the group at the given keys: whether the group is an array. A way says
nothing of keys that it does not go through on to a further key. -/
def Way.opens? : List String → List Hop → Option Bool
  | _, [] => none
  | [], .elements :: _ => some true
  | [], .property _ :: _ => some false
  | key :: keys, .elements :: way => opens? (key :: keys) way
  | key :: keys, .property name :: way =>
    if name = key ∧ way.any Hop.isProperty then opens? keys way else none

namespace Way

variable {way u : List Hop} {isArray : Bool}

def keys (way : List Hop) : List String :=
  way.filterMap fun
    | .property name => some name
    | .elements => none

theorem keys_place (regular : Regular way) : Fullname.keys (place way) = keys way := by
  rw [Fullname.keys, regular.segments_place]
  have named := regular.named
  clear regular
  fun_induction segments way with
  | case1 => rfl
  | case2 way ih => exact ih (named.of_append_right (u := [_]))
  | case3 name way ih =>
    have ne := (named name List.mem_cons_self).1
    simpa [keys, ne] using ih (named.of_append_right (u := [_, _]))
  | case4 name way _ ih =>
    have ne := (named name List.mem_cons_self).1
    simpa [keys, ne] using ih (named.of_append_right (u := [_]))

theorem opens?_append (key : String) (keys' : List String) (u : List Hop)
    (further : way.any Hop.isProperty = true) :
    opens? (keys u ++ key :: keys') (u ++ way) = opens? (key :: keys') way := by
  induction u with
  | nil => rfl
  | cons hop u ih =>
    have further' : (u ++ way).any Hop.isProperty = true := by
      rw [List.any_append, further, Bool.or_true]
    cases hop with
    | property name =>
      change opens? (name :: (keys u ++ key :: keys')) (.property name :: (u ++ way)) = _
      rw [opens?, if_pos ⟨rfl, further'⟩, ih]
    | elements =>
      have names : keys (.elements :: u) = keys u := rfl
      obtain ⟨first, others, eq⟩ := List.exists_cons_of_ne_nil
        (show keys u ++ key :: keys' ≠ [] by simp)
      rw [names, List.cons_append, ← ih, eq, opens?]

/-- What is said of the group of a property is what stands right behind the property. -/
theorem opens?_property (v : List Hop) (key : String) {rest : List Hop}
    (further : rest.any Hop.isProperty = true) :
    opens? (keys (v ++ [.property key])) (v ++ [.property key] ++ rest) = opens? [] rest := by
  have names : keys (v ++ [.property key]) = keys v ++ [key] := by simp [keys]
  rw [names, List.append_assoc, opens?_append key [] v (by simp [Hop.isProperty])]
  simp [opens?, further]

/-- A way opens the group of a container around its place, as what the container is. -/
theorem Container.opens?_eq (container : Container way u isArray) (regular : Regular way) :
    Way.opens? (keys u) way = some isArray := by
  cases container with
  | @array name r eq =>
    subst eq
    rcases List.eq_nil_or_concat' u with rfl | ⟨v, hop, rfl⟩
    · rfl
    · cases hop with
      | elements => exact absurd ⟨v, .property name :: r, by simp⟩ regular.apart
      | property key =>
        rw [opens?_property v key rfl]
        rfl
  | @object v key name r last eq =>
    subst eq last
    rw [opens?_property v key rfl]
    rfl

/-- Two fields that demand the same of every place they both go through say the same of every group
they both open. -/
theorem opens?_unique {f g : Field} {l m : List Hop} {keys : List String} {a b : Bool}
    (agree : ∀ u r s, u ++ r = l → u ++ s = m → f.demand r = g.demand s)
    (opensL : opens? keys l = some a) (opensM : opens? keys m = some b) : a = b := by
  induction l generalizing keys m with
  | nil => cases keys <;> simp [opens?] at opensL
  | cons h l ih =>
    cases m with
    | nil => cases keys <;> simp [opens?] at opensM
    | cons h' m =>
      have start : h.holder = h'.holder := agree [] _ _ rfl rfl
      have further (same : h = h') : ∀ u r s, u ++ r = l → u ++ s = m → f.demand r = g.demand s :=
        fun u r s eqL eqM => agree (h :: u) r s (by rw [List.cons_append, eqL])
          (by rw [List.cons_append, eqM, same])
      cases h with
      | elements =>
        cases h' with
        | property => contradiction
        | elements =>
          cases keys with
          | nil => cases opensL; cases opensM; rfl
          | cons key keys => exact ih (further rfl) opensL opensM
      | property name =>
        cases h' with
        | elements => contradiction
        | property name' =>
          cases keys with
          | nil => cases opensL; cases opensM; rfl
          | cons key keys =>
            rw [opens?, Option.ite_none_right_eq_some] at opensL opensM
            have same : name = name' := opensL.1.1.trans opensM.1.1.symm
            exact ih (further (by rw [same])) opensL.2 opensM.2

end Way

namespace KeyTree

variable {t : KeyTree} {keys : List String} {source key : String} {segments : List Segment}

/-- The group at a node, if the node is one. -/
def groupOf? : Option KeyNode → Option KeyTree
  | some (.group isArray children) => some ⟨isArray, children⟩
  | _ => none

def group? : List String → KeyTree → Option KeyTree
  | [], t => some t
  | key :: keys, t => (groupOf? (Entries.get? key t.children)).bind (group? keys)

/-- Whether the group that a path of keys leads to is an array. -/
def arrayAt? (keys : List String) (t : KeyTree) : Option Bool :=
  (group? keys t).map isArray

theorem get?_put (key other : String) (change : Option KeyNode → KeyNode)
    (l : List (String × KeyNode)) :
    Entries.get? other (put key change l) =
      if other = key then some (change (Entries.get? key l)) else Entries.get? other l := by
  induction l with
  | nil => simp [put, Entries.get?]
  | cons e rest ih =>
    obtain ⟨k, node⟩ := e
    by_cases here : key = k
    · subst here
      by_cases same : other = key <;> simp [put, Entries.get?, same]
    · by_cases same : other = key
      · subst same
        simp [put, Entries.get?, here, ih]
      · simp [put, Entries.get?, here, ih, same]

@[simp] theorem arrayAt?_nil (t : KeyTree) : arrayAt? [] t = some t.isArray := rfl

theorem arrayAt?_cons (key : String) (keys : List String) (t : KeyTree) :
    arrayAt? (key :: keys) t =
      (groupOf? (Entries.get? key t.children)).bind (arrayAt? keys) := by
  rw [arrayAt?, group?, Option.map_bind]
  rfl

/-- A leaf leaves the group at its key as it is. -/
theorem groupOf?_leafOver (source : String) (old : Option KeyNode) :
    groupOf? (some (leafOver source old)) = groupOf? old := by
  unfold leafOver
  split <;> simp_all [groupOf?]

theorem groupOf?_toNode (t : KeyTree) : groupOf? (some t.toNode) = some t := rfl

theorem openGroup_eq (isArray : Bool) (old : Option KeyNode) :
    openGroup isArray old =
      { (groupOf? old).getD {} with isArray := ((groupOf? old).getD {}).isArray || isArray } := by
  unfold openGroup groupOf?
  split <;> simp_all

/-- Opening a group at a node, and going on from it, merges what the node was with what the way says
from the node on. -/
theorem merge_arrayAt?_openGroup (isArray : Bool) (old : Option KeyNode) {name : String}
    {way rest : List Hop} (start : way = .property name :: rest) :
    Option.merge or (arrayAt? keys (openGroup isArray old)) (Way.opens? keys way) =
      Option.merge or ((groupOf? old).bind (arrayAt? keys))
        (Way.opens? keys ((if isArray then [.elements] else []) ++ way)) := by
  subst start
  rw [openGroup_eq]
  cases keys with
  | nil => cases groupOf? old <;> cases isArray <;> simp [Way.opens?]
  | cons key keys =>
    have opens : Way.opens? (key :: keys) ((if isArray then [.elements] else []) ++
        .property name :: rest) = Way.opens? (key :: keys) (.property name :: rest) := by
      cases isArray <;> simp [Way.opens?]
    rw [opens]
    cases groupOf? old with
    | none => simp [arrayAt?_cons, Entries.get?, groupOf?]
    | some g => simp [arrayAt?_cons]

theorem flatMap_hops_cons {s : Segment} (ne : s.name ≠ "") (rest : List Segment) :
    (s :: rest).flatMap Segment.hops = .property s.name ::
      ((if s.isArray then [.elements] else []) ++ rest.flatMap Segment.hops) := by
  simp [Segment.hops, ne]

theorem arrayAt?_insert_of_names (names : ∀ s ∈ segments, s.name ≠ "") :
    arrayAt? keys (insert source segments t) =
      Option.merge or (arrayAt? keys t) (Way.opens? keys (segments.flatMap Segment.hops)) := by
  induction segments generalizing keys t with
  | nil => simp [insert, Way.opens?]
  | cons s rest ih =>
    have ne := names s List.mem_cons_self
    have namesRest : ∀ r ∈ rest, r.name ≠ "" := fun r mem => names r (List.mem_cons_of_mem s mem)
    rw [insert, if_neg ne, flatMap_hops_cons ne]
    cases keys with
    | nil => split <;> simp [Way.opens?]
    | cons key keys =>
      rw [Way.opens?]
      cases rest with
      | nil =>
        -- a leaf opens nothing
        have leaf : (if s.isArray then [Hop.elements] else []).any Hop.isProperty = false := by
          cases s.isArray <;> rfl
        by_cases same : key = s.name
        · simp [arrayAt?_cons, get?_put, same, groupOf?_leafOver, leaf]
        · simp [arrayAt?_cons, get?_put, same, leaf]
      | cons r rest =>
        have start := flatMap_hops_cons (namesRest r List.mem_cons_self) rest
        have further : ((if s.isArray then [Hop.elements] else []) ++
            (r :: rest).flatMap Segment.hops).any Hop.isProperty = true := by
          rw [start]
          cases s.isArray <;> rfl
        simp only [arrayAt?_cons, List.isEmpty_cons, Bool.false_eq_true, if_false, get?_put,
          further, and_true]
        by_cases same : key = s.name
        · rw [if_pos same, if_pos same.symm, groupOf?_toNode, Option.bind_some, ih namesRest,
            merge_arrayAt?_openGroup s.isArray _ start, same]
        · rw [if_neg same, if_neg (Ne.symm same), Option.merge_none_right]

/-- Declaring a key path says of every group what its way says, and nothing else. -/
theorem arrayAt?_insert (hop : ∀ s ∈ segments, s.name = "" → s.isArray = true)
    (names : ∀ s ∈ segments.tail, s.name ≠ "") :
    arrayAt? keys (insert source segments t) =
      Option.merge or (arrayAt? keys t) (Way.opens? keys (segments.flatMap Segment.hops)) := by
  cases segments with
  | nil => simp [insert, Way.opens?]
  | cons s rest =>
    by_cases bare : s.name = ""
    · have isArray := hop s List.mem_cons_self bare
      have hops : (s :: rest).flatMap Segment.hops = .elements :: rest.flatMap Segment.hops := by
        simp [Segment.hops, bare, isArray]
      have namesRest : ∀ r ∈ rest, r.name ≠ "" := names
      rw [insert, if_pos bare, arrayAt?_insert_of_names namesRest, hops]
      cases keys with
      | nil =>
        cases rest.flatMap Segment.hops with
        | nil => simp [Way.opens?]
        | cons h way => cases h <;> simp [Way.opens?]
      | cons key keys => rfl
    · refine arrayAt?_insert_of_names fun r mem => ?_
      rcases List.mem_cons.mp mem with rfl | mem
      · exact bare
      · exact names r mem

end KeyTree

namespace Field

variable {options : KeyOptions} {f : Field}

def keyWay (options : KeyOptions) (f : Field) : List Hop :=
  (Fullname.segments (f.keyPath options)).flatMap Segment.hops

/-- Whether a field makes the group at the given keys an array, if it has a key and opens the group.
-/
def opens? (options : KeyOptions) (keys : List String) (f : Field) : Option Bool :=
  if f.hasTemplate then none else Way.opens? keys (f.keyWay options)

/-- Only the first segment of the key path can be a bare `[]`. -/
def NamesKeys (options : KeyOptions) (f : Field) : Prop :=
  ∀ s ∈ (Fullname.segments (f.keyPath options)).tail, s.name ≠ ""

end Field

namespace KeyTree

variable {direction : Direction} {coercion : Coercion} {options : KeyOptions} {fields : List Field}
  {keys : List String}

theorem arrayAt?_addField (t : KeyTree) {f : Field}
    (names : f.hasTemplate = false → f.NamesKeys options) :
    arrayAt? keys (addField direction coercion options t f) =
      Option.merge or (arrayAt? keys t) (f.opens? options keys) := by
  unfold addField Field.opens?
  cases template : f.hasTemplate with
  | true => simp
  | false =>
    rw [if_neg Bool.false_ne_true, if_neg Bool.false_ne_true]
    exact arrayAt?_insert (fun _ mem => Fullname.isArray_of_mem_segments mem) (names template)

theorem ofFields_concat (fields : List Field) (f : Field) :
    ofFields direction coercion options (fields ++ [f]) =
      addField direction coercion options (ofFields direction coercion options fields) f := by
  rw [ofFields, List.foldl_append]
  rfl

/-- A tree has the groups that its fields open, and its root. -/
theorem isSome_arrayAt?_ofFields
    (names : ∀ f ∈ fields, f.hasTemplate = false → f.NamesKeys options) :
    (arrayAt? keys (ofFields direction coercion options fields)).isSome ↔
      keys = [] ∨ ∃ f ∈ fields, (f.opens? options keys).isSome := by
  induction fields using List.reverseRecOn with
  | nil => cases keys <;> simp [ofFields, arrayAt?_cons, Entries.get?, groupOf?]
  | append_singleton fields f ih =>
    have before := ih fun g mem => names g (List.mem_append_left _ mem)
    rw [ofFields_concat, arrayAt?_addField _ (names f (by simp)), Option.isSome_merge,
      Bool.or_eq_true, before]
    simp [or_assoc, or_and_right, exists_or]

/-- A group is an array exactly if a field makes it one. -/
theorem arrayAt?_ofFields_eq_true
    (names : ∀ f ∈ fields, f.hasTemplate = false → f.NamesKeys options) :
    arrayAt? keys (ofFields direction coercion options fields) = some true ↔
      ∃ f ∈ fields, f.opens? options keys = some true := by
  induction fields using List.reverseRecOn with
  | nil => cases keys <;> simp [ofFields, arrayAt?_cons, Entries.get?, groupOf?]
  | append_singleton fields f ih =>
    have before := ih fun g mem => names g (List.mem_append_left _ mem)
    have either (a b : Option Bool) :
        Option.merge or a b = some true ↔ a = some true ∨ b = some true := by
      rcases a with _ | _ | _ <;> rcases b with _ | _ | _ <;> decide
    rw [ofFields_concat, arrayAt?_addField _ (names f (by simp)), either, before]
    simp [or_and_right, exists_or]

/-- What a field says of a group holds of the tree, if all fields that open the group say it. -/
theorem arrayAt?_ofFields_of_opens
    (names : ∀ f ∈ fields, f.hasTemplate = false → f.NamesKeys options) {f : Field} {isArray : Bool}
    (mem : f ∈ fields) (opens : f.opens? options keys = some isArray)
    (alike : ∀ g ∈ fields, ∀ b, g.opens? options keys = some b → b = isArray) :
    arrayAt? keys (ofFields direction coercion options fields) = some isArray := by
  have exists' : (arrayAt? keys (ofFields direction coercion options fields)).isSome :=
    (isSome_arrayAt?_ofFields names).mpr (.inr ⟨f, mem, by rw [opens]; rfl⟩)
  obtain ⟨b, at'⟩ := Option.isSome_iff_exists.mp exists'
  cases isArray with
  | true => exact (arrayAt?_ofFields_eq_true names).mpr ⟨f, mem, opens⟩
  | false =>
    cases b with
    | false => exact at'
    | true =>
      obtain ⟨g, memG, opensG⟩ := (arrayAt?_ofFields_eq_true names).mp at'
      exact absurd (alike g memG true opensG) (by decide)

end KeyTree

end ShapeLines
