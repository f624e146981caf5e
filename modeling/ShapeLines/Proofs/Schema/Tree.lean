import ShapeLines.Proofs.KeyMap
import ShapeLines.Proofs.Schema.Way

/-!
# Nodes of a schema by their ways

A schema is known by the labels of its nodes, where a label is what a node is apart from what it
holds. A change below one way leaves the labels at all other ways as they are; a new node adds one
label.
-/

namespace ShapeLines

namespace Entries

variable {α : Type}

theorem get?_adjust (key other : String) (f : α → α) (l : List (String × α)) :
    get? other (adjust key f l) = if other = key then (get? other l).map f else get? other l := by
  induction l with
  | nil => simp [adjust, get?]
  | cons e rest ih =>
    obtain ⟨k, v⟩ := e
    unfold adjust
    by_cases hk : key = k
    · by_cases ho : other = k
      · simp [get?, hk, ho]
      · simp [get?, hk, ho]
    · by_cases ho : other = k
      · simp [get?, hk, ho, Ne.symm hk]
      · simp [get?, hk, ho, ih]

theorem map_fst_adjust (key : String) (f : α → α) (l : List (String × α)) :
    (adjust key f l).map Prod.fst = l.map Prod.fst := by
  induction l with
  | nil => rfl
  | cons e rest ih =>
    obtain ⟨k, v⟩ := e
    unfold adjust
    split
    · rfl
    · rw [List.map_cons, List.map_cons, ih]

theorem ascending_iff_map {l : List (String × α)} :
    Ascending l ↔ (l.map Prod.fst).Pairwise (· < ·) :=
  List.pairwise_map.symm

theorem Ascending.adjust {l : List (String × α)} (h : Ascending l) (key : String) (f : α → α) :
    Ascending (adjust key f l) := by
  rw [ascending_iff_map, map_fst_adjust]
  exact ascending_iff_map.mp h

end Entries

/-- The kind of a node that the hop leads away from. -/
def Hop.holder : Hop → Kind
  | .property _ => .object
  | .elements => .array

namespace Schema

/-- What a node is apart from what it holds. -/
structure Label where
  type : FieldType
  marks : Marks
  required : List String

def label : Schema → Label
  | .scalar type marks => ⟨.scalar type, marks, []⟩
  | .array marks _ => ⟨.array, marks, []⟩
  | .object marks required _ => ⟨.object, marks, required⟩

def Label.kind (l : Label) : Kind := l.type.kind

/-- The label of a node of which only the kind is known. -/
def Label.bare (kind : Kind) : Label := (Schema.bare kind).label

def labelAt? (s : Schema) (way : List Hop) : Option Label :=
  (s.at? way).map label

variable {s t : Schema} {u v w : List Hop} {hop : Hop}

@[simp] theorem kind_label (s : Schema) : s.label.kind = s.kind := by
  cases s <;> rfl

@[simp] theorem type_label (s : Schema) : s.label.type = s.type := by
  cases s <;> rfl

@[simp] theorem kind_bare (kind : Kind) : (bare kind).kind = kind := by
  cases kind <;> rfl

@[simp] theorem Label.kind_bare (kind : Kind) : (Label.bare kind).kind = kind := by
  cases kind <;> rfl

@[simp] theorem at?_nil (s : Schema) : at? [] s = some s := by
  unfold at?
  rfl

theorem at?_property (name : String) (way : List Hop) (marks : Marks) (required : List String)
    (properties : List (String × Schema)) :
    at? (.property name :: way) (.object marks required properties) =
      (Entries.get? name properties).bind (at? way) := by
  rw [at?]

theorem at?_elements (way : List Hop) (marks : Marks) (items : Option Schema) :
    at? (.elements :: way) (.array marks items) = items.bind (at? way) := by
  cases items with
  | none => rfl
  | some items => rw [at?]; rfl

theorem at?_singleton_property (name : String) (marks : Marks) (required : List String)
    (properties : List (String × Schema)) :
    at? [.property name] (.object marks required properties) = Entries.get? name properties := by
  rw [at?_property]
  cases Entries.get? name properties <;> simp

theorem at?_singleton_elements (marks : Marks) (items : Option Schema) :
    at? [.elements] (.array marks items) = items := by
  rw [at?_elements]
  cases items <;> simp

theorem kind_of_at? (h : (at? (hop :: v) s).isSome) : s.kind = hop.holder := by
  cases s with
  | scalar => cases hop <;> simp [at?] at h
  | array _ items =>
    cases hop with
    | property => simp [at?] at h
    | elements => rfl
  | object =>
    cases hop with
    | property => rfl
    | elements => simp [at?] at h

theorem at?_cons (s : Schema) (hop : Hop) (v : List Hop) :
    at? (hop :: v) s = (at? [hop] s).bind (at? v) := by
  cases s with
  | scalar => cases hop <;> rfl
  | array _ items =>
    cases hop with
    | property => rfl
    | elements => cases items <;> simp [at?_elements]
  | object _ _ properties =>
    cases hop with
    | property name =>
      rw [at?_property, at?_property]
      cases Entries.get? name properties <;> simp
    | elements => rfl

theorem at?_append (s : Schema) (u v : List Hop) : at? (u ++ v) s = (at? u s).bind (at? v) := by
  induction u generalizing s with
  | nil => simp
  | cons hop u ih =>
    rw [List.cons_append, at?_cons, at?_cons s hop u]
    cases at? [hop] s with
    | none => rfl
    | some t => exact ih t

@[simp] theorem isSome_labelAt? (s : Schema) (w : List Hop) :
    (s.labelAt? w).isSome = (s.at? w).isSome := by
  simp [labelAt?]

@[simp] theorem labelAt?_nil (s : Schema) : s.labelAt? [] = some s.label := by
  simp [labelAt?]

theorem at?_bare_cons (kind : Kind) (hop : Hop) (v : List Hop) :
    at? (hop :: v) (bare kind) = none := by
  cases kind <;> cases hop <;> rfl

theorem label_modify_cons (g : Schema → Schema) (hop : Hop) (w : List Hop) (s : Schema) :
    (s.modify g (hop :: w)).label = s.label := by
  cases s with
  | scalar => cases hop <;> rfl
  | array _ items =>
    cases hop with
    | property => rfl
    | elements => cases items <;> rfl
  | object =>
    cases hop <;> rfl

theorem at?_modify_cons (g : Schema → Schema) (hop h : Hop) (w v : List Hop) (s : Schema) :
    at? (h :: v) (s.modify g (hop :: w)) =
      if h = hop then (at? [h] s).bind fun t => at? v (t.modify g w) else at? (h :: v) s := by
  cases s with
  | scalar => cases hop <;> cases h <;> simp [modify, at?]
  | array _ items =>
    cases hop with
    | property => cases h <;> simp [modify, at?]
    | elements =>
      cases h with
      | property => cases items <;> simp [modify, at?]
      | elements => cases items <;> simp [modify, at?]
  | object _ _ properties =>
    cases hop with
    | elements => cases h <;> simp [modify, at?]
    | property name =>
      cases h with
      | elements => simp [modify, at?]
      | property other =>
        rw [modify, at?_property, at?_property, at?_property, Entries.get?_adjust]
        by_cases eq : other = name
        · subst eq
          cases Entries.get? other properties <;> simp
        · simp [eq]

/-- Below the changed node the schema is what the change makes of it. -/
theorem at?_modify_append (g : Schema → Schema) (w u : List Hop) (s : Schema) :
    at? (w ++ u) (s.modify g w) = (at? w s).bind fun t => at? u (g t) := by
  induction w generalizing s with
  | nil => simp [modify]
  | cons hop w ih =>
    rw [List.cons_append, at?_modify_cons, if_pos rfl, at?_cons s hop w]
    cases at? [hop] s with
    | none => rfl
    | some t => exact ih t

/-- Elsewhere the labels stay as they are. -/
theorem labelAt?_modify_aside (g : Schema → Schema) (h : ¬ w <+: v) (s : Schema) :
    (s.modify g w).labelAt? v = s.labelAt? v := by
  induction w generalizing s v with
  | nil => exact absurd List.nil_prefix h
  | cons hop w ih =>
    cases v with
    | nil => rw [labelAt?_nil, labelAt?_nil, label_modify_cons]
    | cons h' v =>
      unfold labelAt?
      rw [at?_modify_cons]
      split
      · next eq =>
        subst eq
        rw [at?_cons s h' v]
        cases at? [h'] s with
        | none => rfl
        | some t =>
          exact ih (fun le => h (List.cons_prefix_cons.mpr ⟨rfl, le⟩)) t
      · rfl

/-- A change that touches only the label of a node. -/
structure Relabels (g : Schema → Schema) (φ : Label → Label) : Prop where
  label : ∀ s, (g s).label = φ s.label
  below : ∀ s hop v, at? (hop :: v) (g s) = at? (hop :: v) s

theorem labelAt?_relabel {g : Schema → Schema} {φ : Label → Label} (relabels : Relabels g φ)
    (w v : List Hop) (s : Schema) :
    (s.modify g w).labelAt? v = if v = w then (s.labelAt? v).map φ else s.labelAt? v := by
  by_cases le : w <+: v
  · obtain ⟨rest, rfl⟩ := le
    unfold labelAt?
    rw [at?_modify_append, at?_append]
    cases rest with
    | nil =>
      rw [if_pos (List.append_nil w)]
      cases at? w s with
      | none => rfl
      | some t => simp [relabels.label]
    | cons hop rest =>
      rw [if_neg (by simp)]
      cases at? w s with
      | none => rfl
      | some t => exact congrArg (Option.map _) (relabels.below t hop rest)
  · rw [labelAt?_modify_aside g le, if_neg]
    intro eq
    exact le (eq ▸ List.prefix_rfl)

def addChild (hop : Hop) (child : Schema) : Schema → Schema :=
  match hop with
  | .property name => addProperty name child
  | .elements => setElements child

theorem label_addChild (hop : Hop) (child s : Schema) : (addChild hop child s).label = s.label := by
  cases hop <;> cases s <;> rfl

theorem at?_addChild (holds : s.kind = hop.holder) (child : Schema) (h : Hop) (v : List Hop) :
    at? (h :: v) (addChild hop child s) = if h = hop then at? v child else at? (h :: v) s := by
  cases hop with
  | property name =>
    cases s with
    | object marks required properties =>
      cases h with
      | property other =>
        rw [addChild, addProperty, at?_property, at?_property, Entries.get?_insert]
        by_cases eq : other = name <;> simp [eq]
      | elements => simp [addChild, addProperty, at?]
    | scalar => contradiction
    | array => contradiction
  | elements =>
    cases s with
    | array marks items =>
      cases h with
      | property other => simp [addChild, setElements, at?]
      | elements => simp [addChild, setElements, at?]
    | scalar => contradiction
    | object => contradiction

/-- A new node adds its label and changes no other. -/
theorem labelAt?_grow (found : at? w s = some t) (holds : t.kind = hop.holder)
    (missing : at? (w ++ [hop]) s = none) (kind : Kind) (v : List Hop) :
    (s.modify (addChild hop (bare kind)) w).labelAt? v =
      if v = w ++ [hop] then some (Label.bare kind) else s.labelAt? v := by
  have missingChild : at? [hop] t = none := by
    rw [at?_append, found] at missing
    exact missing
  by_cases le : w <+: v
  · obtain ⟨rest, rfl⟩ := le
    unfold labelAt?
    rw [at?_modify_append, at?_append, found, Option.bind_some, Option.bind_some]
    cases rest with
    | nil => simp [label_addChild]
    | cons h rest =>
      rw [at?_addChild holds]
      by_cases eq : h = hop
      · subst eq
        rw [if_pos rfl, at?_cons t h rest, missingChild]
        cases rest with
        | nil => simp [Label.bare]
        | cons => simp [at?_bare_cons]
      · simp [eq]
  · rw [labelAt?_modify_aside _ le, if_neg]
    intro eq
    exact le (eq ▸ List.prefix_append w [hop])

end Schema

end ShapeLines
