import ShapeLines.Proofs.Schema.Marks

/-!
# What a declaration leaves in a draft

A declaration settles the kind of the root and goes down from there. The root of a draft in which
nothing has been declared counts as no node: it becomes an array or stays an object as the first
field has it.
-/

namespace ShapeLines

namespace Way

/-- What is left of a way beyond a node that stands on it. -/
def beyond? (u way : List Hop) : Option (List Hop) :=
  if u <+: way then some (way.drop u.length) else none

theorem beyond?_eq_some_iff {u way rest : List Hop} :
    beyond? u way = some rest ↔ u ++ rest = way := by
  unfold beyond?
  constructor
  · intro h
    split at h
    · next le =>
      obtain ⟨r, rfl⟩ := le
      rw [List.drop_left] at h
      cases h
      rfl
    · contradiction
  · intro h
    subst h
    rw [if_pos (List.prefix_append u rest), List.drop_left]

theorem beyond?_eq_none_iff {u way : List Hop} : beyond? u way = none ↔ ¬ u <+: way := by
  unfold beyond?
  split <;> simp_all

end Way

namespace Draft

open Schema

variable {d d' : Draft} {f : Field} {u w rest : List Hop} {hop : Hop}

/-- The label of a node, unless nothing has been declared. -/
def labels (d : Draft) (u : List Hop) : Option Label :=
  if d.root.isLeaf then none else d.root.labelAt? u

/-- A draft that has come about by declarations. -/
structure Sound (d : Draft) : Prop where
  tracks : d.Tracks
  fresh : d.root.isLeaf = true → d.root = .bare .object

theorem at?_cons_of_isLeaf {s : Schema} (leaf : s.isLeaf = true) (hop : Hop) (v : List Hop) :
    s.at? (hop :: v) = none := by
  cases s with
  | scalar => cases hop <;> rfl
  | array _ items =>
    have none : items = none := by simpa [isLeaf] using leaf
    subst none
    cases hop <;> rfl
  | object _ _ properties =>
    have nil : properties = [] := by simpa [isLeaf] using leaf
    subst nil
    cases hop <;> simp [at?, Entries.get?]

theorem sound_empty : Sound empty where
  tracks := by
    intro w named
    cases w with
    | nil => rfl
    | cons hop v =>
      have ne : Way.place (hop :: v) ≠ "" := by
        rw [Ne, Way.place_eq_empty_iff named]
        exact List.cons_ne_nil hop v
      rw [at?_cons_of_isLeaf rfl]
      simp [empty, Entries.get?, ne]
  fresh _ := rfl

theorem declare_of_segments_eq_nil (nil : f.segments = []) : d.declare f = .ok d := by
  unfold declare
  rw [nil]
  rfl

theorem labelAt?_of_isLeaf {s : Schema} (leaf : s.isLeaf = true) (v : List Hop) :
    s.labelAt? v = if v = [] then some s.label else none := by
  cases v with
  | nil => rw [labelAt?_nil, if_pos rfl]
  | cons hop v => rw [labelAt?, at?_cons_of_isLeaf leaf, if_neg (List.cons_ne_nil hop v)]; rfl

@[simp] theorem isLeaf_bare (kind : Kind) : (bare kind).isLeaf = true := by
  cases kind <;> rfl

theorem tracks_of_isLeaf (sound : d.Sound) (leaf : d.root.isLeaf = true) (kind : Kind) :
    Tracks { d with root := .bare kind } := by
  refine sound.tracks.of_isSome rfl fun v => ?_
  rw [← isSome_labelAt?, ← isSome_labelAt?, labelAt?_of_isLeaf (isLeaf_bare kind),
    labelAt?_of_isLeaf leaf]
  split <;> rfl

/-- The root takes the kind that is asked of it, unless something of another kind is there. -/
theorem ensureKind_root (sound : d.Sound) {kind : Kind} (container : kind ≠ .scalar) :
    (∃ l, d.labels [] = some l ∧ l.kind ≠ kind ∧
      d.ensureKind .root kind = .error (.kindConflict "" l.kind kind)) ∨
    ((∀ l, d.labels [] = some l → l.kind = kind) ∧
      ∃ d', d.ensureKind .root kind = .ok d' ∧ d'.Tracks ∧ d'.root.kind = kind ∧
        ∀ v, d'.root.labelAt? v =
          if v = [] then some ((d.labels []).getD (.bare kind)) else d.labels v) := by
  cases leaf : d.root.isLeaf with
  | true =>
    right
    have fresh := sound.fresh leaf
    have noLabels (v : List Hop) : d.labels v = none := if_pos leaf
    refine ⟨fun l at' => by rw [noLabels] at at'; contradiction,
      { d with root := .bare kind }, ?_, tracks_of_isLeaf sound leaf kind, kind_bare kind,
      fun v => ?_⟩
    · by_cases same : d.root.kind = kind
      · have object : kind = .object := by rw [← same, fresh, kind_bare]
        subst object
        have unchanged : { d with root := bare .object } = d := by rw [← fresh]
        rw [unchanged]
        exact ensureKind_of_kind (at?_nil d.root) same
      · simp [ensureKind, Spot.root, same, leaf, container]
    · rw [noLabels, noLabels, Option.getD_none]
      exact labelAt?_of_isLeaf (isLeaf_bare kind) v
  | false =>
    have ownLabels (v : List Hop) : d.labels v = d.root.labelAt? v := if_neg (by simp [leaf])
    by_cases same : d.root.kind = kind
    · right
      refine ⟨fun l at' => ?_, d, ensureKind_of_kind (at?_nil d.root) same, sound.tracks, same,
        fun v => ?_⟩
      · rw [ownLabels, labelAt?_nil] at at'
        cases at'
        rw [kind_label, same]
      · rw [ownLabels, ownLabels, labelAt?_nil, Option.getD_some]
        split
        · next eq => rw [eq, labelAt?_nil]
        · rfl
    · left
      refine ⟨d.root.label, by rw [ownLabels, labelAt?_nil], by rwa [kind_label], ?_⟩
      simp [ensureKind, Spot.root, same, leaf]

theorem child_of_not_object {name : String} (kind : Kind) (tracks : d.Tracks)
    (named : Way.Named [.property name]) (ne : d.root.kind ≠ .object)
    (held : d.root.isLeaf = false) :
    d.child .root name kind = .error (.kindConflict "" d.root.kind .object) := by
  have missing : d.root.at? [.property name] = none := by
    cases h : d.root.at? [.property name] with
    | none => rfl
    | some node => exact absurd (kind_of_at? (by rw [h]; rfl)) ne
  have text : Fullname.join "" name = Way.place [.property name] := rfl
  unfold child
  simp only [Spot.root, text, tracks _ named, missing, Option.map_none, ensureKind, at?_nil, ne,
    held, if_false, Bool.false_eq_true, and_false, false_and]
  rfl

/-- A root that holds something else than properties refuses a name. -/
theorem walk_of_not_object {s : Segment} (tracks : d.Tracks) (ne : s.name ≠ "")
    (named : Way.Named s.hops) (notObject : d.root.kind ≠ .object)
    (held : d.root.isLeaf = false) (tail : List Segment) :
    d.walk .root f (s :: tail) = .error (.kindConflict "" d.root.kind .object) := by
  have namedHop : Way.Named [.property s.name] := by
    apply named.of_part
    simp [Segment.hops, ne]
  have failed (kind : Kind) := child_of_not_object kind tracks namedHop notObject held
  rw [walk_cons]
  unfold descend Draft.named
  simp only [if_neg ne, failed]
  rfl

theorem Sound.isLeaf_of_not_object (sound : d.Sound) (notObject : d.root.kind ≠ .object) :
    d.root.isLeaf = false := by
  cases leaf : d.root.isLeaf with
  | false => rfl
  | true => exact absurd (by rw [sound.fresh leaf, kind_bare]) notObject

theorem walk_root_of_names {segments : List Segment} (sound : d.Sound)
    (names : ∀ s ∈ segments, s.name ≠ "") (nonempty : segments ≠ [])
    (named : Way.Named (segments.flatMap Segment.hops)) :
    d.walk .root f segments =
      (d.ensureKind .root .object).bind fun d => d.follow [] f (segments.flatMap Segment.hops) := by
  by_cases object : d.root.kind = .object
  · rw [Spot.root, ensureKind_of_kind (at?_nil d.root) object]
    exact walk_eq_follow (w := []) names nonempty sound.tracks named (at?_nil d.root) object
  · have held := sound.isLeaf_of_not_object object
    cases segments with
    | nil => contradiction
    | cons s tail =>
      have failed : d.ensureKind .root .object = .error (.kindConflict "" d.root.kind .object) := by
        simp [ensureKind, Spot.root, object, held]
      rw [failed, walk_of_not_object sound.tracks (names s List.mem_cons_self)
        named.of_append_left object held]
      rfl

theorem walk_root_of_hop {tail : List Segment} (sound : d.Sound)
    (names : ∀ s ∈ tail, s.name ≠ "") (named : Way.Named (tail.flatMap Segment.hops)) :
    d.walk .root f (⟨"", true⟩ :: tail) =
      (d.ensureKind .root .array).bind fun d =>
        d.follow [] f (.elements :: tail.flatMap Segment.hops) := by
  have kind : (if tail.isEmpty then f.type.kind else .object) =
      f.demand (tail.flatMap Segment.hops) := by
    cases tail with
    | nil => rfl
    | cons r tail => rw [demand_flatMap_hops f (names r List.mem_cons_self)]; rfl
  have namedHop : Way.Named ([] ++ [Hop.elements]) := fun name mem => by simp at mem
  have namedAll : Way.Named ([Hop.elements] ++ tail.flatMap Segment.hops) :=
    fun name mem => named name (by simpa using mem)
  rw [walk_cons, descend_bare, kind]
  have container : Kind.array ≠ .scalar := by decide
  rcases ensureKind_root sound container with
    ⟨l, -, -, failed⟩ | ⟨-, d', ok, tracks, array, -⟩
  · rw [failed]
    rfl
  · rw [ok]
    simp only [Except.bind]
    have entered := element_eq_reach d' [] (f.demand (tail.flatMap Segment.hops))
    rw [Way.place_nil] at entered
    rw [Spot.root, entered, follow, step]
    cases reached : d'.reach [] .elements (f.demand (tail.flatMap Segment.hops)) with
    | error e => rfl
    | ok d'' =>
      obtain ⟨tracks', node, at', nodeKind⟩ :=
        reach_of_ok tracks namedHop (at?_nil d'.root) array reached
      exact proceed_eq_follow names tracks' namedAll at' nodeKind

/-- A declaration settles the kind of the root and then goes down the way of the field. -/
theorem declare_eq_follow (sound : d.Sound) (plain : Segment.Plain f.segments)
    (nonempty : f.segments ≠ []) :
    d.declare f =
      (d.ensureKind .root (f.demand f.way)).bind fun d => d.follow [] f f.way := by
  have regular := Field.regular_way plain
  unfold declare Field.way at *
  cases h : f.segments with
  | nil => contradiction
  | cons s tail =>
    rw [h] at regular plain
    have names : ∀ s ∈ tail, s.name ≠ "" := plain.named
    by_cases ne : s.name = ""
    · have bare : s = ⟨"", true⟩ := by
        have isArray := plain.hop s List.mem_cons_self ne
        cases s
        simp_all
      subst bare
      have hops : List.flatMap Segment.hops (⟨"", true⟩ :: tail) =
          .elements :: tail.flatMap Segment.hops := rfl
      rw [hops] at regular ⊢
      exact walk_root_of_hop sound names (regular.named.of_append_right (u := [_]))
    · have allNames : ∀ t ∈ s :: tail, t.name ≠ "" := by
        intro t mem
        rcases List.mem_cons.mp mem with rfl | mem
        · exact ne
        · exact names t mem
      rw [demand_flatMap_hops f ne]
      exact walk_root_of_names sound allNames (List.cons_ne_nil s tail) regular.named

/-- The label of the node at `u` after a declaration, when it was `old` before. -/
def touched (f : Field) (u : List Hop) (old : Option Label) : Option Label :=
  match Way.beyond? u f.way with
  | some rest => some (mark f rest (old.getD (.bare (f.demand rest))))
  | none => old

theorem touched_of_append (u r : List Hop) (eq : u ++ r = f.way) (old : Option Label) :
    touched f u old = some (mark f r (old.getD (.bare (f.demand r)))) := by
  rw [touched, Way.beyond?_eq_some_iff.mpr eq]

theorem touched_aside (away : ¬ u <+: f.way) (old : Option Label) :
    touched f u old = old := by
  rw [touched, Way.beyond?_eq_none_iff.mpr away]

theorem labels_of_held (held : d.root.isLeaf = false) (u : List Hop) :
    d.labels u = d.root.labelAt? u :=
  if_neg (by simp [held])

theorem held_of_at? {v : List Hop} (found : (d.root.at? (hop :: v)).isSome) :
    d.root.isLeaf = false := by
  cases leaf : d.root.isLeaf with
  | false => rfl
  | true => simp [at?_cons_of_isLeaf leaf] at found

/-- Going down the way of a field from a root of the right kind touches the labels on the way. -/
theorem labels_of_grown {e : Draft} (ne : f.way ≠ [])
    (before : ∀ v, e.root.labelAt? v =
      if v = [] then some ((d.labels []).getD (.bare (f.demand f.way))) else d.labels v)
    (grown : Grown e d' [] f f.way) :
    d'.root.isLeaf = false ∧ ∀ u, d'.labels u = touched f u (d.labels u) := by
  have on {u r : List Hop} (eq : u ++ r = f.way) := grown.on u r eq
  simp only [List.nil_append] at on
  have held : d'.root.isLeaf = false := by
    obtain ⟨hop, rest, way⟩ := List.exists_cons_of_ne_nil ne
    have marked := on (u := [hop]) way.symm
    apply held_of_at? (v := [])
    rw [← isSome_labelAt?, marked]
    rfl
  refine ⟨held, fun u => ?_⟩
  rw [labels_of_held held]
  by_cases le : u <+: f.way
  · obtain ⟨r, eq⟩ := le
    rw [on eq, touched_of_append u r eq, before]
    by_cases nil : u = []
    · subst nil
      rw [if_pos rfl, Option.getD_some, ← eq, List.nil_append]
    · rw [if_neg nil]
  · have notRoot : u ≠ [] := fun nil => le (nil ▸ List.nil_prefix)
    have off := grown.off u fun v r eq same => le ⟨r, by rw [same, List.nil_append, eq]⟩
    rw [touched_aside le, off, before, if_neg notRoot]

/-- A field meets a node of another kind than it demands, and says so, or it leaves its marks. -/
theorem declare_outcome (sound : d.Sound) (plain : Segment.Plain f.segments)
    (nonempty : f.segments ≠ []) :
    (∃ u r l, u ++ r = f.way ∧ d.labels u = some l ∧ l.kind ≠ f.demand r ∧
      d.declare f = .error (.kindConflict (Way.place u) l.kind (f.demand r))) ∨
    ((∀ u r l, u ++ r = f.way → d.labels u = some l → l.kind = f.demand r) ∧
      ∃ d', d.declare f = .ok d' ∧ d'.Sound ∧ ∀ u, d'.labels u = touched f u (d.labels u)) := by
  have way := Field.way_ne_nil plain nonempty
  have container : f.demand f.way ≠ .scalar := by
    obtain ⟨hop, rest, eq⟩ := List.exists_cons_of_ne_nil way
    rw [eq]
    cases hop <;> simp [Field.demand, Hop.holder]
  rw [declare_eq_follow sound plain nonempty]
  rcases ensureKind_root sound container with
    ⟨l, at', ne, failed⟩ | ⟨rootFits, e, ok, tracks, kind, before⟩
  · exact .inl ⟨[], f.way, l, rfl, at', ne, by rw [failed]; rfl⟩
  · rw [ok]
    have named : Way.Named ([] ++ f.way) := (Field.regular_way plain).named
    have below {u : List Hop} (ne : u ≠ []) : e.root.labelAt? u = d.labels u := by
      rw [before, if_neg ne]
    rcases follow_outcome tracks named (at?_nil e.root) kind with
      ⟨_, ⟨u, r, l, eq, at', ne, rfl⟩, failed⟩ | ⟨fits, d', followed, grown⟩
    · left
      rw [List.nil_append] at at'
      refine ⟨u, r, l, eq, ?_, ne, failed⟩
      rw [← below, at']
      intro nil
      subst nil
      rw [labelAt?_nil] at at'
      cases at'
      exact ne (by rw [kind_label, kind, ← eq, List.nil_append])
    · right
      obtain ⟨held, touches⟩ := labels_of_grown way before grown
      refine ⟨fun u r l eq at' => ?_, d', followed, ⟨grown.tracks, by simp [held]⟩, touches⟩
      by_cases nil : u = []
      · subst nil
        rw [rootFits l at', ← eq, List.nil_append]
      · exact fits u r l eq (by rw [List.nil_append, below nil, at'])

end Draft

end ShapeLines
