import Mathlib.Tactic.ByContra
import ShapeLines.Proofs.Schema.Tree

/-!
# Growing a draft hop by hop

A draft goes along the segments of a field and looks nodes up by the text of their place. For plain
segments this is the same as going hop by hop and looking at the tree alone: every hop reaches a
node of the kind that the field demands there, which is made if it is missing.
-/

namespace ShapeLines

/-- The kind that a field demands of a node below which `rest` is left to go. -/
def Field.demand (f : Field) : List Hop → Kind
  | [] => f.type.kind
  | hop :: _ => hop.holder

/-- The name that a field lists as required in a node below which `rest` is left to go. -/
def Field.listed? (f : Field) : List Hop → Option String
  | [.property name] => if f.required then some name else none
  | [.property name, .elements] => if f.required then some name else none
  | _ => none

namespace Draft

open Schema

/-- The texts lead to the nodes they are the places of, and to no others. -/
def Tracks (d : Draft) : Prop :=
  ∀ w, Way.Named w → Entries.get? (Way.place w) d.ways = (d.root.at? w).map fun _ => w

def grow (d : Draft) (w : List Hop) (hop : Hop) (kind : Kind) : Draft where
  root := d.root.modify (addChild hop (.bare kind)) w
  ways := Entries.insert (Way.place (w ++ [hop])) (w ++ [hop]) d.ways

/-- The node one hop below `w`, made if it is missing. -/
def reach (d : Draft) (w : List Hop) (hop : Hop) (kind : Kind) : Except SchemaError Draft :=
  match d.root.at? (w ++ [hop]) with
  | some node =>
    if node.kind = kind then .ok d
    else .error (.kindConflict (Way.place (w ++ [hop])) node.kind kind)
  | none => .ok (d.grow w hop kind)

def list (d : Draft) (w : List Hop) : Option String → Draft
  | some name => { d with root := d.root.modify (require name) w }
  | none => d

def step (d : Draft) (w : List Hop) (f : Field) (hop : Hop) (rest : List Hop) :
    Except SchemaError Draft :=
  (d.reach w hop (f.demand rest)).map fun d => d.list w (f.listed? (hop :: rest))

/-- Declares a field along the hops that are left below `w`. -/
def follow (d : Draft) (w : List Hop) (f : Field) : List Hop → Except SchemaError Draft
  | [] => .ok { d with root := d.root.modify (complete f) w }
  | hop :: rest => (d.step w f hop rest).bind fun d => d.follow (w ++ [hop]) f rest

variable {d d' : Draft} {f : Field} {w rest : List Hop} {hop : Hop} {kind : Kind} {t : Schema}

def listing (name : String) (l : Label) : Label :=
  if l.kind = .object then
    { l with required := if l.required.contains name then l.required else l.required ++ [name] }
  else l

theorem relabels_require (name : String) : Relabels (require name) (listing name) where
  label s := by cases s <;> rfl
  below s hop v := by cases s <;> cases hop <;> rfl

def completing (f : Field) (l : Label) : Label where
  type :=
    match l.type, f.type with
    | .scalar _, .scalar type => .scalar type
    | type, _ => type
  marks := { l.marks with keywords := Entries.update l.marks.keywords f.keywords }
  required := l.required

theorem relabels_complete (f : Field) : Relabels (complete f) (completing f) where
  label s := by
    cases s with
    | scalar type marks =>
      unfold complete completing
      cases f.type <;> rfl
    | array => rfl
    | object => rfl
  below s hop v := by
    cases s with
    | scalar type marks => cases hop <;> rfl
    | array marks items =>
      cases hop with
      | property => rfl
      | elements => cases items <;> rfl
    | object => cases hop <;> rfl

theorem isSome_at?_modify {g : Schema → Schema} {φ : Label → Label} (relabels : Relabels g φ)
    (w v : List Hop) (s : Schema) : ((s.modify g w).at? v).isSome = (s.at? v).isSome := by
  rw [← isSome_labelAt?, ← isSome_labelAt?, labelAt?_relabel relabels]
  split <;> simp

theorem Tracks.of_isSome (tracks : d.Tracks) (ways : d'.ways = d.ways)
    (nodes : ∀ v, (d'.root.at? v).isSome = (d.root.at? v).isSome) : d'.Tracks := by
  intro v named
  rw [ways, tracks v named]
  have same := nodes v
  cases h : d.root.at? v <;> cases h' : d'.root.at? v <;> simp_all

theorem Tracks.list (tracks : d.Tracks) (w : List Hop) (name : Option String) :
    (d.list w name).Tracks := by
  cases name with
  | none => exact tracks
  | some name => exact tracks.of_isSome rfl (isSome_at?_modify (relabels_require name) w · _)

theorem Tracks.complete (tracks : d.Tracks) (f : Field) (w : List Hop) :
    Tracks { d with root := d.root.modify (complete f) w } :=
  tracks.of_isSome rfl (isSome_at?_modify (relabels_complete f) w · _)

theorem Tracks.grow (tracks : d.Tracks) (named : Way.Named (w ++ [hop]))
    (found : d.root.at? w = some t) (holds : t.kind = hop.holder)
    (missing : d.root.at? (w ++ [hop]) = none) : (d.grow w hop kind).Tracks := by
  intro v namedV
  have label := labelAt?_grow found holds missing kind v
  unfold Draft.grow
  dsimp only
  rw [Entries.get?_insert]
  by_cases eq : v = w ++ [hop]
  · rw [if_pos eq] at label
    rw [if_pos (congrArg Way.place eq), eq]
    rw [eq] at label
    obtain ⟨node, some, -⟩ := Option.map_eq_some_iff.mp label
    rw [some]
    rfl
  · rw [if_neg eq] at label
    rw [if_neg fun texts => eq (Way.place_inj namedV named texts), tracks v namedV]
    have same := congrArg Option.isSome label
    rw [isSome_labelAt?, isSome_labelAt?] at same
    cases h : d.root.at? v <;>
      cases h' : (d.root.modify (addChild hop (.bare kind)) w).at? v <;> simp_all

theorem reach_conflict {l : Label} (found : d.root.labelAt? (w ++ [hop]) = some l)
    (ne : l.kind ≠ kind) :
    d.reach w hop kind = .error (.kindConflict (Way.place (w ++ [hop])) l.kind kind) := by
  obtain ⟨node, at', rfl⟩ := Option.map_eq_some_iff.mp found
  rw [kind_label] at ne
  simp [reach, at', ne]

/-- Where nothing stands against it, a hop reaches a node of the kind asked for. -/
theorem reach_ok (tracks : d.Tracks) (named : Way.Named (w ++ [hop]))
    (found : d.root.at? w = some t) (holds : t.kind = hop.holder)
    (fits : ∀ l, d.root.labelAt? (w ++ [hop]) = some l → l.kind = kind) :
    ∃ d', d.reach w hop kind = .ok d' ∧ d'.Tracks ∧ ∀ v, d'.root.labelAt? v =
      if v = w ++ [hop] then some ((d.root.labelAt? v).getD (.bare kind))
      else d.root.labelAt? v := by
  unfold reach
  cases at' : d.root.at? (w ++ [hop]) with
  | some node =>
    have label : d.root.labelAt? (w ++ [hop]) = some node.label := by rw [labelAt?, at']; rfl
    have same : node.kind = kind := by rw [← kind_label, fits _ label]
    refine ⟨d, if_pos same, tracks, fun v => ?_⟩
    split
    · next eq => rw [eq, label, Option.getD_some]
    · rfl
  | none =>
    refine ⟨d.grow w hop kind, rfl, tracks.grow named found holds at', fun v => ?_⟩
    rw [grow, labelAt?_grow found holds at' kind v]
    split
    · next eq =>
      have none : d.root.labelAt? v = none := by rw [eq, labelAt?, at']; rfl
      rw [none, Option.getD_none]
    · rfl

theorem reach_of_ok (tracks : d.Tracks) (named : Way.Named (w ++ [hop]))
    (found : d.root.at? w = some t) (holds : t.kind = hop.holder)
    (ok : d.reach w hop kind = .ok d') :
    d'.Tracks ∧ ∃ node, d'.root.at? (w ++ [hop]) = some node ∧ node.kind = kind := by
  have fits : ∀ l, d.root.labelAt? (w ++ [hop]) = some l → l.kind = kind := by
    intro l label
    by_contra ne
    rw [reach_conflict label ne] at ok
    contradiction
  obtain ⟨made, eq, tracks', labels⟩ := reach_ok tracks named found holds fits
  rw [ok] at eq
  cases eq
  refine ⟨tracks', ?_⟩
  have label := labels (w ++ [hop])
  rw [if_pos rfl] at label
  obtain ⟨node, at', eq⟩ := Option.map_eq_some_iff.mp label
  refine ⟨node, at', ?_⟩
  rw [← kind_label, eq]
  cases old : d.root.labelAt? (w ++ [hop]) with
  | none => simp
  | some l => exact fits l old

/-- A property is looked up by its text. -/
theorem child_eq_reach {name : String} (tracks : d.Tracks)
    (named : Way.Named (w ++ [Hop.property name])) (found : d.root.at? w = some t)
    (holds : t.kind = .object) :
    d.child ⟨w, Way.place w⟩ name kind =
      (d.reach w (.property name) kind).map
        (·, ⟨w ++ [Hop.property name], Way.place (w ++ [Hop.property name])⟩) := by
  have text : Fullname.join (Way.place w) name = Way.place (w ++ [Hop.property name]) :=
    (Way.place_append_singleton w (.property name)).symm
  unfold child reach
  dsimp only
  rw [text, tracks _ named]
  cases at' : d.root.at? (w ++ [Hop.property name]) with
  | some node =>
    simp only [Option.map_some, ensureKind, at']
    by_cases same : node.kind = kind
    · rw [if_pos same, if_pos same]
      rfl
    · simp [same, Except.map, bind, Except.bind]
  | none =>
    simp only [Option.map_none, ensureKind, found, holds]
    rfl

theorem element_eq_reach (d : Draft) (w : List Hop) (kind : Kind) :
    d.element ⟨w, Way.place w⟩ kind =
      (d.reach w .elements kind).map
        (·, ⟨w ++ [Hop.elements], Way.place (w ++ [Hop.elements])⟩) := by
  have text : Fullname.element (Way.place w) = Way.place (w ++ [Hop.elements]) :=
    (Way.place_append_singleton w .elements).symm
  unfold element reach
  dsimp only
  rw [text]
  cases at' : d.root.at? (w ++ [Hop.elements]) with
  | some node =>
    simp only [ensureKind, at']
    by_cases same : node.kind = kind
    · rw [if_pos same, if_pos same]
      rfl
    · simp [same, Except.map, bind, Except.bind]
  | none => rfl

theorem labelAt?_list (d : Draft) (w v : List Hop) (name : Option String) :
    (d.list w name).root.labelAt? v =
      if v = w then (d.root.labelAt? v).map (name.elim id listing) else d.root.labelAt? v := by
  cases name with
  | none => simp [list]
  | some name => exact labelAt?_relabel (relabels_require name) w v d.root

theorem step_of_ok (tracks : d.Tracks) (named : Way.Named (w ++ [hop]))
    (found : d.root.at? w = some t) (holds : t.kind = hop.holder)
    (ok : d.step w f hop rest = .ok d') :
    d'.Tracks ∧ ∃ node, d'.root.at? (w ++ [hop]) = some node ∧ node.kind = f.demand rest := by
  unfold step at ok
  cases reached : d.reach w hop (f.demand rest) with
  | error e => simp [reached, Except.map] at ok
  | ok made =>
    rw [reached] at ok
    cases ok
    obtain ⟨tracks', node, at', nodeKind⟩ := reach_of_ok tracks named found holds reached
    refine ⟨tracks'.list w _, ?_⟩
    have label := labelAt?_list made w (w ++ [hop]) (f.listed? (hop :: rest))
    rw [if_neg (by simp), labelAt?, labelAt?, at'] at label
    obtain ⟨node', at'', eq⟩ := Option.map_eq_some_iff.mp label
    exact ⟨node', at'', by rw [← kind_label, eq, kind_label, nodeKind]⟩

theorem ensureKind_of_kind {place : String} (found : d.root.at? w = some t) (same : t.kind = kind) :
    d.ensureKind ⟨w, place⟩ kind = .ok d := by
  simp [ensureKind, found, same]

/-- A bare hop leads from the place that has been reached into its elements. -/
theorem descend_bare (d : Draft) (spot : Spot) (f : Field) (isLast : Bool) :
    d.descend spot f ⟨"", true⟩ isLast =
      (d.ensureKind spot .array).bind fun d =>
        d.element spot (if isLast then f.type.kind else .object) := by
  unfold descend Draft.named
  rfl

theorem named_eq_step {name : String} {isArray : Bool} (ne : name ≠ "") (tracks : d.Tracks)
    (named : Way.Named (w ++ [Hop.property name])) (found : d.root.at? w = some t)
    (holds : t.kind = .object) (start : rest.head? ≠ some .elements) :
    d.named ⟨w, Way.place w⟩ f ⟨name, isArray⟩ rest.isEmpty =
      (d.step w f (.property name) ((if isArray then [Hop.elements] else []) ++ rest)).map
        (·, ⟨w ++ [Hop.property name], Way.place (w ++ [Hop.property name])⟩) := by
  have kind : (if isArray then .array else if rest.isEmpty then f.type.kind else .object) =
      f.demand ((if isArray then [Hop.elements] else []) ++ rest) := by
    match isArray, rest with
    | true, _ => rfl
    | false, [] => rfl
    | false, .property _ :: _ => rfl
    | false, .elements :: _ => simp at start
  have listed : f.listed? (.property name :: ((if isArray then [Hop.elements] else []) ++ rest)) =
      if rest.isEmpty && f.required then some name else none := by
    match isArray, rest with
    | true, [] => rfl
    | true, _ :: _ => rfl
    | false, [] => rfl
    | false, .property _ :: _ => rfl
    | false, .elements :: _ => simp at start
  unfold Draft.named step
  rw [if_neg ne, listed]
  simp only [kind, child_eq_reach tracks named found holds]
  cases d.reach w (.property name) (f.demand _) with
  | error e => rfl
  | ok d' => cases rest.isEmpty && f.required <;> rfl

theorem descend_property {name : String} (ne : name ≠ "") (tracks : d.Tracks)
    (named : Way.Named (w ++ [Hop.property name])) (found : d.root.at? w = some t)
    (holds : t.kind = .object) (start : rest.head? ≠ some .elements) :
    d.descend ⟨w, Way.place w⟩ f ⟨name, false⟩ rest.isEmpty =
      (d.step w f (.property name) rest).map
        (·, ⟨w ++ [Hop.property name], Way.place (w ++ [Hop.property name])⟩) := by
  unfold descend
  rw [named_eq_step ne tracks named found holds start]
  cases h : d.step w f (.property name) rest <;> simp [h]

theorem descend_array {name : String} (ne : name ≠ "") (tracks : d.Tracks)
    (named : Way.Named (w ++ [Hop.property name])) (found : d.root.at? w = some t)
    (holds : t.kind = .object) (start : rest.head? ≠ some .elements) :
    d.descend ⟨w, Way.place w⟩ f ⟨name, true⟩ rest.isEmpty =
      (d.step w f (.property name) (.elements :: rest)).bind fun d =>
        (d.step (w ++ [Hop.property name]) f .elements rest).map
          (·, ⟨w ++ [Hop.property name] ++ [Hop.elements],
            Way.place (w ++ [Hop.property name] ++ [Hop.elements])⟩) := by
  have kind : (if rest.isEmpty then f.type.kind else .object) = f.demand rest := by
    match rest with
    | [] => rfl
    | .property _ :: _ => rfl
    | .elements :: _ => simp at start
  unfold descend
  rw [named_eq_step ne tracks named found holds start]
  simp only [if_true, List.singleton_append, kind]
  cases stepped : d.step w f (.property name) (.elements :: rest) with
  | error e => rfl
  | ok d' =>
    obtain ⟨-, node, at', nodeKind⟩ := step_of_ok tracks named found holds stepped
    have already : d'.ensureKind
        ⟨w ++ [Hop.property name], Way.place (w ++ [Hop.property name])⟩ .array = .ok d' :=
      ensureKind_of_kind at' nodeKind
    simp only [Except.map, Except.bind, bind, already, element_eq_reach]
    unfold step
    cases d'.reach (w ++ [Hop.property name]) .elements (f.demand rest) <;> rfl

/-- Going down by a segment is going along its hops. -/
theorem follow_hops {s : Segment} (ne : s.name ≠ "") (tracks : d.Tracks)
    (named : Way.Named (w ++ s.hops)) (found : d.root.at? w = some t) (holds : t.kind = .object)
    (start : rest.head? ≠ some .elements) :
    d.follow w f (s.hops ++ rest) =
      (d.descend ⟨w, Way.place w⟩ f s rest.isEmpty).bind fun r => r.1.follow r.2.way f rest := by
  obtain ⟨name, isArray⟩ := s
  cases isArray with
  | false =>
    have hops := Segment.hops_object ne
    rw [hops] at named ⊢
    rw [descend_property ne tracks named found holds start, List.singleton_append, follow]
    cases d.step w f (.property name) rest <;> rfl
  | true =>
    have hops := Segment.hops_array ne
    rw [hops, List.append_cons] at named
    rw [hops, descend_array ne tracks named.of_append_left found holds start, List.cons_append,
      List.singleton_append, follow]
    cases d.step w f (.property name) (.elements :: rest) with
    | error e => rfl
    | ok d' =>
      simp only [Except.bind]
      rw [follow]
      cases d'.step (w ++ [Hop.property name]) f .elements rest <;> rfl

/-- A segment leads to a node of the kind that is demanded there. -/
theorem descend_of_ok {s : Segment} {spot : Spot} (ne : s.name ≠ "") (tracks : d.Tracks)
    (named : Way.Named (w ++ s.hops)) (found : d.root.at? w = some t) (holds : t.kind = .object)
    (start : rest.head? ≠ some .elements)
    (ok : d.descend ⟨w, Way.place w⟩ f s rest.isEmpty = .ok (d', spot)) :
    spot = ⟨w ++ s.hops, Way.place (w ++ s.hops)⟩ ∧ d'.Tracks ∧
      ∃ node, d'.root.at? (w ++ s.hops) = some node ∧ node.kind = f.demand rest := by
  obtain ⟨name, isArray⟩ := s
  cases isArray with
  | false =>
    have hops := Segment.hops_object ne
    rw [hops] at named ⊢
    rw [descend_property ne tracks named found holds start] at ok
    cases stepped : d.step w f (.property name) rest with
    | error e =>
      rw [stepped] at ok
      contradiction
    | ok made =>
      rw [stepped] at ok
      cases ok
      exact ⟨rfl, step_of_ok tracks named found holds stepped⟩
  | true =>
    have hops := Segment.hops_array ne
    rw [hops, List.append_cons] at named ⊢
    have namedHop := named.of_append_left
    rw [descend_array ne tracks namedHop found holds start] at ok
    cases stepped : d.step w f (.property name) (.elements :: rest) with
    | error e =>
      rw [stepped] at ok
      contradiction
    | ok made =>
      obtain ⟨tracks', node, at', kind⟩ := step_of_ok tracks namedHop found holds stepped
      rw [stepped, Except.bind] at ok
      cases stepped' : made.step (w ++ [Hop.property name]) f .elements rest with
      | error e =>
        rw [stepped'] at ok
        contradiction
      | ok made' =>
        rw [stepped'] at ok
        cases ok
        exact ⟨rfl, step_of_ok tracks' named at' kind stepped'⟩

theorem isEmpty_flatMap_hops {segments : List Segment} (names : ∀ s ∈ segments, s.name ≠ "") :
    (segments.flatMap Segment.hops).isEmpty = segments.isEmpty := by
  cases segments with
  | nil => rfl
  | cons s rest =>
    have ne := names s List.mem_cons_self
    simp [Segment.hops, ne]

theorem demand_flatMap_hops (f : Field) {s : Segment} (ne : s.name ≠ "") (rest : List Segment) :
    f.demand ((s :: rest).flatMap Segment.hops) = .object := by
  rw [List.flatMap_cons, Segment.hops, if_neg ne]
  rfl

/-- What is left to do after a segment: the field is completed or the walk goes on. -/
def proceed (d : Draft) (spot : Spot) (f : Field) (tail : List Segment) :
    Except SchemaError Draft :=
  if tail.isEmpty then .ok { d with root := d.root.modify (complete f) spot.way }
  else d.walk spot f tail

theorem walk_cons (d : Draft) (spot : Spot) (f : Field) (s : Segment) (tail : List Segment) :
    d.walk spot f (s :: tail) =
      (d.descend spot f s tail.isEmpty).bind fun r => r.1.proceed r.2 f tail := by
  cases tail <;> rfl

/-- Going along segments with names is going along their hops. -/
theorem walk_eq_follow {segments : List Segment} (names : ∀ s ∈ segments, s.name ≠ "")
    (nonempty : segments ≠ []) (tracks : d.Tracks)
    (named : Way.Named (w ++ segments.flatMap Segment.hops)) (found : d.root.at? w = some t)
    (holds : t.kind = .object) :
    d.walk ⟨w, Way.place w⟩ f segments = d.follow w f (segments.flatMap Segment.hops) := by
  induction segments generalizing d w t with
  | nil => contradiction
  | cons s tail ih =>
    have ne : s.name ≠ "" := names s List.mem_cons_self
    have namesTail : ∀ s ∈ tail, s.name ≠ "" := fun s mem => names s (List.mem_cons_of_mem _ mem)
    have start := Way.head?_flatMap_hops_ne namesTail
    rw [List.flatMap_cons, ← List.append_assoc] at named
    have namedHops := named.of_append_left
    rw [walk_cons, ← isEmpty_flatMap_hops namesTail, List.flatMap_cons,
      follow_hops ne tracks namedHops found holds start]
    cases descended : d.descend ⟨w, Way.place w⟩ f s (tail.flatMap Segment.hops).isEmpty with
    | error e => rfl
    | ok r =>
      obtain ⟨d', spot⟩ := r
      obtain ⟨rfl, tracks', node, at', kind⟩ :=
        descend_of_ok ne tracks namedHops found holds start descended
      cases tail with
      | nil => rfl
      | cons r tail =>
        rw [demand_flatMap_hops f (namesTail r List.mem_cons_self)] at kind
        exact ih namesTail (List.cons_ne_nil r tail) tracks' named at' kind

theorem proceed_eq_follow {tail : List Segment} (names : ∀ s ∈ tail, s.name ≠ "")
    (tracks : d.Tracks) (named : Way.Named (w ++ tail.flatMap Segment.hops))
    (found : d.root.at? w = some t) (kind : t.kind = f.demand (tail.flatMap Segment.hops)) :
    d.proceed ⟨w, Way.place w⟩ f tail = d.follow w f (tail.flatMap Segment.hops) := by
  cases tail with
  | nil => rfl
  | cons s tail =>
    rw [demand_flatMap_hops f (names s List.mem_cons_self)] at kind
    exact walk_eq_follow names (List.cons_ne_nil s tail) tracks named found kind

end Draft

end ShapeLines
