import ShapeLines.Proofs.Schema.Growth

/-!
# What a field leaves in a draft

Going down from a node, a field either meets a node of another kind than it demands, or it reaches
every node on its way and leaves its mark there: the last node takes its type and keywords, the
object around it lists it if it is required, and nodes off its way stay as they are.
-/

namespace ShapeLines.Draft

open Schema

variable {d d' : Draft} {f : Field} {w rest : List Hop} {hop : Hop} {t : Schema}

/-- The label that a field leaves at a node below which `rest` is left to go. -/
def mark (f : Field) (rest : List Hop) (l : Label) : Label :=
  match rest with
  | [] => completing f l
  | hop :: rest => (f.listed? (hop :: rest)).elim l fun name => listing name l

theorem mark_cons (f : Field) (hop : Hop) (rest : List Hop) (l : Label) :
    mark f (hop :: rest) l = (f.listed? (hop :: rest)).elim l fun name => listing name l :=
  rfl

theorem type_listing (name : String) (l : Label) : (listing name l).type = l.type := by
  unfold listing
  split <;> rfl

theorem marks_listing (name : String) (l : Label) : (listing name l).marks = l.marks := by
  unfold listing
  split <;> rfl

theorem kind_completing (f : Field) (l : Label) : (completing f l).kind = l.kind := by
  obtain ⟨type, marks, required⟩ := l
  cases type with
  | scalar type => cases hf : f.type <;> simp [completing, Label.kind, hf, FieldType.kind]
  | array => rfl
  | object => rfl

/-- A node of the kind of a field takes the type of the field. -/
theorem type_completing {l : Label} (kind : l.kind = f.type.kind) :
    (completing f l).type = f.type := by
  obtain ⟨type, marks, required⟩ := l
  cases type <;> cases hf : f.type <;> simp_all [completing, Label.kind, FieldType.kind]

theorem type_mark_cons (f : Field) (hop : Hop) (rest : List Hop) (l : Label) :
    (mark f (hop :: rest) l).type = l.type := by
  rw [mark_cons]
  cases f.listed? (hop :: rest) with
  | none => rfl
  | some name => exact type_listing name l

theorem marks_mark_cons (f : Field) (hop : Hop) (rest : List Hop) (l : Label) :
    (mark f (hop :: rest) l).marks = l.marks := by
  rw [mark_cons]
  cases f.listed? (hop :: rest) with
  | none => rfl
  | some name => exact marks_listing name l

theorem kind_mark (f : Field) (rest : List Hop) (l : Label) : (mark f rest l).kind = l.kind := by
  cases rest with
  | nil => exact kind_completing f l
  | cons hop rest => unfold Label.kind; rw [type_mark_cons]

/-- What a draft has become when a field has gone one hop down from `w`. -/
structure Stepped (d d' : Draft) (w : List Hop) (f : Field) (hop : Hop) (rest : List Hop) :
    Prop where
  tracks : d'.Tracks
  labels : ∀ v, d'.root.labelAt? v =
    if v = w then (d.root.labelAt? v).map (mark f (hop :: rest))
    else if v = w ++ [hop] then some ((d.root.labelAt? v).getD (.bare (f.demand rest)))
    else d.root.labelAt? v

/-- The step that a field takes, and the labels it leaves. -/
theorem step_ok (tracks : d.Tracks) (named : Way.Named (w ++ [hop]))
    (found : d.root.at? w = some t) (holds : t.kind = hop.holder)
    (fits : ∀ l, d.root.labelAt? (w ++ [hop]) = some l → l.kind = f.demand rest) :
    ∃ d', d.step w f hop rest = .ok d' ∧ Stepped d d' w f hop rest := by
  obtain ⟨made, reached, tracks', labels⟩ := reach_ok tracks named found holds fits
  refine ⟨made.list w (f.listed? (hop :: rest)), ?_, tracks'.list w _, fun v => ?_⟩
  · unfold step
    rw [reached]
    rfl
  · rw [labelAt?_list, labels]
    split
    · next eq =>
      rw [if_neg (by simp [eq])]
      congr 1
      funext l
      simp only [mark]
      cases f.listed? (hop :: rest) <;> rfl
    · rfl

namespace Stepped

theorem here (stepped : Stepped d d' w f hop rest) :
    d'.root.labelAt? w = (d.root.labelAt? w).map (mark f (hop :: rest)) := by
  rw [stepped.labels, if_pos rfl]

theorem next (stepped : Stepped d d' w f hop rest) : d'.root.labelAt? (w ++ [hop]) =
    some ((d.root.labelAt? (w ++ [hop])).getD (.bare (f.demand rest))) := by
  rw [stepped.labels, if_neg (by simp), if_pos rfl]

theorem deeper (stepped : Stepped d d' w f hop rest) (h : Hop) (u : List Hop) :
    d'.root.labelAt? (w ++ [hop] ++ h :: u) = d.root.labelAt? (w ++ [hop] ++ h :: u) := by
  rw [stepped.labels, if_neg (by simp), if_neg (by simp)]

theorem exists_node (stepped : Stepped d d' w f hop rest)
    (fits : ∀ l, d.root.labelAt? (w ++ [hop]) = some l → l.kind = f.demand rest) :
    ∃ node, d'.root.at? (w ++ [hop]) = some node ∧ node.kind = f.demand rest := by
  obtain ⟨node, at', eq⟩ := Option.map_eq_some_iff.mp stepped.next
  refine ⟨node, at', ?_⟩
  rw [← kind_label, eq]
  cases old : d.root.labelAt? (w ++ [hop]) with
  | none => simp
  | some l => exact fits l old

end Stepped

/-- What a draft has become when a field has gone down from `w` along `rest`. -/
structure Grown (d d' : Draft) (w : List Hop) (f : Field) (rest : List Hop) : Prop where
  tracks : d'.Tracks
  on : ∀ u r, u ++ r = rest → d'.root.labelAt? (w ++ u) =
    some (mark f r ((d.root.labelAt? (w ++ u)).getD (.bare (f.demand r))))
  off : ∀ v, (∀ u r, u ++ r = rest → v ≠ w ++ u) → d'.root.labelAt? v = d.root.labelAt? v

/-- The nodes that are there already are of the kinds that a field demands. -/
def Fits (d : Draft) (w : List Hop) (f : Field) (rest : List Hop) : Prop :=
  ∀ u r l, u ++ r = rest → d.root.labelAt? (w ++ u) = some l → l.kind = f.demand r

/-- One of the nodes that are there already is of another kind than a field demands, and `r` is the
fault that says so. -/
def Clash (d : Draft) (w : List Hop) (f : Field) (rest : List Hop) (e : SchemaError) : Prop :=
  ∃ u r l, u ++ r = rest ∧ d.root.labelAt? (w ++ u) = some l ∧ l.kind ≠ f.demand r ∧
    e = .kindConflict (Way.place (w ++ u)) l.kind (f.demand r)

theorem follow_nil (tracks : d.Tracks) (found : d.root.at? w = some t)
    (kind : t.kind = f.demand []) :
    Fits d w f [] ∧ ∃ d', d.follow w f [] = .ok d' ∧ Grown d d' w f [] := by
  have label : d.root.labelAt? w = some t.label := by rw [labelAt?, found]; rfl
  refine ⟨fun u r l eq at' => ?_, _, rfl, tracks.complete f w, fun u r eq => ?_, fun v ne => ?_⟩
  · obtain ⟨rfl, rfl⟩ := List.append_eq_nil_iff.mp eq
    rw [List.append_nil, label] at at'
    cases at'
    rw [kind_label, kind]
  · obtain ⟨rfl, rfl⟩ := List.append_eq_nil_iff.mp eq
    rw [List.append_nil, labelAt?_relabel (relabels_complete f), if_pos rfl, label]
    rfl
  · rw [labelAt?_relabel (relabels_complete f), if_neg]
    have ne' := ne [] [] rfl
    rwa [List.append_nil] at ne'

theorem Clash.cons {e : SchemaError} {node : Schema} (stepped : Stepped d d' w f hop rest)
    (at' : d'.root.at? (w ++ [hop]) = some node) (kind : node.kind = f.demand rest)
    (clash : Clash d' (w ++ [hop]) f rest e) : Clash d w f (hop :: rest) e := by
  obtain ⟨u, r, l, eq, found, ne, rfl⟩ := clash
  refine ⟨hop :: u, r, l, by rw [← eq]; rfl, ?_, ne, by rw [List.append_cons w hop u]⟩
  cases u with
  | nil =>
    rw [List.append_nil, labelAt?, at'] at found
    cases found
    rw [kind_label, kind, ← eq] at ne
    contradiction
  | cons h u => rw [List.append_cons, ← stepped.deeper, found]

theorem Fits.cons (stepped : Stepped d d' w f hop rest) (found : d.root.at? w = some t)
    (kind : t.kind = hop.holder)
    (next : ∀ l, d.root.labelAt? (w ++ [hop]) = some l → l.kind = f.demand rest)
    (fits : Fits d' (w ++ [hop]) f rest) : Fits d w f (hop :: rest) := by
  intro u r l eq at'
  cases u with
  | nil =>
    rw [List.append_nil, labelAt?, found] at at'
    cases at'
    rw [List.nil_append] at eq
    rw [kind_label, kind, eq]
    rfl
  | cons h u =>
    rw [List.cons_append] at eq
    obtain ⟨rfl, after⟩ := List.cons.inj eq
    rw [List.append_cons] at at'
    cases u with
    | nil =>
      rw [List.append_nil] at at'
      rw [next l at', ← after, List.nil_append]
    | cons h' u =>
      rw [← stepped.deeper] at at'
      exact fits (h' :: u) r l after at'

theorem Grown.cons {d'' : Draft} (stepped : Stepped d d' w f hop rest)
    (found : d.root.at? w = some t) (grown : Grown d' d'' (w ++ [hop]) f rest) :
    Grown d d'' w f (hop :: rest) := by
  have label : d.root.labelAt? w = some t.label := by rw [labelAt?, found]; rfl
  refine ⟨grown.tracks, fun u r eq => ?_, fun v ne => ?_⟩
  · cases u with
    | nil =>
      rw [List.nil_append] at eq
      have away : ∀ u r, u ++ r = rest → w ≠ w ++ [hop] ++ u := by simp
      rw [List.append_nil, grown.off w away, stepped.here, label, eq]
      rfl
    | cons h u =>
      rw [List.cons_append] at eq
      obtain ⟨rfl, after⟩ := List.cons.inj eq
      rw [List.append_cons, grown.on u r after]
      cases u with
      | nil =>
        rw [List.nil_append] at after
        rw [List.append_nil, stepped.next, after]
        rfl
      | cons h' u => rw [stepped.deeper]
  · have away : ∀ u r, u ++ r = rest → v ≠ w ++ [hop] ++ u := by
      intro u r eq
      have ne' := ne (hop :: u) r (by rw [← eq]; rfl)
      rwa [List.append_cons] at ne'
    have notHere : v ≠ w := by
      have ne' := ne [] (hop :: rest) rfl
      rwa [List.append_nil] at ne'
    rw [grown.off v away, stepped.labels, if_neg notHere, if_neg (ne [hop] rest rfl)]

/-- A field that goes down from a node of the right kind either meets a node of a wrong kind, and
says so, or leaves its marks on the way and changes nothing else. -/
theorem follow_outcome (tracks : d.Tracks) (named : Way.Named (w ++ rest))
    (found : d.root.at? w = some t) (kind : t.kind = f.demand rest) :
    (∃ e, Clash d w f rest e ∧ d.follow w f rest = .error e) ∨
      (Fits d w f rest ∧ ∃ d', d.follow w f rest = .ok d' ∧ Grown d d' w f rest) := by
  induction rest generalizing d w t with
  | nil => exact .inr (follow_nil tracks found kind)
  | cons hop rest ih =>
    rw [List.append_cons] at named
    by_cases fits : ∀ l, d.root.labelAt? (w ++ [hop]) = some l → l.kind = f.demand rest
    · obtain ⟨d', ok, stepped⟩ := step_ok tracks named.of_append_left found kind fits
      obtain ⟨node, at', nodeKind⟩ := stepped.exists_node fits
      have followed : d.follow w f (hop :: rest) = d'.follow (w ++ [hop]) f rest := by
        rw [follow, ok]
        rfl
      rw [followed]
      rcases ih stepped.tracks named at' nodeKind with ⟨e, clash, failed⟩ | ⟨below, d'', ok', grown⟩
      · exact .inl ⟨e, clash.cons stepped at' nodeKind, failed⟩
      · exact .inr ⟨below.cons stepped found kind fits, d'', ok', grown.cons stepped found⟩
    · obtain ⟨l, there, ne⟩ : ∃ l, d.root.labelAt? (w ++ [hop]) = some l ∧
          l.kind ≠ f.demand rest := by
        simpa using fits
      left
      refine ⟨_, ⟨[hop], rest, l, rfl, there, ne, rfl⟩, ?_⟩
      rw [follow, step, reach_conflict there ne]
      rfl

end ShapeLines.Draft
