import ShapeLines.Proofs.Schema.Declared

/-!
# Neat schemas

A schema is neat when it is in the form that a draft has: properties and keywords ascend, no keyword
belongs to the form of the document, and no node says of itself that it is required.
-/

namespace ShapeLines

namespace Field

open Keyword (isStructural)

theorem isStructural_of_mem_keywords {f : Field} {e : String × Json} (mem : e ∈ f.keywords) :
    isStructural e.1 = false := by
  have enum : ∀ e ∈ f.enumKeywords, e.1 = "enum" ∨ e.1 = "oneOf" := by
    intro e mem
    unfold enumKeywords at mem
    dsimp only at mem
    split at mem
    · simp at mem
    · split at mem
      · exact .inl (by rw [List.mem_singleton.mp mem])
      · exact .inr (by rw [List.mem_singleton.mp mem])
  have const : ∀ e ∈ f.constKeywords, e.1 = "const" := by
    intro e mem
    unfold constKeywords at mem
    split at mem
    · simp at mem
    · rw [List.mem_singleton.mp mem]
    · rw [List.mem_singleton.mp mem]
  have text (key : String) (value : String → Json) (raw : Option String) :
      ∀ e ∈ textKeyword key value raw, e.1 = key := by
    intro e mem
    cases raw with
    | none => simp [textKeyword] at mem
    | some raw => rw [List.mem_singleton.mp mem]
  unfold keywords at mem
  simp only [List.mem_append] at mem
  rcases mem with ((((((mem | mem) | mem) | mem) | mem) | mem) | mem)
  · rw [text _ _ _ e mem]
    decide
  · rcases enum e mem with key | key <;> rw [key] <;> decide
  · rw [const e mem]
    decide
  · rw [text _ _ _ e mem]
    decide
  · rw [text _ _ _ e mem]
    decide
  · rw [text _ _ _ e mem]
    decide
  · unfold extraKeywords at mem
    obtain ⟨d, kept, rfl⟩ := List.mem_map.mp mem
    simpa using (List.mem_filter.mp kept).2

end Field

namespace Schema

variable {s t : Schema} {w : List Hop}

def marks : Schema → Marks
  | .scalar _ marks => marks
  | .array marks _ => marks
  | .object marks _ _ => marks

theorem marks_label (s : Schema) : s.label.marks = s.marks := by
  cases s <;> rfl

/-- The marks of a node that comes from a draft. -/
structure Marks.Tidy (marks : Marks) : Prop where
  flag : marks.flag = false
  ascending : Entries.Ascending marks.keywords
  plain : ∀ e ∈ marks.keywords, Keyword.isStructural e.1 = false

/-- The properties of every object ascend. -/
def Ordered (s : Schema) : Prop :=
  ∀ w marks required properties, at? w s = some (.object marks required properties) →
    Entries.Ascending properties

structure Neat (s : Schema) : Prop where
  tidy : ∀ w t, at? w s = some t → t.marks.Tidy
  ordered : Ordered s

theorem Ordered.at? (h : Ordered s) (found : at? w s = some t) : Ordered t := by
  intro v marks required properties at'
  apply h (w ++ v) marks required properties
  rw [at?_append, found]
  exact at'

theorem Neat.at? (h : Neat s) (found : s.at? w = some t) : Neat t where
  tidy v r at' := h.tidy (w ++ v) r (by rw [at?_append, found]; exact at')
  ordered := h.ordered.at? found

theorem Ordered.ascending {marks : Marks} {required : List String}
    {properties : List (String × Schema)} (h : Ordered (.object marks required properties)) :
    Entries.Ascending properties :=
  h [] marks required properties (at?_nil _)

theorem ordered_iff : Ordered s ↔
    (∀ marks required properties, s = .object marks required properties →
      Entries.Ascending properties) ∧ ∀ hop t, s.at? [hop] = some t → Ordered t := by
  constructor
  · intro h
    refine ⟨fun marks required properties eq => ?_, fun hop t found => h.at? found⟩
    subst eq
    exact h.ascending
  · intro ⟨here, below⟩ w marks required properties found
    cases w with
    | nil => exact here marks required properties (by simpa using found)
    | cons hop w =>
      rw [at?_cons] at found
      obtain ⟨t, at', found⟩ := Option.bind_eq_some_iff.mp found
      exact below hop t at' w marks required properties found

theorem ordered_modify {g : Schema → Schema} (keeps : ∀ t, Ordered t → Ordered (g t))
    (w : List Hop) (h : Ordered s) : Ordered (s.modify g w) := by
  induction w generalizing s with
  | nil => exact keeps s h
  | cons hop w ih =>
    obtain ⟨here, below⟩ := ordered_iff.mp h
    refine ordered_iff.mpr ⟨fun marks required properties eq => ?_, fun h' t found => ?_⟩
    · cases s with
      | scalar => cases hop <;> simp [modify] at eq
      | array _ items =>
        cases hop with
        | property => simp [modify] at eq
        | elements => cases items <;> simp [modify] at eq
      | object marks' required' properties' =>
        have ascending := here marks' required' properties' rfl
        cases hop with
        | elements =>
          cases eq
          exact ascending
        | property name =>
          rw [modify] at eq
          cases eq
          exact ascending.adjust name _
    · rw [at?_modify_cons] at found
      split at found
      · obtain ⟨r, at', eq⟩ := Option.bind_eq_some_iff.mp found
        have same : r.modify g w = t := by simpa using eq
        rw [← same]
        exact ih (below h' r at')
      · exact below h' t found

theorem ordered_of_isLeaf (leaf : s.isLeaf = true) : Ordered s := by
  refine ordered_iff.mpr ⟨fun marks required properties eq => ?_, fun hop t found => ?_⟩
  · subst eq
    have nil : properties = [] := by simpa [isLeaf] using leaf
    rw [nil]
    exact List.Pairwise.nil
  · rw [Draft.at?_cons_of_isLeaf leaf] at found
    contradiction

theorem ordered_bare (kind : Kind) : Ordered (bare kind) :=
  ordered_of_isLeaf (Draft.isLeaf_bare kind)

theorem ordered_addChild {hop : Hop} {child : Schema} (hc : Ordered child) (h : Ordered s) :
    Ordered (addChild hop child s) := by
  obtain ⟨here, below⟩ := ordered_iff.mp h
  by_cases holds : s.kind = hop.holder
  · refine ordered_iff.mpr ⟨fun marks required properties eq => ?_, fun h' t found => ?_⟩
    · cases s with
      | scalar => cases hop <;> simp [addChild, addProperty, setElements] at eq
      | array => cases hop <;> simp [addChild, addProperty, setElements] at eq
      | object marks' required' properties' =>
        have ascending := here marks' required' properties' rfl
        cases hop with
        | property name =>
          cases eq
          exact ascending.insert name child
        | elements => contradiction
    · rw [at?_addChild holds] at found
      split at found
      · have same : child = t := by simpa using found
        rwa [← same]
      · exact below h' t found
  · have unchanged : addChild hop child s = s := by
      cases hop <;> cases s <;> first | rfl | exact absurd rfl holds
    rwa [unchanged]

theorem Ordered.of_relabels {g : Schema → Schema} {φ : Label → Label} (relabels : Relabels g φ)
    (kinds : ∀ t, (g t).kind = t.kind)
    (same : ∀ marks required properties, ∃ marks' required',
      g (.object marks required properties) = .object marks' required' properties)
    (h : Ordered s) : Ordered (g s) := by
  obtain ⟨here, below⟩ := ordered_iff.mp h
  refine ordered_iff.mpr ⟨fun marks required properties eq => ?_, fun hop t found => ?_⟩
  · cases s with
    | object marks' required' properties' =>
      obtain ⟨_, _, eq'⟩ := same marks' required' properties'
      rw [eq'] at eq
      cases eq
      exact here _ _ _ rfl
    | scalar =>
      have kind := kinds (.scalar ‹_› ‹_›)
      rw [eq] at kind
      contradiction
    | array =>
      have kind := kinds (.array ‹_› ‹_›)
      rw [eq] at kind
      contradiction
  · rw [relabels.below] at found
    exact below hop t found

end Schema

namespace Draft

open Schema

variable {d d' : Draft} {f : Field} {fields : List Field} {w rest : List Hop} {hop : Hop}

theorem ordered_require (name : String) (w : List Hop) (h : Ordered d.root) :
    Ordered (d.root.modify (require name) w) := by
  refine ordered_modify (fun t ht => ?_) w h
  refine ht.of_relabels (relabels_require name) (fun t => ?_) fun _ _ _ => ⟨_, _, rfl⟩
  cases t <;> rfl

theorem ordered_complete (f : Field) (w : List Hop) (h : Ordered d.root) :
    Ordered (d.root.modify (complete f) w) := by
  refine ordered_modify (fun t ht => ?_) w h
  refine ht.of_relabels (relabels_complete f) (fun t => ?_) fun _ _ _ => ⟨_, _, rfl⟩
  cases t <;> rfl

theorem ordered_reach {kind : Kind} (h : Ordered d.root) (ok : d.reach w hop kind = .ok d') :
    Ordered d'.root := by
  unfold reach at ok
  split at ok
  · split at ok
    · cases ok
      exact h
    · contradiction
  · cases ok
    exact ordered_modify (fun t ht => ordered_addChild (ordered_bare kind) ht) w h

theorem ordered_follow (h : Ordered d.root) (ok : d.follow w f rest = .ok d') :
    Ordered d'.root := by
  induction rest generalizing d w with
  | nil =>
    cases ok
    exact ordered_complete f w h
  | cons hop rest ih =>
    rw [follow, step] at ok
    cases reached : d.reach w hop (f.demand rest) with
    | error e =>
      rw [reached] at ok
      contradiction
    | ok e =>
      rw [reached] at ok
      have ordered := ordered_reach h reached
      refine ih (d := e.list w (f.listed? (hop :: rest))) ?_ ok
      cases f.listed? (hop :: rest) with
      | none => exact ordered
      | some name => exact ordered_require name w ordered

theorem ordered_declare (h : Ordered d.root) (sound : d.Sound) (placed : f.Placed)
    (ok : d.declare f = .ok d') : Ordered d'.root := by
  rw [declare_eq_follow sound placed.plain placed.nonempty] at ok
  cases rooted : d.ensureKind .root (f.demand f.way) with
  | error e =>
    rw [rooted] at ok
    contradiction
  | ok e =>
    rw [rooted] at ok
    refine ordered_follow (d := e) ?_ ok
    unfold ensureKind at rooted
    simp only [Spot.root, at?_nil] at rooted
    split at rooted
    · cases rooted
      exact h
    · split at rooted
      · cases rooted
        exact ordered_bare _
      · contradiction

theorem ordered_ofFields (placed : ∀ f ∈ fields, f.Placed) (ok : ofFields fields = .ok d) :
    Ordered d.root := by
  induction fields using List.reverseRecOn generalizing d with
  | nil =>
    cases ok
    exact ordered_bare .object
  | append_singleton fields f ih =>
    rw [ofFields_concat] at ok
    cases before : ofFields fields with
    | error e =>
      rw [before] at ok
      contradiction
    | ok e =>
      rw [before] at ok
      have placedFields : ∀ g ∈ fields, g.Placed :=
        fun g mem => placed g (List.mem_append_left _ mem)
      exact ordered_declare (ih placedFields before) (declares_ofFields placedFields before).sound
        (placed f (by simp)) ok

/-- The keywords that several fields leave at a node ascend and are all passed through. -/
theorem updates_tidy (fs : List Field) {keywords : List (String × Json)}
    (ascending : Entries.Ascending keywords)
    (plain : ∀ e ∈ keywords, Keyword.isStructural e.1 = false) :
    Entries.Ascending (fs.foldl (fun k f => Entries.update k f.keywords) keywords) ∧
      ∀ e ∈ fs.foldl (fun k f => Entries.update k f.keywords) keywords,
        Keyword.isStructural e.1 = false := by
  induction fs generalizing keywords with
  | nil => exact ⟨ascending, plain⟩
  | cons f fs ih =>
    apply ih (ascending.update f.keywords)
    intro e mem
    rcases Entries.mem_update mem with old | new
    · exact plain e old
    · exact Field.isStructural_of_mem_keywords new

theorem LabelOf.tidy {u : List Hop} {l : Label} (label : LabelOf fields u l) : l.marks.Tidy := by
  have nothing : ∀ e ∈ ([] : List (String × Json)), Keyword.isStructural e.1 = false := by simp
  have keywords := updates_tidy (ending fields u) List.Pairwise.nil nothing
  rw [← label.keywords] at keywords
  exact ⟨label.flag, keywords.1, keywords.2⟩

theorem neat_ofFields (placed : ∀ f ∈ fields, f.Placed) (ok : ofFields fields = .ok d) :
    Neat d.root := by
  have declares := declares_ofFields placed ok
  refine ⟨fun w t found => ?_, ordered_ofFields placed ok⟩
  rw [← marks_label]
  exact (declares.labelOf found).tidy

end Draft

end ShapeLines
