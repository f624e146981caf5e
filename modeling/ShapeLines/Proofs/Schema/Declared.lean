import ShapeLines.Proofs.Arranged
import ShapeLines.Proofs.Schema.Declaration

/-!
# What a list of fields leaves in a draft

A draft that a list of fields has built has a node for every part of the way of a field. The label
of a node is known from the fields that end at it, the fields that go on below it, and the required
fields that are listed in it.
-/

namespace ShapeLines

/-- The field has a place of its own, and a plain one. -/
structure Field.Placed (f : Field) : Prop where
  plain : Segment.Plain f.segments
  nonempty : f.segments ≠ []

/-- The last segment of the field is the given name, with or without a hop, right below `u`. -/
def Field.EndsBelow (f : Field) (u : List Hop) (name : String) : Prop :=
  f.way = u ++ [Hop.property name] ∨ f.way = u ++ [Hop.property name] ++ [Hop.elements]

/-- The name that a field lists as required at the node `u`. -/
def Field.listedAt? (f : Field) (u : List Hop) : Option String :=
  (Way.beyond? u f.way).bind f.listed?

namespace Draft

open Schema

variable {d d' : Draft} {f : Field} {fields : List Field} {u r : List Hop} {l : Label}

/-- The fields whose ways end at `u`. -/
def ending (fields : List Field) (u : List Hop) : List Field :=
  fields.filter fun f => f.way = u

/-- The names that are listed as required at `u`, in the order in which they are listed first. -/
def namesAt (fields : List Field) (u : List Hop) : List String :=
  (fields.filterMap (·.listedAt? u)).eraseDups

/-- A label is what the fields say of the node at `u`. -/
structure LabelOf (fields : List Field) (u : List Hop) (l : Label) : Prop where
  kind : ∀ f ∈ fields, ∀ r, u ++ r = f.way → l.kind = f.demand r
  type : l.type = ((ending fields u).getLast?.map Field.type).getD (bare l.kind).type
  flag : l.marks.flag = false
  keywords : l.marks.keywords =
    (ending fields u).foldl (fun keywords f => Entries.update keywords f.keywords) []
  required : l.required = namesAt fields u

/-- The draft is what the fields say. -/
structure Declares (fields : List Field) (d : Draft) : Prop where
  sound : d.Sound
  isSome_iff : ∀ u, (d.labels u).isSome ↔ ∃ f ∈ fields, u <+: f.way
  label : ∀ u l, d.labels u = some l → LabelOf fields u l

theorem ends_or_away (fields : List Field) (w : List Hop) :
    (∃ f ∈ fields, f.way = w) ∨ ∀ f ∈ fields, f.way ≠ w := by
  by_cases ends : ∃ f ∈ fields, f.way = w
  · exact .inl ends
  · exact .inr fun f mem eq => ends ⟨f, mem, eq⟩

theorem ending_concat (fields : List Field) (f : Field) (u : List Hop) :
    ending (fields ++ [f]) u = ending fields u ++ if f.way = u then [f] else [] := by
  unfold ending
  rw [List.filter_append]
  congr 1
  by_cases h : f.way = u <;> simp [h]

/-- No name is listed twice. -/
theorem nodup_namesAt (fields : List Field) (u : List Hop) : (namesAt fields u).Nodup :=
  Arranged.nodup_eraseDups _

theorem namesAt_concat (fields : List Field) (f : Field) (u : List Hop) :
    namesAt (fields ++ [f]) u =
      (f.listedAt? u).elim (namesAt fields u) fun name =>
        if (namesAt fields u).contains name then namesAt fields u
        else namesAt fields u ++ [name] := by
  unfold namesAt
  rw [List.filterMap_append]
  cases h : f.listedAt? u with
  | none => simp [h]
  | some name =>
    have last : [f].filterMap (·.listedAt? u) = [name] := by simp [h]
    rw [last, Arranged.eraseDups_concat]
    rfl

/-- A node of which only the kind is known is what no fields say. -/
theorem labelOf_bare (away : ∀ f ∈ fields, ¬ u <+: f.way) (kind : Kind) :
    LabelOf fields u (.bare kind) := by
  have noEnd : ending fields u = [] := by
    apply List.filter_eq_nil_iff.mpr
    intro f mem
    have ne : f.way ≠ u := fun eq => away f mem (eq ▸ List.prefix_rfl)
    simpa using ne
  have noNames : fields.filterMap (·.listedAt? u) = [] := by
    apply List.filterMap_eq_nil_iff.mpr
    intro f mem
    rw [Field.listedAt?, Way.beyond?_eq_none_iff.mpr (away f mem)]
    rfl
  refine ⟨fun f mem r eq => absurd ⟨r, eq⟩ (away f mem), ?_, ?_, ?_, ?_⟩
  · rw [noEnd, Label.kind_bare]
    exact type_label (bare kind)
  · cases kind <;> rfl
  · rw [noEnd]
    cases kind <;> rfl
  · rw [namesAt, noNames]
    cases kind <;> rfl

theorem LabelOf.of_aside (label : LabelOf fields u l) (away : ¬ u <+: f.way) :
    LabelOf (fields ++ [f]) u l := by
  have ne : f.way ≠ u := fun eq => away (eq ▸ List.prefix_rfl)
  have sameEnd : ending (fields ++ [f]) u = ending fields u := by
    rw [ending_concat, if_neg ne, List.append_nil]
  have notListed : f.listedAt? u = none := by
    rw [Field.listedAt?, Way.beyond?_eq_none_iff.mpr away]
    rfl
  constructor
  · intro g mem r eq
    rcases List.mem_append.mp mem with mem | mem
    · exact label.kind g mem r eq
    · rw [List.mem_singleton.mp mem] at eq
      exact absurd ⟨r, eq⟩ away
  · rw [sameEnd, label.type]
  · exact label.flag
  · rw [sameEnd, label.keywords]
  · rw [namesAt_concat, notListed, label.required]
    rfl

theorem demand_of_listed? {name : String} (listed : f.listed? r = some name) :
    f.demand r = .object := by
  unfold Field.listed? at listed
  split at listed
  · rfl
  · rfl
  · contradiction

theorem LabelOf.mark (label : LabelOf fields u l) (kind : l.kind = f.demand r)
    (eq : u ++ r = f.way) : LabelOf (fields ++ [f]) u (mark f r l) := by
  have kinds : ∀ g ∈ fields ++ [f], ∀ s, u ++ s = g.way →
      (Draft.mark f r l).kind = g.demand s := by
    intro g mem s eq'
    rw [kind_mark]
    rcases List.mem_append.mp mem with mem | mem
    · exact label.kind g mem s eq'
    · rw [List.mem_singleton.mp mem] at eq' ⊢
      rw [kind, List.append_cancel_left (eq.trans eq'.symm)]
  have listed : f.listedAt? u = f.listed? r := by
    rw [Field.listedAt?, Way.beyond?_eq_some_iff.mpr eq]
    rfl
  cases r with
  | nil =>
    have here : f.way = u := by rw [← eq, List.append_nil]
    have last : ending (fields ++ [f]) u = ending fields u ++ [f] := by
      rw [ending_concat, if_pos here]
    refine ⟨kinds, ?_, label.flag, ?_, ?_⟩
    · rw [last, List.getLast?_concat]
      exact type_completing kind
    · rw [last, List.foldl_append, ← label.keywords]
      rfl
    · rw [namesAt_concat, listed, ← label.required]
      rfl
  | cons hop r =>
    have notHere : f.way ≠ u := by simp [← eq]
    have same : ending (fields ++ [f]) u = ending fields u := by
      rw [ending_concat, if_neg notHere, List.append_nil]
    refine ⟨kinds, ?_, ?_, ?_, ?_⟩
    · rw [type_mark_cons, kind_mark, same, label.type]
    · rw [marks_mark_cons, label.flag]
    · rw [marks_mark_cons, same, label.keywords]
    · rw [namesAt_concat, listed, mark_cons]
      cases h : f.listed? (hop :: r) with
      | none => exact label.required
      | some name =>
        have object : l.kind = .object := by rw [kind, demand_of_listed? h]
        simp only [Option.elim_some, listing, object, if_true, label.required]

theorem declares_empty : Declares [] empty where
  sound := sound_empty
  isSome_iff u := by
    have none : empty.labels u = none := if_pos rfl
    simp [none]
  label u l found := by
    have none : empty.labels u = none := if_pos rfl
    rw [none] at found
    contradiction

/-- A declaration that succeeds adds its field to what the draft says. -/
theorem Declares.declare (declares : Declares fields d) (placed : f.Placed)
    (ok : d.declare f = .ok d') : Declares (fields ++ [f]) d' := by
  rcases declare_outcome declares.sound placed.plain placed.nonempty with
    ⟨_, _, _, _, _, _, failed⟩ | ⟨fits, made, ok', sound, labels⟩
  · rw [failed] at ok
    contradiction
  · rw [ok] at ok'
    cases ok'
    refine ⟨sound, fun u => ?_, fun u l found => ?_⟩
    · rw [labels]
      by_cases le : u <+: f.way
      · obtain ⟨r, eq⟩ := le
        rw [touched_of_append u r eq]
        simp only [Option.isSome_some, true_iff]
        exact ⟨f, by simp, r, eq⟩
      · rw [touched_aside le, declares.isSome_iff]
        simp [le]
    · rw [labels] at found
      by_cases le : u <+: f.way
      · obtain ⟨r, eq⟩ := le
        rw [touched_of_append u r eq] at found
        cases found
        cases old : d.labels u with
        | none =>
          have away : ∀ g ∈ fields, ¬ u <+: g.way := by
            intro g mem le
            have isSome := (declares.isSome_iff u).mpr ⟨g, mem, le⟩
            rw [old] at isSome
            contradiction
          exact (labelOf_bare away _).mark (Label.kind_bare _) eq
        | some l => exact (declares.label u l old).mark (fits u r l eq old) eq
      · rw [touched_aside le] at found
        exact (declares.label u l found).of_aside le

theorem ofFields_concat (fields : List Field) (f : Field) :
    ofFields (fields ++ [f]) = (ofFields fields).bind fun d => d.declare f := by
  unfold ofFields
  rw [List.foldlM_append]
  cases fields.foldlM Draft.declare empty with
  | error e => rfl
  | ok d =>
    show [f].foldlM Draft.declare d = d.declare f
    rw [List.foldlM_cons]
    cases d.declare f <;> rfl

/-- What fields leave in a draft, if they can be declared one after the other. -/
theorem declares_ofFields (placed : ∀ f ∈ fields, f.Placed) (ok : ofFields fields = .ok d) :
    Declares fields d := by
  induction fields using List.reverseRecOn generalizing d with
  | nil =>
    cases ok
    exact declares_empty
  | append_singleton fields f ih =>
    rw [ofFields_concat] at ok
    cases before : ofFields fields with
    | error e =>
      rw [before] at ok
      contradiction
    | ok e =>
      rw [before] at ok
      have declared : e.declare f = .ok d := ok
      have declares := ih (fun g mem => placed g (List.mem_append_left _ mem)) before
      exact declares.declare (placed f (by simp)) declared

/-- Fields that agree on the kinds of all nodes can be declared one after the other. -/
theorem ofFields_of_agree (placed : ∀ f ∈ fields, f.Placed) (kindAt : List Hop → Kind)
    (agree : ∀ f ∈ fields, ∀ u r, u ++ r = f.way → f.demand r = kindAt u) :
    ∃ d, ofFields fields = .ok d := by
  induction fields using List.reverseRecOn with
  | nil => exact ⟨empty, rfl⟩
  | append_singleton fields f ih =>
    have placedF := placed f (by simp)
    have placedFields : ∀ g ∈ fields, g.Placed := fun g mem => placed g (List.mem_append_left _ mem)
    have agreeFields : ∀ g ∈ fields, ∀ u r, u ++ r = g.way → g.demand r = kindAt u :=
      fun g mem => agree g (List.mem_append_left _ mem)
    obtain ⟨d, before⟩ := ih placedFields agreeFields
    have declares := declares_ofFields placedFields before
    rcases declare_outcome declares.sound placedF.plain placedF.nonempty with
      ⟨u, r, l, eq, found, ne, -⟩ | ⟨-, d', ok, -⟩
    · have isSome : (d.labels u).isSome := by rw [found]; rfl
      obtain ⟨g, mem, s, eq'⟩ := (declares.isSome_iff u).mp isSome
      refine absurd ?_ ne
      rw [(declares.label u l found).kind g mem s eq', agreeFields g mem u s eq',
        agree f (by simp) u r eq]
    · refine ⟨d', ?_⟩
      rw [ofFields_concat, before]
      exact ok

theorem listedAt?_eq_some_iff {name : String} :
    f.listedAt? u = some name ↔ f.required = true ∧ f.EndsBelow u name := by
  unfold Field.listedAt? Field.EndsBelow
  rw [Option.bind_eq_some_iff]
  simp only [Way.beyond?_eq_some_iff]
  constructor
  · intro ⟨r, eq, listed⟩
    unfold Field.listed? at listed
    split at listed
    · split at listed
      · next isRequired =>
        cases listed
        exact ⟨isRequired, .inl eq.symm⟩
      · contradiction
    · split at listed
      · next isRequired =>
        cases listed
        exact ⟨isRequired, .inr (by rw [← eq, List.append_assoc]; rfl)⟩
      · contradiction
    · contradiction
  · intro ⟨isRequired, way⟩
    rcases way with way | way
    · exact ⟨_, way.symm, by simp [Field.listed?, isRequired]⟩
    · rw [List.append_assoc] at way
      exact ⟨_, way.symm, by simp [Field.listed?, isRequired]⟩

/-- The names listed at a node are those of the required fields right below it. -/
theorem mem_namesAt {name : String} :
    name ∈ namesAt fields u ↔ ∃ f ∈ fields, f.required = true ∧ f.EndsBelow u name := by
  unfold namesAt
  rw [List.mem_eraseDups, List.mem_filterMap]
  simp only [listedAt?_eq_some_iff]

namespace Declares

variable {w : List Hop} {t : Schema}

theorem fields_eq_nil (declares : Declares fields d) (leaf : d.root.isLeaf = true) :
    fields = [] := by
  apply List.eq_nil_iff_forall_not_mem.mpr
  intro f mem
  have isSome := (declares.isSome_iff []).mpr ⟨f, mem, List.nil_prefix⟩
  rw [labels, if_pos leaf] at isSome
  contradiction

/-- Below the root the nodes are the parts of the ways of the fields. -/
theorem isSome_at?_iff (declares : Declares fields d) (ne : w ≠ []) :
    (d.root.at? w).isSome ↔ ∃ f ∈ fields, w <+: f.way := by
  cases leaf : d.root.isLeaf with
  | true =>
    obtain ⟨hop, v, rfl⟩ := List.exists_cons_of_ne_nil ne
    rw [declares.fields_eq_nil leaf, at?_cons_of_isLeaf leaf]
    simp
  | false => rw [← declares.isSome_iff, labels_of_held leaf, isSome_labelAt?]

/-- One more hop leads on from a node where the way of a field goes on with it. -/
theorem isSome_at?_hop_iff (declares : Declares fields d) (found : d.root.at? w = some t)
    (hop : Hop) : (t.at? [hop]).isSome ↔ ∃ f ∈ fields, ∃ rest, f.way = w ++ hop :: rest := by
  have below : t.at? [hop] = d.root.at? (w ++ [hop]) := by
    rw [at?_append, found]
    rfl
  rw [below, declares.isSome_at?_iff (by simp)]
  constructor
  · intro ⟨f, mem, rest, eq⟩
    exact ⟨f, mem, rest, by simp [← eq]⟩
  · intro ⟨f, mem, rest, eq⟩
    exact ⟨f, mem, rest, by simp [eq]⟩

theorem labelOf (declares : Declares fields d) (found : d.root.at? w = some t) :
    LabelOf fields w t.label := by
  cases leaf : d.root.isLeaf with
  | true =>
    have nil := declares.fields_eq_nil leaf
    cases w with
    | nil =>
      rw [at?_nil, declares.sound.fresh leaf] at found
      cases found
      exact labelOf_bare (by simp [nil]) .object
    | cons hop v =>
      rw [at?_cons_of_isLeaf leaf] at found
      contradiction
  | false =>
    apply declares.label w _
    rw [labels_of_held leaf, labelAt?, found]
    rfl

end Declares

/-- Where ways are distinct one field at most ends at a node. -/
theorem ending_eq_singleton (distinct : (fields.map Field.way).Nodup) (mem : f ∈ fields) :
    ending fields f.way = [f] := by
  induction fields with
  | nil => contradiction
  | cons g rest ih =>
    rw [List.map_cons, List.nodup_cons] at distinct
    unfold ending
    rcases List.mem_cons.mp mem with rfl | mem
    · have others : rest.filter (fun g => g.way = f.way) = [] := by
        apply List.filter_eq_nil_iff.mpr
        intro g hg
        have ne : g.way ≠ f.way := fun eq => distinct.1 (eq ▸ List.mem_map_of_mem hg)
        simpa using ne
      rw [List.filter_cons_of_pos (by simp), others]
    · have ne : g.way ≠ f.way := fun eq => distinct.1 (eq ▸ List.mem_map_of_mem mem)
      rw [List.filter_cons_of_neg (by simpa using ne)]
      exact ih distinct.2 mem

theorem ending_eq_nil (away : ∀ f ∈ fields, f.way ≠ u) : ending fields u = [] := by
  apply List.filter_eq_nil_iff.mpr
  intro f mem
  simpa using away f mem

namespace LabelOf

theorem keywords_of_mem (label : LabelOf fields u l)
    (distinct : (fields.map Field.way).Nodup) (mem : f ∈ fields)
    (here : f.way = u) : l.marks.keywords = Entries.ofList f.keywords := by
  subst here
  rw [label.keywords, ending_eq_singleton distinct mem]
  rfl

theorem type_of_mem (label : LabelOf fields u l)
    (distinct : (fields.map Field.way).Nodup) (mem : f ∈ fields)
    (here : f.way = u) : l.type = f.type := by
  subst here
  rw [label.type, ending_eq_singleton distinct mem]
  rfl

theorem keywords_of_away (label : LabelOf fields u l) (away : ∀ f ∈ fields, f.way ≠ u) :
    l.marks.keywords = [] := by
  rw [label.keywords, ending_eq_nil away]
  rfl

end LabelOf

end Draft

theorem Schema.draft_of_ok {version : String} {fields : List Field} {doc : Json}
    (ok : Schema.ofFields version fields = .ok doc) :
    ∃ d, Draft.ofFields fields = .ok d ∧ d.root.document version = doc := by
  unfold Schema.ofFields at ok
  cases drafted : Draft.ofFields fields with
  | error e =>
    rw [drafted] at ok
    contradiction
  | ok d =>
    rw [drafted] at ok
    cases ok
    exact ⟨d, rfl, rfl⟩

namespace Field

variable {fields : List Field}

theorem placed_of_isPlain {f : Field} (plain : Fullname.IsPlain f.fullname) : f.Placed :=
  ⟨plain.segments, plain.segments_ne_nil⟩

/-- Fields with different plain fullnames describe different ways. -/
theorem nodup_way (plain : ∀ f ∈ fields, Fullname.IsPlain f.fullname)
    (distinct : (fields.map Field.fullname).Nodup) : (fields.map Field.way).Nodup := by
  have fullnames : fields.map Field.fullname = (fields.map Field.way).map Way.place := by
    rw [List.map_map]
    exact List.map_congr_left fun f mem => (place_way (plain f mem)).symm
  rw [fullnames] at distinct
  exact List.Pairwise.of_map Way.place (fun a b ne eq => ne (congrArg Way.place eq)) distinct

end Field

end ShapeLines
