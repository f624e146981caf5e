import ShapeLines.Proofs.Schema.Declared

/-!
# Which fields can be declared together

A field demands a kind of every place that its fullname goes through. Fields with plain fullnames
can be declared together exactly if they agree, that is, if no two of them demand different kinds
of one place. Agreement says nothing about the order of the fields, so a list of fields and its
rearrangements are accepted or refused alike. A refusal names a place and two kinds that are
demanded of it.
-/

namespace ShapeLines

open Fullname (element join IsPlain)

theorem Segment.Plain.tail {s : Segment} {rest : List Segment} (plain : Segment.Plain (s :: rest)) :
    Segment.Plain rest where
  unmarked r mem := plain.unmarked r (List.mem_cons_of_mem s mem)
  hop r mem := plain.hop r (List.mem_cons_of_mem s mem)
  named r mem := plain.named r (List.mem_of_mem_tail mem)

namespace Field

variable {f g : Field} {fields : List Field}

/-- The kind of what a segment leads to: below it stand further segments, or it is the last one. -/
def kindBefore (f : Field) (rest : List Segment) : Kind :=
  if rest.isEmpty then f.type.kind else .object

/-- The kinds that the segments below the place `base` demand, each with its place. A bare `[]` has
no place of its own, only one for its elements. -/
def demandsBelow (f : Field) (base : String) : List Segment → List (String × Kind)
  | [] => []
  | s :: rest =>
    let place := if s.name = "" then base else join base s.name
    let own := if s.isArray then .array else f.kindBefore rest
    (if s.name = "" then [] else [(place, own)]) ++
      if s.isArray then
        (element place, f.kindBefore rest) :: f.demandsBelow (element place) rest
      else f.demandsBelow place rest

/-- The kinds that a field demands, each with the place of which it demands it. -/
def demands (f : Field) : List (String × Kind) :=
  ("", if f.segments.head?.any (·.name == "") then .array else .object) ::
    f.demandsBelow "" f.segments

/-- No two of the fields demand different kinds of one place. -/
def Agree (fields : List Field) : Prop :=
  ∀ f ∈ fields, ∀ g ∈ fields, ∀ a ∈ f.demands, ∀ b ∈ g.demands, a.1 = b.1 → a.2 = b.2

instance (fields : List Field) : Decidable (Agree fields) :=
  inferInstanceAs (Decidable (∀ f ∈ fields, _))

theorem Agree.perm {fields' : List Field} (agree : Agree fields) (perm : fields.Perm fields') :
    Agree fields' :=
  fun f hf g hg => agree f (perm.mem_iff.mpr hf) g (perm.mem_iff.mpr hg)

/-- The demands of a field hop by hop. -/
def hopDemands (f : Field) (base : String) : List Hop → List (String × Kind)
  | [] => []
  | hop :: rest => (hop.below base, f.demand rest) :: f.hopDemands (hop.below base) rest

theorem kindBefore_eq_demand (f : Field) {rest : List Segment}
    (named : ∀ s ∈ rest, s.name ≠ "") :
    f.kindBefore rest = f.demand (rest.flatMap Segment.hops) := by
  cases rest with
  | nil => rfl
  | cons s rest =>
    rw [Draft.demand_flatMap_hops f (named s List.mem_cons_self)]
    rfl

/-- Going along segments demands the same as going along their hops. -/
theorem demandsBelow_eq (f : Field) {segments : List Segment} (plain : Segment.Plain segments)
    (base : String) :
    f.demandsBelow base segments = f.hopDemands base (segments.flatMap Segment.hops) := by
  induction segments generalizing base with
  | nil => rfl
  | cons s rest ih =>
    have inner : f.kindBefore rest = f.demand (rest.flatMap Segment.hops) :=
      kindBefore_eq_demand f plain.named
    have below := ih plain.tail
    obtain ⟨name, isArray⟩ := s
    rw [demandsBelow, List.flatMap_cons, Segment.hops]
    by_cases ne : name = ""
    · have array : isArray = true := plain.hop _ List.mem_cons_self ne
      simp only [ne, array, if_true, List.nil_append, List.cons_append, hopDemands, Hop.below,
        inner, below]
    · cases isArray with
      | true =>
        simp only [ne, if_true, if_false, List.cons_append, List.nil_append, hopDemands, Hop.below,
          inner, below]
        rfl
      | false =>
        simp only [ne, if_false, List.cons_append, List.nil_append, hopDemands, Hop.below,
          inner, below, Bool.false_eq_true]

theorem demands_eq (plain : Segment.Plain f.segments) (nonempty : f.segments ≠ []) :
    f.demands = (Way.place [], f.demand f.way) :: f.hopDemands (Way.place []) f.way := by
  have root : f.demand f.way =
      if f.segments.head?.any (·.name == "") then .array else .object := by
    unfold way
    cases h : f.segments with
    | nil => contradiction
    | cons s rest =>
      by_cases ne : s.name = ""
      · have array := plain.hop s (h ▸ List.mem_cons_self) ne
        simp [Segment.hops, ne, array, demand, Hop.holder]
      · rw [Draft.demand_flatMap_hops f ne]
        simp [ne]
  rw [demands, demandsBelow_eq f plain, root]
  rfl

theorem mem_hopDemands {u way : List Hop} {e : String × Kind} :
    e ∈ (Way.place u, f.demand way) :: f.hopDemands (Way.place u) way ↔
      ∃ v r, v ++ r = way ∧ e = (Way.place (u ++ v), f.demand r) := by
  induction way generalizing u with
  | nil => simp [hopDemands]
  | cons hop way ih =>
    rw [List.mem_cons, hopDemands, ← Way.place_append_singleton, ih]
    constructor
    · rintro (rfl | ⟨v, r, rfl, rfl⟩)
      · exact ⟨[], hop :: way, rfl, by rw [List.append_nil]⟩
      · exact ⟨hop :: v, r, rfl, by simp⟩
    · rintro ⟨v, r, eq, rfl⟩
      cases v with
      | nil =>
        rw [List.nil_append] at eq
        exact .inl (by rw [eq, List.append_nil])
      | cons h v =>
        obtain ⟨rfl, rfl⟩ := List.cons.inj eq
        exact .inr ⟨v, r, rfl, by simp⟩

/-- A placed field demands a kind at every part of its way. -/
theorem Placed.mem_demands (placed : f.Placed) {e : String × Kind} :
    e ∈ f.demands ↔ ∃ u r, u ++ r = f.way ∧ e = (Way.place u, f.demand r) := by
  rw [demands_eq placed.plain placed.nonempty, mem_hopDemands]
  simp only [List.nil_append]

/-- Fields that agree demand one kind at each way that they have in common. -/
theorem Agree.demand_eq (agree : Agree fields) (placed : ∀ f ∈ fields, f.Placed) (hf : f ∈ fields)
    (hg : g ∈ fields) {u r s : List Hop} (eqF : u ++ r = f.way) (eqG : u ++ s = g.way) :
    f.demand r = g.demand s :=
  agree f hf g hg _ ((placed f hf).mem_demands.mpr ⟨u, r, eqF, rfl⟩) _
    ((placed g hg).mem_demands.mpr ⟨u, s, eqG, rfl⟩) rfl

theorem Placed.named_of_append (placed : f.Placed) {u r : List Hop} (eq : u ++ r = f.way) :
    Way.Named u :=
  Way.Named.of_append_left (eq ▸ (regular_way placed.plain).named)

end Field

namespace Draft

open Schema (Label)
open ShapeLines.Field (Agree)

variable {fields : List Field} {d : Draft}

/-- The kind that the first of the fields that go through `u` demands there. -/
def kindAt (fields : List Field) (u : List Hop) : Kind :=
  (fields.filterMap fun f => (Way.beyond? u f.way).map f.demand).head?.getD .object

theorem demand_eq_kindAt (agree : Agree fields) (placed : ∀ f ∈ fields, f.Placed) {f : Field}
    (mem : f ∈ fields) {u r : List Hop} (eq : u ++ r = f.way) : f.demand r = kindAt fields u := by
  have demanded : ∀ k ∈ fields.filterMap fun g => (Way.beyond? u g.way).map g.demand,
      f.demand r = k := by
    intro k inList
    obtain ⟨g, hg, found⟩ := List.mem_filterMap.mp inList
    obtain ⟨s, beyond, rfl⟩ := Option.map_eq_some_iff.mp found
    exact agree.demand_eq placed mem hg eq (Way.beyond?_eq_some_iff.mp beyond)
  have own : f.demand r ∈ fields.filterMap fun g => (Way.beyond? u g.way).map g.demand :=
    List.mem_filterMap.mpr ⟨f, mem, by rw [Way.beyond?_eq_some_iff.mpr eq]; rfl⟩
  unfold kindAt
  cases h : fields.filterMap fun g => (Way.beyond? u g.way).map g.demand with
  | nil =>
    rw [h] at own
    contradiction
  | cons k rest => exact demanded k (by rw [h]; exact List.mem_cons_self)

theorem agree_of_ofFields (placed : ∀ f ∈ fields, f.Placed) (ok : ofFields fields = .ok d) :
    Agree fields := by
  intro f hf g hg a ha b hb same
  obtain ⟨u, r, eqF, rfl⟩ := (placed f hf).mem_demands.mp ha
  obtain ⟨v, s, eqG, rfl⟩ := (placed g hg).mem_demands.mp hb
  have ways : u = v := Way.place_inj ((placed f hf).named_of_append eqF)
    ((placed g hg).named_of_append eqG) same
  subst ways
  have declares := declares_ofFields placed ok
  obtain ⟨l, found⟩ := Option.isSome_iff_exists.mp ((declares.isSome_iff u).mpr ⟨f, hf, r, eqF⟩)
  have label := declares.label u l found
  exact (label.kind f hf r eqF).symm.trans (label.kind g hg s eqG)

theorem exists_ofFields_iff_agree (placed : ∀ f ∈ fields, f.Placed) :
    (∃ d, ofFields fields = .ok d) ↔ Agree fields :=
  ⟨fun ⟨_, ok⟩ => agree_of_ofFields placed ok, fun agree =>
    ofFields_of_agree placed (kindAt fields) fun _ mem _ _ => demand_eq_kindAt agree placed mem⟩

/-- Two of the fields demand different kinds of one place, and the fault says so. -/
def Refused (fields : List Field) (e : SchemaError) : Prop :=
  ∃ place existing requested, e = .kindConflict place existing requested ∧ existing ≠ requested ∧
    (∃ f ∈ fields, (place, existing) ∈ f.demands) ∧ ∃ g ∈ fields, (place, requested) ∈ g.demands

theorem Refused.append {e : SchemaError} (refused : Refused fields e) (more : List Field) :
    Refused (fields ++ more) e := by
  obtain ⟨place, existing, requested, rfl, ne, ⟨f, hf, demandF⟩, g, hg, demandG⟩ := refused
  exact ⟨place, existing, requested, rfl, ne, ⟨f, List.mem_append_left _ hf, demandF⟩, g,
    List.mem_append_left _ hg, demandG⟩

/-- Declaring a field fails where an earlier field has demanded another kind. -/
theorem refused_of_declare (declares : Declares fields d) (placed : ∀ f ∈ fields, f.Placed)
    {f : Field} (placedF : f.Placed) {e : SchemaError} (failed : d.declare f = .error e) :
    Refused (fields ++ [f]) e := by
  rcases declare_outcome declares.sound placedF.plain placedF.nonempty with
    ⟨u, r, l, eq, found, ne, conflict⟩ | ⟨-, d', ok, -⟩
  · rw [conflict] at failed
    cases failed
    obtain ⟨g, hg, s, eq'⟩ := (declares.isSome_iff u).mp (by rw [found]; rfl)
    have existing : l.kind = g.demand s := (declares.label u l found).kind g hg s eq'
    refine ⟨_, _, _, rfl, ne, ⟨g, List.mem_append_left _ hg, ?_⟩, f, by simp, ?_⟩
    · exact (placed g hg).mem_demands.mpr ⟨u, s, eq', by rw [existing]⟩
    · exact placedF.mem_demands.mpr ⟨u, r, eq, rfl⟩
  · rw [ok] at failed
    contradiction

theorem refused_of_ofFields (placed : ∀ f ∈ fields, f.Placed) {e : SchemaError}
    (failed : ofFields fields = .error e) : Refused fields e := by
  induction fields using List.reverseRecOn generalizing e with
  | nil => contradiction
  | append_singleton fields f ih =>
    have placedFields : ∀ g ∈ fields, g.Placed := fun g mem => placed g (List.mem_append_left _ mem)
    rw [ofFields_concat] at failed
    cases before : ofFields fields with
    | error e' =>
      rw [before] at failed
      cases failed
      exact (ih placedFields before).append [f]
    | ok d =>
      rw [before] at failed
      exact refused_of_declare (declares_ofFields placedFields before) placedFields
        (placed f (by simp)) failed

end Draft

namespace Schema

open ShapeLines.Field (Agree)

theorem exists_ofFields_iff (version : String) (fields : List Field) :
    (∃ doc, Schema.ofFields version fields = .ok doc) ↔ ∃ d, Draft.ofFields fields = .ok d := by
  unfold Schema.ofFields
  cases Draft.ofFields fields <;> simp [Except.map]

/-- Fields with plain fullnames have a document exactly if they agree, in whatever order they
stand. Otherwise the fault is a conflict of two kinds that are demanded of the place it names. -/
theorem ofFields_accepts_iff_agree {version : String} {fields : List Field}
    (plain : ∀ f ∈ fields, IsPlain f.fullname) :
    ((∃ doc, Schema.ofFields version fields = .ok doc) ↔ Agree fields) ∧
    (∀ fields', fields.Perm fields' →
      ((∃ doc, Schema.ofFields version fields' = .ok doc) ↔
        ∃ doc, Schema.ofFields version fields = .ok doc)) ∧
    ∀ e, Schema.ofFields version fields = .error e →
      ∃ place existing requested, e = .kindConflict place existing requested ∧
        existing ≠ requested ∧ (∃ f ∈ fields, (place, existing) ∈ f.demands) ∧
        ∃ g ∈ fields, (place, requested) ∈ g.demands := by
  have accepts {l : List Field} (plain : ∀ f ∈ l, IsPlain f.fullname) :
      (∃ doc, Schema.ofFields version l = .ok doc) ↔ Agree l :=
    (exists_ofFields_iff version l).trans
      (Draft.exists_ofFields_iff_agree fun f mem => Field.placed_of_isPlain (plain f mem))
  refine ⟨accepts plain, fun fields' perm => ?_, fun e failed => ?_⟩
  · rw [accepts plain, accepts fun f mem => plain f (perm.mem_iff.mpr mem)]
    exact ⟨fun agree => agree.perm perm.symm, fun agree => agree.perm perm⟩
  · refine Draft.refused_of_ofFields (fun f mem => Field.placed_of_isPlain (plain f mem)) ?_
    unfold Schema.ofFields at failed
    cases drafted : Draft.ofFields fields with
    | error e' =>
      rw [drafted] at failed
      cases failed
      rfl
    | ok d =>
      rw [drafted] at failed
      contradiction

/-- An order that is declared twice, the second time as a list. -/
def clashingFields : List Field :=
  [{ fullname := "order.lines[].price", type := .scalar .number },
   { fullname := "order.lines", type := .array, required := true },
   { fullname := "order[].id" }]

theorem ofFields_accepts_iff_agree_clashing :
    (∃ doc, Schema.ofFields "v1" (clashingFields.take 2).reverse = .ok doc) ∧
      ¬ Agree clashingFields ∧ ∃ existing requested,
        Schema.ofFields "v1" clashingFields =
          .error (.kindConflict "order" existing requested) ∧ existing ≠ requested := by
  have plain : ∀ f ∈ clashingFields, IsPlain f.fullname := by decide
  have plainTwo : ∀ f ∈ clashingFields.take 2, IsPlain f.fullname := by decide
  obtain ⟨accepts, alike, -⟩ := @ofFields_accepts_iff_agree "v1" _ plainTwo
  obtain ⟨acceptsAll, -, refuses⟩ := @ofFields_accepts_iff_agree "v1" _ plain
  have failed : Schema.ofFields "v1" clashingFields =
      .error (.kindConflict "order" .object .array) := rfl
  refine ⟨(alike _ (List.reverse_perm _).symm).mpr (accepts.mpr (by decide)), fun agree => ?_, ?_⟩
  · obtain ⟨doc, ok⟩ := acceptsAll.mpr agree
    rw [failed] at ok
    contradiction
  · obtain ⟨place, existing, requested, eq, ne, -⟩ := refuses _ failed
    cases eq
    exact ⟨_, _, failed, ne⟩

end Schema

end ShapeLines
