import Mathlib.Data.List.Basic
import ShapeLines.Proofs.Schema.AttributeRoundTrip
import ShapeLines.Proofs.Schema.Drafted

/-!
# Fields through a document and back

Fields are read back from their document when each of them is shown there and nothing else is. A
container without keywords is shown only if it is required or holds nothing, and an array without
keywords never beside its elements, so fields that would be passed over are excluded. The flag of
being required goes to the object around a field and comes back from there.
-/

namespace ShapeLines.Schema

open Draft (Declares LabelOf namesAt mem_namesAt declares_ofFields neat_ofFields)

variable {fields : List Field} {version : String} {d : Draft} {doc : Json} {f g : Field}
  {u w : List Hop} {t : Schema}

/-- Fields that are shown by their document as they are. -/
structure Shows (fields : List Field) : Prop where
  plain : ∀ f ∈ fields, Fullname.IsPlain f.fullname
  distinct : (fields.map Field.fullname).Nodup
  readsBack : ∀ f ∈ fields, f.ValuesReadBack
  /-- An object says something of its own, or nothing is inside it. -/
  objects : ∀ f ∈ fields, f.type = .object →
    f.required = true ∨ f.keywords ≠ [] ∨ ∀ g ∈ fields, f.way <+: g.way → g.way = f.way
  /-- An array says something of its own, or its elements are not spoken of. -/
  arrays : ∀ f ∈ fields, f.type = .array →
    f.keywords ≠ [] ∨ ∀ g ∈ fields, ¬ f.way ++ [Hop.elements] <+: g.way
  elements : ∀ f ∈ fields, f.type = .array → f.keywords ≠ [] →
    ∀ g ∈ fields, g.way = f.way ++ [Hop.elements] → g.required = false
  rootElements : ∀ f ∈ fields, f.way = [Hop.elements] → f.required = false

namespace Shows

variable (shows : Shows fields) (drafted : Drafted fields d)

include shows drafted

theorem keywords_ne_nil_of_elements (hf : f ∈ fields) (hg : g ∈ fields)
    (below : f.way ++ [Hop.elements] <+: g.way) : f.keywords ≠ [] :=
  (shows.arrays f hf (drafted.type_of_elements hf hg below)).resolve_right
    fun away => away g hg below

/-- The elements of a field are not required. -/
theorem required_of_elements (hf : f ∈ fields) (hg : g ∈ fields)
    (below : g.way = f.way ++ [Hop.elements]) : g.required = false := by
  have le : f.way ++ [Hop.elements] <+: g.way := below ▸ List.prefix_rfl
  exact shows.elements f hf (drafted.type_of_elements hf hg le)
    (shows.keywords_ne_nil_of_elements drafted hf hg le) g hg below

/-- An array at which a field ends and that holds elements has keywords. -/
theorem keywords_of_array (hf : f ∈ fields) (hg : g ∈ fields)
    (below : f.way ++ [Hop.elements] <+: g.way) (found : d.root.at? f.way = some t) :
    t.marks.keywords ≠ [] := by
  rw [(drafted.node_of_mem hf found).2.1, Ne, Entries.ofList_eq_nil_iff]
  exact shows.keywords_ne_nil_of_elements drafted hf hg below

/-- An array whose elements are required has no keywords. -/
theorem keywords_of_required_elements (hf : f ∈ fields) (eq : f.way = u ++ [Hop.elements])
    (required : f.required = true) (found : d.root.at? u = some t) : t.marks.keywords = [] := by
  rcases Draft.ends_or_away fields u with ⟨g, hg, here⟩ | away
  · have notRequired := shows.required_of_elements drafted hg hf (by rw [here, eq])
    rw [required] at notRequired
    contradiction
  · exact drafted.keywords_of_away found away

/-- The flag that is carried to the elements of an array is the one of the field for them. -/
theorem carried_elements_iff (hf : f ∈ fields) (eq : f.way = u ++ [Hop.elements]) :
    carried false f.way d.root = true ↔ f.required = true := by
  obtain ⟨t, found⟩ := drafted.exists_at? hf
  have regular := drafted.regular f hf
  rw [eq] at found regular ⊢
  constructor
  · intro flag
    obtain ⟨p, at', noKeywords, g, hg, required, way⟩ :=
      drafted.exists_of_carried_elements found flag
    rcases way with here | below
    · have le : g.way ++ [Hop.elements] <+: f.way := ⟨[], by rw [List.append_nil, here, eq]⟩
      rw [← here] at at'
      exact absurd noKeywords (shows.keywords_of_array drafted hg hf le at')
    · rwa [drafted.eq_of_way_eq hf hg (eq.trans below.symm)]
  · intro required
    obtain ⟨p, at', flag⟩ := carried_elements found false
    rw [flag, shows.keywords_of_required_elements drafted hf eq required at']
    rcases List.eq_nil_or_concat' u with rfl | ⟨v, hop, rfl⟩
    · rw [shows.rootElements f hf eq] at required
      contradiction
    · cases hop with
      | elements =>
        refine absurd ?_ regular.apart
        exact ⟨v, [], by simp⟩
      | property name =>
        have handed := (drafted.carried_property_iff at').mpr ⟨f, hf, required, .inr eq⟩
        rw [handed]
        rfl

theorem carried_property_way_iff (hf : f ∈ fields) {name : String}
    (eq : f.way = u ++ [Hop.property name]) :
    carried false f.way d.root = true ↔ f.required = true := by
  obtain ⟨t, found⟩ := drafted.exists_at? hf
  rw [eq] at found ⊢
  rw [drafted.carried_property_iff found]
  constructor
  · intro ⟨g, hg, required, way⟩
    rcases way with here | below
    · rwa [drafted.eq_of_way_eq hf hg (eq.trans here.symm)]
    · rw [← eq] at below
      rw [shows.required_of_elements drafted hf hg below] at required
      contradiction
  · intro required
    exact ⟨f, hf, required, .inl eq⟩

theorem carried_way (hf : f ∈ fields) : carried false f.way d.root = f.required := by
  rw [Bool.eq_iff_iff]
  rcases List.eq_nil_or_concat' f.way with nil | ⟨u, hop, eq⟩
  · exact absurd nil (drafted.nonempty f hf)
  · cases hop with
    | property name => exact shows.carried_property_way_iff drafted hf eq
    | elements => exact shows.carried_elements_iff drafted hf eq

theorem isShown_way (hf : f ∈ fields) (found : d.root.at? f.way = some t) :
    t.isShown f.required = true := by
  obtain ⟨type, keywords, -⟩ := drafted.node_of_mem hf found
  have through (hop : Hop) (s : Schema) (child : t.at? [hop] = some s) :
      ∃ g ∈ fields, f.way ++ [hop] <+: g.way := by
    refine (drafted.declares.isSome_at?_iff (by simp)).mp ?_
    rw [at?_append, found, Option.bind_some, child]
    rfl
  cases t with
  | scalar => rfl
  | array marks items =>
    cases items with
    | none => rfl
    | some items =>
      obtain ⟨g, hg, below⟩ := through .elements items (by simp [at?_elements])
      have nonempty := shows.keywords_of_array drafted hf hg below found
      simpa [isShown, Schema.marks] using nonempty
  | object marks names properties =>
    have own := shows.objects f hf type.symm
    rw [Schema.marks] at keywords
    cases properties with
    | nil => simp [isShown]
    | cons e rest =>
      obtain ⟨g, hg, below⟩ := through (.property e.1) e.2
        (by simp [at?_property, Entries.get?])
      rcases own with required | nonempty | alone
      · simp [isShown, required]
      · have kept : marks.keywords ≠ [] := by
          rwa [keywords, Ne, Entries.ofList_eq_nil_iff]
        simp [isShown, kept]
      · have same := alone g hg ((List.prefix_append _ _).trans below)
        rw [same] at below
        have length := below.length_le
        rw [List.length_append, List.length_singleton] at length
        omega

theorem shownField_way (hf : f ∈ fields) (found : d.root.at? f.way = some t) :
    shownField f.way (carried false f.way d.root) t = { f with src := "", dst := "" } := by
  obtain ⟨type, keywords, flag⟩ := drafted.node_of_mem hf found
  rw [shownField, shows.carried_way drafted hf, type, keywords, flag, Bool.or_false,
    Field.place_way (shows.plain f hf), Field.ofKeywords_keywords (shows.readsBack f hf)]

/-- No flag is carried to an object at which no field ends. -/
theorem not_carried (found : d.root.at? w = some t) (object : t.kind = .object)
    (away : ∀ f ∈ fields, f.way ≠ w) (hg : g ∈ fields) (through : w <+: g.way) :
    carried false w d.root = false := by
  rw [Bool.eq_false_iff]
  intro flag
  rcases List.eq_nil_or_concat' w with rfl | ⟨u, hop, rfl⟩
  · contradiction
  · cases hop with
    | property name =>
      obtain ⟨f, hf, -, way⟩ := (drafted.carried_property_iff found).mp flag
      rcases way with here | below
      · exact away f hf here
      · have array := drafted.kind_of_at? found hf below.symm
        rw [object] at array
        contradiction
    | elements =>
      obtain ⟨p, at', noKeywords, f, hf, -, way⟩ := drafted.exists_of_carried_elements found flag
      rcases way with here | below
      · rw [← here] at at' through
        exact shows.keywords_of_array drafted hf hg through at' noKeywords
      · exact away f hf below

/-- Only nodes at which fields end are shown. -/
theorem exists_of_isShown (ne : w ≠ []) (found : d.root.at? w = some t)
    (shown : t.isShown (carried false w d.root) = true) : ∃ f ∈ fields, f.way = w := by
  refine (Draft.ends_or_away fields w).resolve_right fun away => ?_
  have noKeywords := drafted.keywords_of_away found away
  obtain ⟨g, hg, rest, through⟩ :=
    (drafted.declares.isSome_at?_iff ne).mp (by rw [found]; rfl)
  cases rest with
  | nil => exact away g hg (by rw [← through, List.append_nil])
  | cons hop rest =>
    have child : (t.at? [hop]).isSome = true :=
      (drafted.declares.isSome_at?_hop_iff found hop).mpr ⟨g, hg, rest, through.symm⟩
    cases t with
    | scalar => cases hop <;> contradiction
    | array marks items =>
      rw [Schema.marks] at noKeywords
      cases items with
      | none => cases hop <;> contradiction
      | some items => simp [isShown, noKeywords] at shown
    | object marks names properties =>
      rw [Schema.marks] at noKeywords
      have flag := shows.not_carried drafted found rfl away hg ⟨hop :: rest, through⟩
      cases properties with
      | nil => cases hop <;> simp [at?, Entries.get?] at child
      | cons e others => simp [isShown, noKeywords, flag] at shown

theorem fields_perm :
    (d.root.fields "" false).Perm (fields.map fun f => { f with src := "", dst := "" }) := by
  have left : (d.root.fields "" false).Nodup := by
    refine List.Pairwise.imp ?_ drafted.fields_pairwise
    intro a b ne eq
    exact ne (congrArg Field.fullname eq)
  have right : (fields.map fun f => ({ f with src := "", dst := "" } : Field)).Nodup := by
    have distinct := shows.distinct
    unfold List.Nodup at distinct ⊢
    rw [List.pairwise_map] at distinct ⊢
    refine List.Pairwise.imp ?_ distinct
    intro a b ne eq
    have fullnames := congrArg Field.fullname eq
    exact ne fullnames
  rw [List.perm_ext_iff_of_nodup left right]
  intro g
  rw [drafted.mem_fields_iff, List.mem_map]
  constructor
  · intro ⟨w, t, found, shown, ne, eq⟩
    obtain ⟨f, hf, here⟩ := shows.exists_of_isShown drafted ne found shown
    subst here
    exact ⟨f, hf, (eq.trans (shows.shownField_way drafted hf found)).symm⟩
  · intro ⟨f, hf, eq⟩
    obtain ⟨t, found⟩ := drafted.exists_at? hf
    refine ⟨f.way, t, found, ?_, drafted.nonempty f hf, ?_⟩
    · rw [shows.carried_way drafted hf, shows.isShown_way drafted hf found]
    · exact eq.symm.trans (shows.shownField_way drafted hf found).symm

end Shows

theorem bindInPlace_unbound (nonempty : f.fullname ≠ "") (id : String) :
    Field.bindInPlace id { f with src := "", dst := "" } =
      { f with src := impliedBinding id f.fullname, dst := f.fullname } := by
  simp [Field.bindInPlace, Field.fillBindings, nonempty]

/-- Fields are read back from their document, in some order and bound to their own places. -/
theorem ofSchemaJson_ofFields (shows : Shows fields)
    (ok : Schema.ofFields version fields = .ok doc) :
    ∃ s, Shape.ofSchemaJson doc = .ok s ∧
      s.header = ⟨Header.defaultId, version, .inbound⟩ ∧
      s.fields.Perm (fields.map fun f =>
        { f with src := impliedBinding Header.defaultId f.fullname, dst := f.fullname }) := by
  obtain ⟨d, ok', rfl⟩ := draft_of_ok ok
  have placed : ∀ f ∈ fields, f.Placed := fun f mem => Field.placed_of_isPlain (shows.plain f mem)
  have drafted := drafted_ofFields placed (Field.nodup_way shows.plain shows.distinct) ok'
  refine ⟨_, ofSchemaJson_document drafted.neat version, rfl, ?_⟩
  have perm := (shows.fields_perm drafted).map (Field.bindInPlace Header.defaultId)
  refine perm.trans (List.Perm.of_eq ?_)
  rw [List.map_map]
  apply List.map_congr_left
  intro f mem
  refine bindInPlace_unbound (fun empty => ?_) Header.defaultId
  have way := Field.place_way (shows.plain f mem)
  rw [empty, Way.place_eq_empty_iff (drafted.regular f mem).named] at way
  exact drafted.nonempty f mem way

/-- An array and its elements are fields beside each other, each with something of its own. -/
def catalogFields : List Field :=
  [{ fullname := "items[].size", type := .scalar .integer, required := true,
     enumValues := ["10", "20"], enumNames := ["small", "large"] },
   { fullname := "items", type := .array, required := true,
     extra := KeyMap.ofList [("maxItems", "3")] },
   { fullname := "items[]", type := .object, extra := KeyMap.ofList [("title", "Item")] },
   { fullname := "tags[]", required := true, defaultText := some "new",
     constValues := ["a,b"] }]

theorem ofSchemaJson_ofFields_catalog :
    Shows catalogFields ∧ ∃ doc s, Schema.ofFields "v1" catalogFields = .ok doc ∧
      Shape.ofSchemaJson doc = .ok s ∧ s.fields.Perm (catalogFields.map fun f =>
        { f with src := impliedBinding Header.defaultId f.fullname, dst := f.fullname }) := by
  have shows : Shows catalogFields :=
    { plain := by decide
      distinct := by decide
      readsBack := by decide
      objects := by decide
      arrays := by decide
      elements := by decide
      rootElements := by decide }
  obtain ⟨doc, ok⟩ : ∃ doc, Schema.ofFields "v1" catalogFields = .ok doc := ⟨_, rfl⟩
  obtain ⟨s, read, -, perm⟩ := ofSchemaJson_ofFields shows ok
  exact ⟨shows, doc, s, ok, read, perm⟩

end ShapeLines.Schema
