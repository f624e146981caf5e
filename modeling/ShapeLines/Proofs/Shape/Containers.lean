import ShapeLines.Proofs.Fullname.Positional
import ShapeLines.Proofs.Query.Groups
import ShapeLines.Proofs.Schema.Agreement
import ShapeLines.Proofs.Schema.FieldDocument
import ShapeLines.Proofs.Schema.Reading
import ShapeLines.Proofs.Step.SetUp
import ShapeLines.Query.Text

/-!
# One view of the containers

A schema, the steps and a query each find the containers around a place for themselves: the schema
hop by hop, the steps in front of each dot, the query along the destinations. For an outbound shape
that has a schema they find the same: the node of a container is an array exactly if the text in
front of the dot ends in `[]`, if the step that sets it up makes a list, and if its group is written
as one.
-/

namespace ShapeLines

open Fullname (element containerPlace)

namespace Way

variable {u : List Hop} {f : Field} {isArray : Bool}

theorem Container.demand (container : Container f.way u isArray) :
    ∃ r, u ++ r = f.way ∧ f.demand r = if isArray then .array else .object := by
  cases container with
  | array eq => exact ⟨_, eq, rfl⟩
  | object _ eq => exact ⟨_, eq, rfl⟩

end Way

namespace Schema

variable {s t : Schema} {fields : List Field} {version : String} {doc : Json} {way : List Hop}

/-- The type that the document of a neat schema gives for a node. -/
theorem type_document (neat : Neat s) (found : s.at? way = some t) :
    ((document version s).at? way).bind (Json.member? "type") = some (.str t.type.name) := by
  have type := get?_members (neat.tidy way t found) "type"
  rw [at?_document neat, found, Option.map_some, Option.bind_some]
  split
  · next root =>
    subst root
    rw [at?_nil] at found
    cases found
    rw [document, Json.member?, Entries.get?_insert_of_ne (by decide)]
    exact type
  · exact type

/-- The node that fields go through has the type that they demand. -/
theorem type_of_container (placed : ∀ f ∈ fields, f.Placed)
    (ok : Schema.ofFields version fields = .ok doc) {f : Field} (mem : f ∈ fields) {u : List Hop}
    {isArray : Bool} (container : Way.Container f.way u isArray) :
    (doc.at? u).bind (Json.member? "type") =
      some (.str (if isArray then "array" else "object")) := by
  obtain ⟨d, drafted, rfl⟩ := draft_of_ok ok
  have declares := Draft.declares_ofFields placed drafted
  obtain ⟨t, found⟩ : ∃ t, d.root.at? u = some t := by
    by_cases root : u = []
    · exact ⟨d.root, by rw [root, at?_nil]⟩
    · exact Option.isSome_iff_exists.mp
        ((declares.isSome_at?_iff root).mpr ⟨f, mem, container.isPrefix⟩)
  obtain ⟨r, eq, demand⟩ := container.demand
  have kind := (declares.labelOf found).kind f mem r eq
  rw [kind_label, demand] at kind
  rw [type_document (Draft.neat_ofFields placed drafted) found]
  cases isArray with
  | true => rw [name_of_array kind]; rfl
  | false => rw [name_of_object kind]; rfl

end Schema

/-- An outbound shape in which every field is bound to its own place. -/
structure Shape.InPlace (s : Shape) : Prop where
  outbound : s.header.direction = .outbound
  named : s.header.id ≠ ""
  plain : ∀ f ∈ s.fields, Fullname.IsPlain f.fullname
  /-- No name is read as a hop in a positional path. -/
  unselective : ∀ f ∈ s.fields, ∀ segment ∈ f.segments, segment.name ≠ "#"
  bound : ∀ f ∈ s.fields, f.dst = impliedBinding s.header.id f.fullname
  noTemplate : ∀ f ∈ s.fields, f.hasTemplate = false

namespace Shape.InPlace

variable {s : Shape} {f g : Field} {doc : Json} {u v : List Hop} {isArray b : Bool}
  {container rest : String}

theorem placed (inPlace : s.InPlace) (mem : f ∈ s.fields) : f.Placed :=
  Field.placed_of_isPlain (inPlace.plain f mem)

theorem regular (inPlace : s.InPlace) (mem : f ∈ s.fields) : Way.Regular f.way :=
  Field.regular_way (inPlace.placed mem).plain

theorem partable (inPlace : s.InPlace) (mem : f ∈ s.fields) : Way.Partable f.way := by
  intro name onWay
  obtain ⟨ne, unmarked⟩ := (inPlace.regular mem).named name onWay
  obtain ⟨dot, opening, -⟩ := Fullname.isUnmarked_iff.mp unmarked
  obtain ⟨segment, inField, isHop⟩ := List.mem_flatMap.mp onWay
  obtain ⟨rfl, -⟩ := Way.mem_hops_property isHop
  refine ⟨ne, dot, fun hop => opening (hop.subset (by simp)), ?_⟩
  exact inPlace.unselective f mem segment inField

theorem keyPath_eq (inPlace : s.InPlace) (mem : f ∈ s.fields) :
    f.keyPath (.stripping s.header.id) = f.fullname :=
  Field.keyPath_stripping inPlace.named (inPlace.partable mem)
    (Field.way_ne_nil (inPlace.placed mem).plain (inPlace.placed mem).nonempty)
    (Field.place_way (inPlace.plain f mem)).symm (inPlace.bound f mem)

theorem opens?_eq (inPlace : s.InPlace) (mem : f ∈ s.fields) (keys : List String) :
    f.opens? (.stripping s.header.id) keys = Way.opens? keys f.way := by
  rw [Field.opens?, inPlace.noTemplate f mem, if_neg Bool.false_ne_true, Field.keyWay,
    inPlace.keyPath_eq mem]
  rfl

theorem agree (inPlace : s.InPlace) (ok : s.toSchema = .ok doc) : Field.Agree s.fields := by
  obtain ⟨d, drafted, -⟩ := Schema.draft_of_ok ok
  exact Draft.agree_of_ofFields (fun _ mem => inPlace.placed mem) drafted

/-- A container around two fields is the same to both. -/
theorem container_unique (inPlace : s.InPlace) (ok : s.toSchema = .ok doc) (memF : f ∈ s.fields)
    (memG : g ∈ s.fields) (aroundF : Way.Container f.way u isArray)
    (aroundG : Way.Container g.way v b) (same : Way.place v = Way.place u) : b = isArray := by
  have namedU : Way.Named u := (inPlace.regular memF).named.of_part aroundF.isPrefix
  have namedV : Way.Named v := (inPlace.regular memG).named.of_part aroundG.isPrefix
  have ways := Way.place_inj namedV namedU same
  subst ways
  obtain ⟨r, eqF, demandF⟩ := aroundF.demand
  obtain ⟨r', eqG, demandG⟩ := aroundG.demand
  have demands := (inPlace.agree ok).demand_eq (fun _ mem => inPlace.placed mem) memF memG eqF eqG
  rw [demandF, demandG] at demands
  cases isArray <;> cases b <;> first | rfl | contradiction

theorem filter_setsUp_steps (inPlace : s.InPlace) (ok : s.toSchema = .ok doc) (mem : f ∈ s.fields)
    (cut : f.fullname = container ++ "." ++ rest) (around : Way.Container f.way u isArray)
    (here : containerPlace container = Way.place u) :
    s.steps.filter (Step.setsUp (Way.place u)) =
      [Step.init s.header.id (Way.place u) isArray] := by
  rw [Shape.steps, inPlace.outbound]
  have encloses : container ∈ Fullname.enclosing f.fullname :=
    Fullname.mem_enclosing.mpr ⟨rest, cut⟩
  refine Step.filter_setsUp_plan ⟨f, mem, container, encloses, here⟩ ?_
  intro g memG other enclosesG there
  obtain ⟨rest', cut'⟩ := Fullname.mem_enclosing.mp enclosesG
  rw [← Field.place_way (inPlace.plain g memG)] at cut'
  obtain ⟨v, b, aroundG, place, hop⟩ := Way.exists_container (inPlace.regular memG).named cut'
  rw [← inPlace.container_unique ok mem memG around aroundG (place.symm.trans there)]
  exact hop

theorem arrayAt?_keyTree (inPlace : s.InPlace) (ok : s.toSchema = .ok doc) (coercion : Coercion)
    (mem : f ∈ s.fields) (around : Way.Container f.way u isArray) :
    (s.keyTree coercion (.stripping s.header.id)).arrayAt? (Fullname.keys (Way.place u)) =
      some isArray := by
  have regular := inPlace.regular mem
  have names : ∀ g ∈ s.fields, g.hasTemplate = false → g.NamesKeys (.stripping s.header.id) := by
    intro g memG _
    rw [Field.NamesKeys, inPlace.keyPath_eq memG]
    exact (inPlace.plain g memG).segments.named
  have opens := around.opens?_eq regular
  rw [Way.keys_place (regular.of_part around.isPrefix)]
  refine KeyTree.arrayAt?_ofFields_of_opens names mem ((inPlace.opens?_eq mem _).trans opens) ?_
  intro g memG b opensG
  rw [inPlace.opens?_eq memG] at opensG
  have demands (w r r' : List Hop) (eqF : w ++ r = f.way) (eqG : w ++ r' = g.way) :
      f.demand r = g.demand r' :=
    (inPlace.agree ok).demand_eq (fun _ mem => inPlace.placed mem) mem memG eqF eqG
  exact (Way.opens?_unique demands opens opensG).symm

end Shape.InPlace

namespace Shape

variable {s : Shape} {f : Field} {doc : Json} {container rest : String}

/-- The schema, the steps and every query of an outbound shape agree on whether a container is an
array, and this is what the `[]` in front of the dot says. -/
theorem containers_agree (inPlace : s.InPlace) (ok : s.toSchema = .ok doc) (coercion : Coercion)
    (mem : f ∈ s.fields) (cut : f.fullname = container ++ "." ++ rest) :
    let isArray := ∃ array, container = element array
    let place := containerPlace container
    let type := (doc.at? (Fullname.hops place)).bind (Json.member? "type")
    let group := (s.keyTree coercion (.stripping s.header.id)).group? (Fullname.keys place)
    (type = some (.str "array") ↔ isArray) ∧
    ((∃ step ∈ s.steps, step.command = .initArray ∧ step.target = place) ↔ isArray) ∧
    ((∃ g, group = some g ∧ g.isArray = true) ↔ isArray) ∧
    (¬ isArray → type = some (.str "object") ∧
      s.steps.filter (Step.setsUp place) = [Step.init s.header.id place false] ∧
      ∃ g, group = some g ∧ g.isArray = false) := by
  have cutWay := cut
  rw [← Field.place_way (inPlace.plain f mem)] at cutWay
  obtain ⟨u, b, around, here, hop⟩ := Way.exists_container (inPlace.regular mem).named cutWay
  have namedU := (inPlace.regular mem).named.of_part around.isPrefix
  have type := Schema.type_of_container (fun _ mem => inPlace.placed mem) ok mem around
  have steps := inPlace.filter_setsUp_steps ok mem cut around here
  have array := inPlace.arrayAt?_keyTree ok coercion mem around
  obtain ⟨g, group, flag⟩ := Option.map_eq_some_iff.mp array
  dsimp only
  rw [here, Way.hops_place namedU, hop, type, steps, group]
  refine ⟨?_, ?_, ?_, ?_⟩
  · cases b <;> simp
  · constructor
    · intro ⟨step, memStep, command, target⟩
      have kept : step ∈ s.steps.filter (Step.setsUp (Way.place u)) :=
        List.mem_filter.mpr ⟨memStep, by simp [Step.setsUp, command, target, Command.isInit]⟩
      rw [steps, List.mem_singleton] at kept
      rw [kept] at command
      cases b <;> first | rfl | contradiction
    · rintro rfl
      have kept : Step.init s.header.id (Way.place u) true ∈
          s.steps.filter (Step.setsUp (Way.place u)) := by
        rw [steps]
        exact List.mem_singleton_self _
      exact ⟨_, (List.mem_filter.mp kept).1, rfl, rfl⟩
  · simp [flag]
  · intro noHop
    rw [Bool.not_eq_true] at noHop
    subst noHop
    exact ⟨rfl, rfl, g, rfl, flag⟩

/-- Offers of a catalog, with the price in an object of its own inside each of them. -/
def offersShape : Shape where
  header := { id := "out", version := "v1", direction := .outbound }
  fields :=
    [{ fullname := "offers[].price.min", type := .scalar .number, src := "P.#.min",
       dst := "out.offers.#.price.min" },
     { fullname := "offers[]", type := .object, src := "P.#", dst := "out.offers.#" },
     { fullname := "page.total", type := .scalar .integer, src := "count",
       dst := "out.page.total" }]

theorem inPlace_offersShape : offersShape.InPlace where
  outbound := rfl
  named := by decide
  plain := by decide
  unselective := by decide
  bound := by decide
  noTemplate := by decide

theorem containers_agree_offers : ∃ doc, offersShape.toSchema = .ok doc ∧
    (doc.at? [.property "offers"]).bind (Json.member? "type") = some (.str "array") ∧
    (∃ step ∈ offersShape.steps, step.command = .initArray ∧ step.target = "offers") ∧
    offersShape.steps.filter (Step.setsUp "offers[].price") =
      [Step.init "out" "offers[].price" false] := by
  obtain ⟨doc, ok⟩ : ∃ doc, offersShape.toSchema = .ok doc := ⟨_, rfl⟩
  have mem : offersShape.fields.head (by decide) ∈ offersShape.fields := List.head_mem _
  have agree (container rest : String) (cut : "offers[].price.min" = container ++ "." ++ rest) :=
    containers_agree inPlace_offersShape ok Coercion.none mem cut
  obtain ⟨type, step, -⟩ := agree "offers[]" "price.min" rfl
  obtain ⟨-, -, -, object⟩ := agree "offers[].price" "min" rfl
  have array : ∃ place, "offers[]" = element place := ⟨"offers", rfl⟩
  refine ⟨doc, ok, type.mpr array, step.mpr array, (object ?_).2.1⟩
  intro ⟨place, eq⟩
  have last := congrArg (fun s => s.toList.getLast?) eq
  rw [Way.toList_element] at last
  simp at last

end Shape

end ShapeLines
