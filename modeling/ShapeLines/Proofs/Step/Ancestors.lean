import ShapeLines.Proofs.Schema.Agreement
import ShapeLines.Proofs.Step.Layout

/-!
# Outer places before inner ones

A step of an outbound plan may stand before the step for a place around its own in two cases only,
if the fields have a schema. All set-up comes before all copies, so a container that is a field
itself is copied only after the containers inside it have been set up. And the elements of an array
have the depth of the array itself, so of the copies of `f` and `f[]` the one that is declared first
comes first.
-/

namespace ShapeLines

namespace Field

variable {fields : List Field} {place : String} {f : Field}

/-- What a fullname that ends in `[]` names has the depth of what stands before the `[]`. -/
theorem depth_of_element (plain : Fullname.IsPlain f.fullname)
    (eq : f.fullname = Fullname.element place) :
    Fullname.depth f.fullname = Fullname.depth place := by
  have regular := regular_way plain.segments
  have here : Way.place f.way = Fullname.element place := by rw [place_way plain, eq]
  rcases List.eq_nil_or_concat' f.way with nil | ⟨u, hop, way⟩
  · rw [nil] at here
    have lists := congrArg String.toList here
    simp [Way.toList_element] at lists
  · rw [way] at regular here
    rw [Way.place_append_singleton] at here
    cases hop with
    | property name =>
      have named := regular.named name (by simp)
      exact absurd here (Way.join_ne_element named.1 named.2)
    | elements =>
      have same : Way.place u = place := by
        have lists := congrArg String.toList here
        rw [Hop.below, Way.toList_element, Way.toList_element] at lists
        exact String.toList_inj.mp (List.append_cancel_right lists)
      rw [← place_way plain, way, Way.depth_append_elements regular, same]

/-- If fields agree, then all of them start with a bare `[]` or none. -/
theorem Agree.start (agree : Agree fields) (placed : ∀ f ∈ fields, f.Placed) :
    (∀ f ∈ fields, f.segments.head? = some ⟨"", true⟩) ∨
      ∀ f ∈ fields, f.segments.head? ≠ some ⟨"", true⟩ := by
  have root (f : Field) (mem : f ∈ fields) :
      f.segments.head? = some ⟨"", true⟩ ↔ f.demand f.way = .array := by
    have ne := way_ne_nil (placed f mem).plain (placed f mem).nonempty
    rw [← head?_way_iff (placed f mem).plain]
    obtain ⟨hop, rest, eq⟩ := List.exists_cons_of_ne_nil ne
    rw [eq]
    cases hop <;> simp [demand, Hop.holder]
  by_cases bare : ∃ f ∈ fields, f.segments.head? = some ⟨"", true⟩
  · obtain ⟨f, mem, head⟩ := bare
    refine .inl fun g memG => (root g memG).mpr ?_
    have same : f.demand f.way = g.demand g.way :=
      agree.demand_eq placed mem memG (List.nil_append _) (List.nil_append _)
    rw [← same]
    exact (root f mem).mp head
  · exact .inr fun f mem head => bare ⟨f, mem, head⟩

end Field

namespace Step

open Fullname (depth element isAncestor)

variable {fields : List Field} {version : String} {doc : Json}

/-- A copy is not above an earlier one, unless the earlier one is for its elements. -/
theorem pairwise_copies (plain : ∀ f ∈ fields, Fullname.IsPlain f.fullname) :
    (byDepth (fields.filterMap copy?)).Pairwise fun s later =>
      isAncestor later.target s.target = true → s.target = element later.target := by
  refine (pairwise_byDepth _).imp_of_mem fun {s later} memS memLater le ancestor => ?_
  obtain ⟨f, memF, copiedF⟩ := List.mem_filterMap.mp ((byDepth_perm _).mem_iff.mp memS)
  obtain ⟨g, memG, copiedG⟩ := List.mem_filterMap.mp ((byDepth_perm _).mem_iff.mp memLater)
  have regularF := Field.regular_way (plain f memF).segments
  have regularG := Field.regular_way (plain g memG).segments
  rw [(eq_of_copy? copiedF).2.1, (eq_of_copy? copiedG).2.1, ← Field.place_way (plain f memF),
    ← Field.place_way (plain g memG)] at le ancestor ⊢
  obtain ⟨above, ne⟩ := Way.isPrefix_of_isAncestor regularG.named regularF.named ancestor
  have nonempty := Field.way_ne_nil (plain g memG).segments
    (Field.placed_of_isPlain (plain g memG)).nonempty
  rw [Way.eq_append_elements regularF above ne nonempty le, Way.place_append_singleton, Hop.below]

theorem filter_copies (plain : ∀ f ∈ fields, Fullname.IsPlain f.fullname) (place : String) :
    ((byDepth (fields.filterMap copy?)).filter fun s =>
      s.target = place ∨ s.target = element place).map some =
    (fields.filter fun f => f.src ≠ f.dst ∧
      (f.fullname = place ∨ f.fullname = element place)).map copy? := by
  have alike : ∀ s ∈ fields.filterMap copy?, s.target = place ∨ s.target = element place →
      depth s.target = depth place := by
    intro s mem here
    obtain ⟨f, memF, copied⟩ := List.mem_filterMap.mp mem
    rw [(eq_of_copy? copied).2.1] at here ⊢
    rcases here with here | here
    · rw [here]
    · exact Field.depth_of_element (plain f memF) here
  have oneDepth (l : List Step) (sub : ∀ s ∈ l, s ∈ fields.filterMap copy?) :
      l.filter (fun s => s.target = place ∨ s.target = element place) =
        (l.filter fun s => depth s.target = depth place).filter fun s =>
          s.target = place ∨ s.target = element place := by
    rw [List.filter_filter]
    refine List.filter_congr fun s mem => ?_
    have depths := alike s (sub s mem)
    by_cases here : s.target = place ∨ s.target = element place <;> simp [here, depths]
  rw [oneDepth _ fun s mem => (byDepth_perm _).mem_iff.mp mem, filter_byDepth,
    ← oneDepth _ fun s mem => mem,
    map_filter_copies (p := fun f => f.fullname = place ∨ f.fullname = element place)]
  · simp
  · intro f s copied
    rw [(eq_of_copy? copied).2.1]

/-- The order of a plan: a step stands before a step for a place around its own only if the latter
copies, and then it sets up or copies the elements of that place. Of the copies of a place and of
its elements the one that is declared first comes first. -/
theorem plan_outward (plain : ∀ f ∈ fields, Fullname.IsPlain f.fullname)
    (ok : Schema.ofFields version fields = .ok doc) (root : String) :
    ((plan .outbound root fields).Pairwise fun s later =>
      isAncestor later.target s.target = true →
        later.command.isInit = false ∧
          (s.command.isInit = true ∨ s.target = element later.target)) ∧
    ∀ place, ((plan .outbound root fields).filter fun s => s.command.isInit = false ∧
        (s.target = place ∨ s.target = element place)).map some =
      (fields.filter fun f => f.src ≠ f.dst ∧
        (f.fullname = place ∨ f.fullname = element place)).map copy? := by
  have placed : ∀ f ∈ fields, f.Placed := fun f mem => Field.placed_of_isPlain (plain f mem)
  have agree : Field.Agree fields := by
    obtain ⟨d, drafted⟩ := (Schema.exists_ofFields_iff version fields).mp ⟨doc, ok⟩
    exact Draft.agree_of_ofFields placed drafted
  have inits := setsUpContainers plain (agree.start placed) root
  have copies := copiesFields fields
  rw [plan, if_pos rfl]
  refine ⟨List.pairwise_append.mpr ⟨?_, ?_, ?_⟩, fun place => ?_⟩
  · exact inits.outward.imp fun apart ancestor => by simp [apart] at ancestor
  · refine (pairwise_copies plain).imp_of_mem fun {s later} _ memLater above ancestor => ?_
    exact ⟨copies.isCopy later memLater, .inr (above ancestor)⟩
  · intro s memS later memLater _
    exact ⟨copies.isCopy later memLater, .inl (inits.isInit s memS)⟩
  · rw [List.filter_append, List.filter_eq_nil_iff.mpr, List.nil_append, ← filter_copies plain]
    · congr 1
      exact List.filter_congr fun s mem => by simp [copies.isCopy s mem]
    · intro s mem
      simp [inits.isInit s mem]

/-- An order that is copied as a whole, and whose buyer and lines are copied as well. -/
def orderFields : List Field :=
  [{ fullname := "order.buyer.name", src := "P.name", dst := "out.order.buyer.name" },
   { fullname := "order.lines[]", type := .object, src := "P.lines.#", dst := "out.order.lines.#" },
   { fullname := "order.lines", type := .array, src := "P.lines", dst := "out.order.lines" },
   { fullname := "order", type := .object, src := "P.order", dst := "out.order" }]

theorem plan_outward_order :
    (∀ f ∈ orderFields, Fullname.IsPlain f.fullname) ∧
    (∃ doc, Schema.ofFields "v1" orderFields = .ok doc) ∧
    ((plan .outbound "out" orderFields).Pairwise fun s later =>
      isAncestor later.target s.target = true →
        later.command.isInit = false ∧
          (s.command.isInit = true ∨ s.target = element later.target)) ∧
    ((plan .outbound "out" orderFields).filter fun s => s.command.isInit = false ∧
        (s.target = "order.lines" ∨ s.target = element "order.lines")).map some =
      [copy? orderFields[1], copy? orderFields[2]] := by
  have plain : ∀ f ∈ orderFields, Fullname.IsPlain f.fullname := by decide
  have ok : Schema.ofFields "v1" orderFields = .ok _ := rfl
  obtain ⟨outward, declared⟩ := plan_outward plain ok "out"
  exact ⟨plain, ⟨_, ok⟩, outward, declared "order.lines"⟩

/-- The order itself is copied after its buyer has been set up. -/
theorem plan_order : (∀ f ∈ orderFields, Fullname.IsPlain f.fullname) ∧
    (∃ doc, Schema.ofFields "v1" orderFields = .ok doc) ∧
    ¬ (plan .outbound "out" orderFields).Pairwise fun s later =>
      isAncestor later.target s.target = false := by
  refine ⟨by decide, ⟨_, rfl⟩, fun outward => ?_⟩
  have across := (List.pairwise_append.mp outward).2.2
  have buyer : initContainer "out" "order.buyer" ∈ setUp "out" orderFields :=
    (byDepth_perm _).mem_iff.mpr (by decide)
  have order : (⟨"order", .copyValue, "P.order", "out.order", none⟩ : Step) ∈
      byDepth (orderFields.filterMap copy?) := (byDepth_perm _).mem_iff.mpr (by decide)
  exact absurd (across _ buyer _ order) (by decide)

end Step

end ShapeLines
