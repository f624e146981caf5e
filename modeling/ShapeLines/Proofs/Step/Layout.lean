import ShapeLines.Proofs.Arranged
import ShapeLines.Proofs.Fullname.Ancestor
import ShapeLines.Proofs.Step.SetUp

/-!
# The layout of a plan

An outbound plan first sets up the containers around its fields, each once, and then copies. The
steps are sorted by depth only, but that puts every container behind those around it: two containers
of one depth are never one inside the other, as long as the root is set up only where all other
containers lie in its elements.
-/

namespace ShapeLines

namespace Step

open Fullname (containerPlace depth isAncestor)

variable {root : String} {fields : List Field}

/-- The steps set up every container around the fields once, and none before those around it. -/
structure SetsUpContainers (root : String) (fields : List Field) (steps : List Step) : Prop where
  isInit : ∀ s ∈ steps, s.command.isInit = true
  dst : ∀ s ∈ steps, s.dst = impliedBinding root s.target
  nodup : (steps.map Step.target).Nodup
  mem_targets : ∀ place, place ∈ steps.map Step.target ↔ ∃ f ∈ fields, ∃ container rest,
    f.fullname = container ++ "." ++ rest ∧ place = containerPlace container
  outward : steps.Pairwise fun s later => isAncestor later.target s.target = false

/-- The steps copy every field with different bindings once, by depth, and fields of one depth in
the order in which they are declared. -/
structure CopiesFields (fields : List Field) (steps : List Step) : Prop where
  isCopy : ∀ s ∈ steps, s.command.isInit = false
  copies : (steps.map some).Perm ((fields.filter fun f => f.src ≠ f.dst).map copy?)
  sorted : steps.Pairwise fun s later => depth s.target ≤ depth later.target
  stable : ∀ d, (steps.filter fun s => depth s.target = d).map some =
    (fields.filter fun f => f.src ≠ f.dst ∧ depth f.fullname = d).map copy?

/-! ## Sorting by depth -/

def depthLe (s later : Step) : Bool :=
  depth s.target ≤ depth later.target

theorem depthLe_trans (a b c : Step) (ab : depthLe a b = true) (bc : depthLe b c = true) :
    depthLe a c = true := by
  simp only [depthLe, decide_eq_true_eq] at *
  exact Nat.le_trans ab bc

theorem depthLe_total (a b : Step) : (depthLe a b || depthLe b a) = true := by
  simp only [depthLe, Bool.or_eq_true, decide_eq_true_eq]
  exact Nat.le_total _ _

theorem pairwise_byDepth (steps : List Step) :
    (byDepth steps).Pairwise fun s later => depth s.target ≤ depth later.target := by
  have sorted : (byDepth steps).Pairwise fun s later => depthLe s later = true :=
    List.pairwise_mergeSort depthLe_trans depthLe_total steps
  exact sorted.imp fun le => by simpa [depthLe] using le

theorem filter_byDepth (d : Nat) (steps : List Step) :
    (byDepth steps).filter (fun s => depth s.target = d) =
      steps.filter fun s => depth s.target = d := by
  refine Arranged.filter_mergeSort_of_alike depthLe_trans depthLe_total (fun a b hereA hereB => ?_)
    steps
  rw [decide_eq_true_eq] at hereA hereB
  simp [depthLe, hereA, hereB]

/-! ## Copies -/

theorem eq_of_copy? {f : Field} {s : Step} (copied : copy? f = some s) :
    f.src ≠ f.dst ∧ s.target = f.fullname ∧ s.command = commandOf f := by
  unfold copy? at copied
  split at copied
  · contradiction
  · next differ =>
    cases copied
    exact ⟨differ, rfl, rfl⟩

/-- The copies of the fields that satisfy `p`, given what `p` is to a copy. -/
theorem map_filter_copies {p : Field → Bool} {q : Step → Bool}
    (same : ∀ f s, copy? f = some s → q s = p f) (fields : List Field) :
    ((fields.filterMap copy?).filter q).map some =
      (fields.filter fun f => f.src ≠ f.dst ∧ p f).map copy? := by
  induction fields with
  | nil => rfl
  | cons f fields ih =>
    rw [List.filterMap_cons, List.filter_cons]
    cases copied : copy? f with
    | none =>
      have alike : f.src = f.dst := by
        unfold copy? at copied
        by_contra differ
        simp [differ] at copied
      simpa [alike] using ih
    | some s =>
      have differ := (eq_of_copy? copied).1
      rw [List.filter_cons, same f s copied]
      cases p f with
      | true => simpa [differ, copied] using ih
      | false => simpa [differ] using ih

theorem copiesFields (fields : List Field) :
    CopiesFields fields (byDepth (fields.filterMap copy?)) where
  isCopy s mem := by
    obtain ⟨f, -, copied⟩ := List.mem_filterMap.mp ((byDepth_perm _).mem_iff.mp mem)
    rw [(eq_of_copy? copied).2.2, isInit_commandOf]
  copies := by
    have all :=
      map_filter_copies (p := fun _ => true) (q := fun _ => true) (fun _ _ _ => rfl) fields
    simp only [List.filter_true, and_true] at all
    rw [← all]
    exact (byDepth_perm _).map some
  sorted := pairwise_byDepth _
  stable d := by
    rw [filter_byDepth, map_filter_copies (p := fun f => depth f.fullname = d)]
    · simp
    · intro f s copied
      rw [(eq_of_copy? copied).2.1]

/-! ## Set-up -/

theorem nodup_firstPerTarget (steps : List Step) :
    ((firstPerTarget steps).map Step.target).Nodup := by
  induction steps with
  | nil => exact List.nodup_nil
  | cons s rest ih =>
    rw [firstPerTarget, List.map_cons, List.nodup_cons]
    refine ⟨fun mem => ?_, ih.sublist (List.filter_sublist.map _)⟩
    obtain ⟨later, kept, same⟩ := List.mem_map.mp mem
    simpa [same] using (List.mem_filter.mp kept).2

theorem mem_targets_firstPerTarget (place : String) (steps : List Step) :
    place ∈ (firstPerTarget steps).map Step.target ↔ place ∈ steps.map Step.target := by
  have found (l : List Step) : place ∈ l.map Step.target ↔
      l.filter (·.target = place) ≠ [] := by
    simp [List.filter_eq_nil_iff]
  rw [found, found, filter_firstPerTarget]
  simp [List.filter_eq_nil_iff]

theorem mem_targets_setUp (place : String) :
    place ∈ (setUp root fields).map Step.target ↔ ∃ f ∈ fields, ∃ container rest,
      f.fullname = container ++ "." ++ rest ∧ place = containerPlace container := by
  rw [setUp, ((byDepth_perm _).map Step.target).mem_iff, mem_targets_firstPerTarget, List.mem_map]
  constructor
  · rintro ⟨s, mem, rfl⟩
    obtain ⟨f, memF, container, encloses, rfl⟩ := mem_flatMap_inits.mp mem
    obtain ⟨rest, cut⟩ := Fullname.mem_enclosing.mp encloses
    exact ⟨f, memF, container, rest, cut, target_initContainer root container⟩
  · rintro ⟨f, memF, container, rest, cut, rfl⟩
    have encloses := Fullname.mem_enclosing.mpr ⟨rest, cut⟩
    exact ⟨_, mem_flatMap_inits.mpr ⟨f, memF, container, encloses, rfl⟩,
      target_initContainer root container⟩

theorem exists_of_mem_setUp {s : Step} (mem : s ∈ setUp root fields) :
    ∃ container, s = initContainer root container := by
  obtain ⟨f, -, container, -, rfl⟩ :=
    mem_flatMap_inits.mp (mem_of_mem_firstPerTarget ((byDepth_perm _).mem_iff.mp mem))
  exact ⟨container, rfl⟩

theorem dst_initContainer (root container : String) :
    (initContainer root container).dst =
      impliedBinding root (initContainer root container).target := by
  unfold initContainer
  cases Fullname.beforeHop? container.toList <;> exact dst_init ..

/-- The target of a step that sets up is the place of a container around a field. -/
theorem exists_container_of_mem_setUp (plain : ∀ f ∈ fields, Fullname.IsPlain f.fullname) {s : Step}
    (mem : s ∈ setUp root fields) :
    ∃ f ∈ fields, ∃ u isArray, Way.Container f.way u isArray ∧ s.target = Way.place u := by
  obtain ⟨f, memF, container, rest, cut, place⟩ :=
    (mem_targets_setUp s.target).mp (List.mem_map_of_mem mem)
  rw [← Field.place_way (plain f memF)] at cut
  have named := (Field.regular_way (plain f memF).segments).named
  obtain ⟨u, isArray, around, here, -⟩ := Way.exists_container named cut
  exact ⟨f, memF, u, isArray, around, place.trans here⟩

section

variable (plain : ∀ f ∈ fields, Fullname.IsPlain f.fullname)
  (start : (∀ f ∈ fields, f.segments.head? = some ⟨"", true⟩) ∨
    ∀ f ∈ fields, f.segments.head? ≠ some ⟨"", true⟩)
include plain start

/-- If the root is set up as an array, then every field lies in its elements. -/
theorem starts_of_root {f g : Field} {isArray : Bool} (memF : f ∈ fields) (memG : g ∈ fields)
    (root : Way.Container f.way [] isArray) : g.way.head? = some .elements := by
  have head : f.way.head? = some .elements := by
    cases root with
    | array eq => rw [← eq]; rfl
    | object last => simp at last
  rw [Field.head?_way_iff (plain f memF).segments] at head
  rw [Field.head?_way_iff (plain g memG).segments]
  rcases start with all | none
  · exact all g memG
  · exact absurd head (none f memF)

theorem depth_lt_of_isAncestor {s t : Step} (memS : s ∈ setUp root fields)
    (memT : t ∈ setUp root fields) (ancestor : isAncestor s.target t.target = true) :
    depth s.target < depth t.target := by
  obtain ⟨f, memF, u, _, aroundF, placeU⟩ := exists_container_of_mem_setUp plain memS
  obtain ⟨g, memG, v, _, aroundG, placeV⟩ := exists_container_of_mem_setUp plain memT
  have regularF := Field.regular_way (plain f memF).segments
  have regularG := Field.regular_way (plain g memG).segments
  have regularV := regularG.of_part aroundG.isPrefix
  rw [placeU, placeV] at ancestor ⊢
  obtain ⟨above, ne⟩ := Way.isPrefix_of_isAncestor (regularF.named.of_part aroundF.isPrefix)
    regularV.named ancestor
  refine Way.depth_lt regularV above ne (aroundG.getLast?_ne regularG) ?_
  rintro rfl
  obtain ⟨r, eq⟩ := aroundG.isPrefix
  have head := starts_of_root plain start memF memG aroundF
  rwa [← eq, List.head?_append_of_ne_nil _ (Ne.symm ne)] at head

theorem setsUpContainers (root : String) : SetsUpContainers root fields (setUp root fields) where
  isInit s mem := by
    obtain ⟨container, rfl⟩ := exists_of_mem_setUp mem
    exact isInit_initContainer root container
  dst s mem := by
    obtain ⟨container, rfl⟩ := exists_of_mem_setUp mem
    exact dst_initContainer root container
  nodup := ((byDepth_perm _).map Step.target).nodup_iff.mpr (nodup_firstPerTarget _)
  mem_targets := mem_targets_setUp
  outward := by
    refine List.Pairwise.imp_of_mem (fun {s later} memS memLater le => ?_) (pairwise_byDepth _)
    rw [Bool.eq_false_iff]
    intro ancestor
    have lt := depth_lt_of_isAncestor plain start memLater memS ancestor
    omega

/-- A plan sets up, if it is outbound, every container around the fields once and outermost first,
and then copies every field whose bindings differ once, by depth and then in the order of the
fields. -/
theorem plan_layout (root : String) : ∃ inits copies,
    SetsUpContainers root fields inits ∧ CopiesFields fields copies ∧
      ∀ direction, plan direction root fields =
        (if direction = .outbound then inits else []) ++ copies :=
  ⟨_, _, setsUpContainers plain start root, copiesFields fields, fun _ => rfl⟩

end

/-- Tiers of prices inside the items of a page. -/
def tierFields : List Field :=
  [{ fullname := "items[].pricing.tiers[].min", src := "P.#.min",
     dst := "out.items.#.pricing.tiers.#.min" },
   { fullname := "items[].id", src := "P.#.id", dst := "out.items.#.id" },
   { fullname := "page.total", src := "out.page.total", dst := "out.page.total" }]

theorem plan_layout_tiers :
    (∀ f ∈ tierFields, Fullname.IsPlain f.fullname) ∧
    (∀ f ∈ tierFields, f.segments.head? ≠ some ⟨"", true⟩) ∧
    ∃ inits copies, SetsUpContainers "out" tierFields inits ∧ CopiesFields tierFields copies ∧
      plan .outbound "out" tierFields = inits ++ copies ∧
      plan .convert "out" tierFields = copies := by
  have plain : ∀ f ∈ tierFields, Fullname.IsPlain f.fullname := by decide
  have start : ∀ f ∈ tierFields, f.segments.head? ≠ some ⟨"", true⟩ := by decide
  obtain ⟨inits, copies, setUp, copied, layout⟩ := plan_layout plain (.inr start) "out"
  exact ⟨plain, start, inits, copies, setUp, copied, layout .outbound, layout .convert⟩

end Step

end ShapeLines
