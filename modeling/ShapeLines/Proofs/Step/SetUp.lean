import ShapeLines.Step.Plan
import ShapeLines.Shape.Binding
import ShapeLines.Proofs.Fullname.Enclosing

/-!
# The steps that set up containers

The plan of an outbound shape sets up every container around its fields. Of the steps that could
set up one place only the first is kept, so each place is set up once.
-/

namespace ShapeLines

namespace Step

open Fullname (containerPlace element enclosing)

variable {root container target : String} {steps : List Step} {fields : List Field}

/-- The destination of a container is the binding that its place implies. Whether the path or the
root is empty is looked at in another order there. -/
theorem dst_init (root target : String) (isArray : Bool) :
    (init root target isArray).dst = impliedBinding root target := by
  unfold init impliedBinding
  dsimp only
  by_cases path : Fullname.toPositional target = ""
  · rw [if_pos path, if_pos path]
    split
    · next empty => rw [empty, path]
    · rfl
  · rw [if_neg path, if_neg path]

theorem initContainer_eq {isArray : Bool}
    (array : (∃ place, container = element place) ↔ isArray = true) :
    initContainer root container = init root (containerPlace container) isArray := by
  unfold initContainer
  cases isArray with
  | true =>
    obtain ⟨place, rfl⟩ := array.mpr rfl
    rw [Fullname.containerPlace_element, Way.toList_element, Fullname.beforeHop?_append]
    simp
  | false =>
    have noHop : ∀ place, container ≠ element place := fun place eq =>
      Bool.false_ne_true (array.mp ⟨place, eq⟩)
    rw [Fullname.containerPlace_of_not_element noHop, Fullname.beforeHop?_of_not_element noHop]

theorem target_initContainer (root container : String) :
    (initContainer root container).target = containerPlace container := by
  unfold initContainer containerPlace
  cases Fullname.beforeHop? container.toList <;> rfl

theorem isInit_initContainer (root container : String) :
    (initContainer root container).command.isInit = true := by
  unfold initContainer
  cases Fullname.beforeHop? container.toList <;> rfl

theorem filter_firstPerTarget (target : String) (steps : List Step) :
    (firstPerTarget steps).filter (·.target = target) =
      (steps.find? (·.target = target)).toList := by
  induction steps with
  | nil => rfl
  | cons s rest ih =>
    rw [firstPerTarget, List.filter_cons, List.find?_cons, List.filter_filter]
    by_cases same : s.target = target
    · simp [same]
    · have all : (firstPerTarget rest).filter
          (fun r => decide (r.target = target) && decide (r.target ≠ s.target)) =
            (firstPerTarget rest).filter (·.target = target) := by
        refine List.filter_congr fun r _ => ?_
        by_cases here : r.target = target
        · simp [here, Ne.symm same]
        · simp [here]
      rw [all, ih]
      simp [same]

theorem mem_of_mem_firstPerTarget {s : Step} (mem : s ∈ firstPerTarget steps) : s ∈ steps := by
  induction steps with
  | nil => exact mem
  | cons first rest ih =>
    rcases List.mem_cons.mp mem with rfl | mem
    · exact List.mem_cons_self
    · exact List.mem_cons_of_mem first (ih (List.mem_filter.mp mem).1)

theorem byDepth_perm (steps : List Step) : (byDepth steps).Perm steps :=
  List.mergeSort_perm ..

theorem mem_flatMap_inits {s : Step} : s ∈ fields.flatMap (inits root) ↔
    ∃ f ∈ fields, ∃ container ∈ enclosing f.fullname, initContainer root container = s := by
  simp [inits]

theorem isInit_commandOf (f : Field) : (commandOf f).isInit = false := by
  unfold commandOf
  split
  · rfl
  · split
    · split <;> rfl
    · rfl

/-- The step sets up a container at `target`. -/
def setsUp (target : String) (s : Step) : Bool :=
  s.command.isInit && s.target = target

theorem filter_setsUp_copies (target : String) (fields : List Field) :
    (byDepth (fields.filterMap copy?)).filter (setsUp target) = [] := by
  apply List.filter_eq_nil_iff.mpr
  intro s mem
  obtain ⟨f, -, copied⟩ := List.mem_filterMap.mp ((byDepth_perm _).mem_iff.mp mem)
  unfold copy? at copied
  split at copied
  · contradiction
  · cases copied
    simp [setsUp, isInit_commandOf]

section

variable {isArray : Bool}
  (around : ∃ f ∈ fields, ∃ container ∈ enclosing f.fullname, containerPlace container = target)
  (alike : ∀ f ∈ fields, ∀ container ∈ enclosing f.fullname, containerPlace container = target →
    ((∃ place, container = element place) ↔ isArray = true))
include around alike

theorem find?_inits : (fields.flatMap (inits root)).find? (·.target = target) =
    some (init root target isArray) := by
  obtain ⟨f, memF, container, encloses, here⟩ := around
  cases found : (fields.flatMap (inits root)).find? (·.target = target) with
  | none =>
    have mem : initContainer root container ∈ fields.flatMap (inits root) :=
      mem_flatMap_inits.mpr ⟨f, memF, container, encloses, rfl⟩
    have none := List.find?_eq_none.mp found _ mem
    rw [target_initContainer, here] at none
    simp at none
  | some s =>
    have here' : s.target = target := by simpa using List.find?_some found
    obtain ⟨g, memG, container', encloses', rfl⟩ :=
      mem_flatMap_inits.mp (List.mem_of_find?_eq_some found)
    rw [target_initContainer] at here'
    rw [initContainer_eq (alike g memG container' encloses' here'), here']

/-- A place that fields name a container of is set up once, if they agree on what it is. -/
theorem filter_setsUp_plan :
    (plan .outbound root fields).filter (setsUp target) = [init root target isArray] := by
  have inits' : ∀ s ∈ firstPerTarget (fields.flatMap (inits root)),
      setsUp target s = decide (s.target = target) := by
    intro s mem
    obtain ⟨f, -, container, -, rfl⟩ := mem_flatMap_inits.mp (mem_of_mem_firstPerTarget mem)
    rw [setsUp, isInit_initContainer, Bool.true_and]
  have kept : (setUp root fields).filter (setsUp target) = [init root target isArray] := by
    have perm := (byDepth_perm (firstPerTarget (fields.flatMap (inits root)))).filter
      (setsUp target)
    rw [List.filter_congr inits', filter_firstPerTarget, find?_inits around alike] at perm
    exact List.perm_singleton.mp perm
  rw [plan, if_pos rfl, List.filter_append, kept, filter_setsUp_copies, List.append_nil]

end

end Step

end ShapeLines
