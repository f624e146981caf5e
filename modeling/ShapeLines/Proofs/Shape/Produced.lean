import ShapeLines.Proofs.Schema.ShownNodes
import ShapeLines.Proofs.Shape.KeptKeys
import ShapeLines.Proofs.Sample

/-!
# Which shapes are read as they were

A shape is read from its text as it was, in every order of the keys, if it is legible, and only
then. What this asks for depends on where the shape comes from. What reading gives is legible up to
list values with line feeds and further keys that a token does not hold as they are. The fields of a
document or of a sample can hold any text, but their bindings are those of their places.
-/

namespace ShapeLines

open Text (Storable Trimmed)
open Line (IsLabel)

namespace Shape

variable {s : Shape} {text : String}

/-- A shape that is read from its text as it was, in whatever order the keys are written. -/
def Rereads (s : Shape) : Prop :=
  ∀ order, parse (s.text order) = .ok s

theorem Stored.legible (stored : s.Stored) (rereads : s.Rereads) : s.Legible := by
  have keepsLists := stored.keepsLists (rereads .canonical) rfl
  have keepsKeys := stored.keepsKeys keepsLists rereads
  exact ⟨stored.header, fun f mem => ⟨stored.fields f mem, keepsLists f mem, keepsKeys f mem⟩⟩

theorem rereads_iff_legible : s.Rereads ↔ s.Legible :=
  ⟨fun rereads => (stored_of_parse (rereads .canonical)).legible rereads, Legible.reread⟩

theorem rereads_of_parse_iff (read : parse text = .ok s) :
    s.Rereads ↔ ∀ f ∈ s.fields, f.KeepsLists ∧ f.KeepsKeys := by
  have stored := stored_of_parse read
  rw [rereads_iff_legible]
  constructor
  · exact fun legible f mem => ⟨(legible.fields f mem).keepsLists, (legible.fields f mem).keepsKeys⟩
  · exact fun keeps =>
      ⟨stored.header, fun f mem => ⟨stored.fields f mem, (keeps f mem).1, (keeps f mem).2⟩⟩

end Shape

/-! ## Fields that are bound in place -/

namespace Field

variable {h : Header} {f g : Field}

/-- A field that is read from its line as it was, if its bindings are those of its place. -/
structure Tellable (f : Field) : Prop where
  texts : ∀ t ∈ f.plainTexts, Storable t
  lists : ∀ vs ∈ f.lists, ∀ v ∈ vs, Trimmed v.toList
  extraKeys : ∀ e ∈ f.extra.entries, IsLabel e.1.toList ∧ e.1 ∉ ownKeys
  keepsLists : f.KeepsLists
  keepsKeys : f.KeepsKeys

/-- A field of a place whose bindings are still to be filled in. -/
structure Unbound (f : Field) : Prop where
  fullname : f.fullname ≠ ""
  src : f.src = ""

theorem Unbound.bindInPlace (unbound : g.Unbound) (id : String) :
    g.bindInPlace id = { g with src := impliedBinding id g.fullname, dst := g.fullname } := by
  simp [Field.bindInPlace, fillBindings, unbound.fullname, unbound.src]

/-- A destination that is the place itself is a text of the field, and a source that is the implied
one is only written if it is the destination. -/
theorem Unbound.legible_bindInPlace_iff (unbound : g.Unbound) (id : h.id ≠ "") :
    (g.bindInPlace h.id).Legible h ↔ (g.bindInPlace h.id).Tellable := by
  constructor
  · exact fun l => ⟨l.stored.texts, l.stored.lists, l.stored.extraKeys, l.keepsLists, l.keepsKeys⟩
  · intro tellable
    have fullname : Storable (g.bindInPlace h.id).fullname :=
      tellable.texts _ (by simp [plainTexts])
    refine ⟨?_, tellable.keepsLists, tellable.keepsKeys⟩
    have texts := tellable.texts
    have lists := tellable.lists
    have extraKeys := tellable.extraKeys
    rw [unbound.bindInPlace] at fullname texts lists extraKeys ⊢
    constructor
    case fullname => exact unbound.fullname
    case src => exact impliedBinding_ne_nil id g.fullname
    case dst => exact unbound.fullname
    case srcText =>
      rintro (other | ⟨⟨-, same⟩, -⟩)
      · exact absurd rfl other
      · exact same ▸ fullname
    case dstText => exact fun _ => fullname
    case texts => exact texts
    case lists => exact lists
    case extraKeys => exact extraKeys

end Field

/-! ## The fields of a document -/

namespace Schema

theorem unbound_of_mem_fieldAt {place : String} {required : Bool} {type : FieldType}
    {marks : Marks} : ∀ g ∈ fieldAt place required type marks, g.Unbound := by
  unfold fieldAt
  split
  · exact List.forall_mem_nil _
  · next ne =>
    obtain ⟨fullname, -, -, src, -⟩ :=
      Field.ofKeywords_frame place type (required || marks.flag) marks.keywords
    exact List.forall_mem_singleton.mpr ⟨fun empty => ne (fullname.symm.trans empty), src⟩

mutual

theorem unbound_of_mem_fields (place : String) (required : Bool) :
    ∀ s : Schema, ∀ g ∈ s.fields place required, g.Unbound
  | .scalar _ _ => unbound_of_mem_fieldAt
  | .array marks items => unbound_of_mem_arrayFields place required marks items
  | .object marks names properties => by
    refine List.forall_mem_append.mpr ⟨?_, unbound_of_mem_propertyFields place names properties⟩
    split
    · exact unbound_of_mem_fieldAt
    · exact List.forall_mem_nil _

theorem unbound_of_mem_arrayFields (place : String) (required : Bool) (marks : Marks) :
    ∀ items : Option Schema, ∀ g ∈ arrayFields place required marks items, g.Unbound
  | none => unbound_of_mem_fieldAt
  | some items => by
    have below (required : Bool) :=
      unbound_of_mem_fields (Fullname.element place) required items
    rw [arrayFields]
    split
    · exact below required
    · exact List.forall_mem_append.mpr ⟨unbound_of_mem_fieldAt, below false⟩

theorem unbound_of_mem_propertyFields (place : String) (names : List String) :
    ∀ properties : List (String × Schema), ∀ g ∈ propertyFields place names properties, g.Unbound
  | [] => List.forall_mem_nil _
  | (name, s) :: rest =>
    List.forall_mem_append.mpr
      ⟨unbound_of_mem_fields (Fullname.join place name) (names.contains name) s,
        unbound_of_mem_propertyFields place names rest⟩

end

end Schema

namespace Shape

variable {s : Shape}

/-- A shape whose fields are bound in place is legible as far as its header and its fields are. -/
theorem rereads_bindInPlace_iff {h : Header} {fields : List Field}
    (unbound : ∀ g ∈ fields, g.Unbound) :
    (⟨h, fields.map (·.bindInPlace h.id)⟩ : Shape).Rereads ↔
      h.Stored ∧ ∀ f ∈ fields.map (·.bindInPlace h.id), f.Tellable := by
  rw [rereads_iff_legible]
  constructor
  · refine fun legible => ⟨legible.header, fun f mem => ?_⟩
    obtain ⟨g, inFields, rfl⟩ := List.mem_map.mp mem
    exact ((unbound g inFields).legible_bindInPlace_iff legible.header.id).mp
      (legible.fields _ mem)
  · rintro ⟨header, tellable⟩
    refine ⟨header, fun f mem => ?_⟩
    obtain ⟨g, inFields, rfl⟩ := List.mem_map.mp mem
    exact ((unbound g inFields).legible_bindInPlace_iff header.id).mpr (tellable _ mem)

theorem rereads_ofSchemaJson_iff {v : Json} (ok : ofSchemaJson v = .ok s) :
    s.Rereads ↔ s.header.Stored ∧ ∀ f ∈ s.fields, f.Tellable := by
  obtain ⟨root, -, fields⟩ := Schema.exists_ofJson_of_ok ok
  have inPlace : s = ⟨s.header, (root.fields "" false).map (·.bindInPlace s.header.id)⟩ :=
    congrArg (Shape.mk s.header) fields
  have decided := rereads_bindInPlace_iff (h := s.header)
    (Schema.unbound_of_mem_fields "" false root)
  rwa [← inPlace, ← fields] at decided

end Shape

/-! ## The fields of a sample -/

namespace Sample

/-- The fields that a walk through a sample finds. -/
inductive Found : Field → Prop
  | scalar {place : String} {format : Option String} (value : String) (ne : place ≠ "")
      (known : ∀ t ∈ format, Storable t) : Found (fieldOf place format value)

theorem Found.unbound {f : Field} (found : Found f) : f.Unbound := by
  obtain ⟨_, ne, -⟩ := found
  exact ⟨ne, rfl⟩

/-- Apart from its place and its example such a field holds no text of the sample. -/
theorem Found.tellable_bindInPlace_iff {f : Field} (found : Found f) (id : String) :
    (f.bindInPlace id).Tellable ↔ Storable f.fullname ∧ ∀ t ∈ f.exampleText, Storable t := by
  obtain ⟨value, ne, known⟩ := found
  rename_i place format
  have texts : ((fieldOf place format value).bindInPlace id).plainTexts =
      place :: (format.toList ++ [value]) := by
    have noExtra : (∅ : KeyMap String).entries = [] := rfl
    simp [Field.plainTexts, Field.bindInPlace, Field.fillBindings, fieldOf, noExtra]
  have lists : ((fieldOf place format value).bindInPlace id).lists = [[], [], []] := rfl
  constructor
  · intro tellable
    have storable := tellable.texts
    rw [texts] at storable
    exact ⟨storable place (by simp), fun t mem => storable t (by simp_all [fieldOf])⟩
  · rintro ⟨storablePlace, storableValue⟩
    constructor
    case texts =>
      rw [texts]
      refine List.forall_mem_cons.mpr ⟨storablePlace, List.forall_mem_append.mpr ⟨?_, ?_⟩⟩
      · exact fun t mem => known t (Option.mem_toList.mp mem)
      · exact List.forall_mem_singleton.mpr (storableValue value rfl)
    case lists => simp [lists]
    case extraKeys => exact List.forall_mem_nil _
    case keepsLists => simp [Field.KeepsLists, lists]
    case keepsKeys => exact List.forall_mem_nil _

theorem found_unbound {leaf : Leaf} (ne : leaf.place ≠ "") : Found leaf.unbound := by
  refine .scalar _ ne fun t mem => ?_
  rw [Leaf.format?] at mem
  split at mem <;> cases mem <;> decide

theorem found_walk (v : Json) : ∀ f ∈ walk "" [] v, Found f := by
  rw [walk_eq_firsts, List.forall_mem_map]
  exact fun leaf mem => found_unbound (ne_of_mem_leaves (mem_of_mem_firsts mem))

end Sample

namespace Shape

theorem rereads_ofSample_iff (v : Json) : (ofSample v).Rereads ↔
    ∀ f ∈ (ofSample v).fields, Storable f.fullname ∧ ∀ t ∈ f.exampleText, Storable t := by
  have found := Sample.found_walk v
  have header : Header.Stored ⟨Header.defaultId, Header.defaultVersion, .inbound⟩ := by
    constructor <;> decide
  refine (rereads_bindInPlace_iff fun g mem => (found g mem).unbound).trans ?_
  rw [and_iff_right header]
  simp only [ofSample, List.forall_mem_map]
  exact forall₂_congr fun g mem => (found g mem).tellable_bindInPlace_iff _

/-- What decides whether a shape that has been read, or taken from a document or a sample, is read
from its text as it was. -/
theorem rereads_produced (s : Shape) :
    (∀ text, parse text = .ok s → (s.Rereads ↔ ∀ f ∈ s.fields, f.KeepsLists ∧ f.KeepsKeys)) ∧
    (∀ v, ofSchemaJson v = .ok s →
      (s.Rereads ↔ s.header.Stored ∧ ∀ f ∈ s.fields, f.Tellable)) ∧
    (∀ v, ofSample v = s → (s.Rereads ↔
      ∀ f ∈ s.fields, Storable f.fullname ∧ ∀ t ∈ f.exampleText, Storable t)) := by
  refine ⟨fun _ => rereads_of_parse_iff, fun _ => rereads_ofSchemaJson_iff, ?_⟩
  rintro v rfl
  exact rereads_ofSample_iff v

/-- A shape with one further key. -/
def keyed (id version dst key value : String) : Shape where
  header := ⟨id, version, .inbound⟩
  fields :=
    [{ fullname := "a", src := id ++ ".a", dst, extra := KeyMap.ofList [(key, value)] }]

theorem rereads_keyed :
    (parse "version=v1,direction=in,id=r\nfullname=a,dst=b,title=x\\,y" =
        .ok (keyed "r" "v1" "b" "title" "x,y") ∧
      (keyed "r" "v1" "b" "title" "x,y").Rereads) ∧
    (ofSchemaJson (.obj [("properties", .obj [("a", .obj [("title", .str "x\ny")])])]) =
        .ok (keyed "example" Header.defaultVersion "a" "title" "x\ny") ∧
      ¬(keyed "example" Header.defaultVersion "a" "title" "x\ny").Rereads) := by
  have read : parse "version=v1,direction=in,id=r\nfullname=a,dst=b,title=x\\,y" =
      .ok (keyed "r" "v1" "b" "title" "x,y") := by
    decide +kernel
  have described :
      ofSchemaJson (.obj [("properties", .obj [("a", .obj [("title", .str "x\ny")])])]) =
        .ok (keyed "example" Header.defaultVersion "a" "title" "x\ny") := by
    decide +kernel
  refine ⟨⟨read, ((rereads_produced _).1 _ read).mpr (by decide +kernel)⟩, described, ?_⟩
  intro rereads
  have tellable := (((rereads_produced _).2.1 _ described).mp rereads).2
  have storable : Storable "x\ny" :=
    (List.forall_mem_singleton.mp tellable).texts "x\ny" (by decide +kernel)
  exact absurd storable (by decide)

/-- A comma in a key is not escaped, so what was read as one key is written as two. -/
theorem text_commaKey :
    parse "version=v1,direction=in,id=r\nfullname=a,dst=b,x\\,y=1" =
        .ok (keyed "r" "v1" "b" "x,y" "1") ∧
      (keyed "r" "v1" "b" "x,y" "1").text .canonical =
        "version=v1,direction=in,id=r\nfullname=a,dst=b,x,y=1" ∧
      parse ((keyed "r" "v1" "b" "x,y" "1").text .canonical) ≠
        .ok (keyed "r" "v1" "b" "x,y" "1") := by
  have text : (keyed "r" "v1" "b" "x,y" "1").text .canonical =
      "version=v1,direction=in,id=r\nfullname=a,dst=b,x,y=1" := by
    -- the pairs stand in this order already
    rw [Shape.text, calls, keyed, List.flatMap_singleton, fieldCalls, Field.orderedPairs,
      List.mergeSort_of_pairwise (by decide +kernel)]
    decide +kernel
  refine ⟨by decide +kernel, text, ?_⟩
  rw [text]
  decide +kernel

end Shape

end ShapeLines
