import Mathlib
import UnalignedPer.Proofs.Schema.Resolution
import UnalignedPer.Proofs.Schema.WellFormed

/-!
# Where the types of a schema come from

`Schema.Origin` ties each type in a schema to the nodes of the document that it was read from, through references and members.
So what a node says of a type is known of every type at any depth: all types in a schema that was read are well formed
(`Schema.wellFormed_of_parse`).
-/

namespace UnalignedPer

/-- A type in a schema was read from a node of the document. -/
inductive Schema.Origin (schema : Schema) (types : List (String × Json)) : Json → Descriptor → Prop
  /-- The type of a name was read from its definition. -/
  | definition {name : String} {node : Json} {type : Descriptor} : Json.member? name types = some node →
    schema.lookup? name = some type → Origin schema types node type
  /-- What was read from a reference was read from the definition it refers to. -/
  | reference {node next : Json} {target : String} {type : Descriptor} : Origin schema types node type →
    node.reference? = some target → Json.member? target types = some next → Origin schema types next type
  /-- The type of a field or alternative was read from the member in its place. -/
  | member {node item inner : Json} {items : List Json} {index : Nat} {type : Descriptor} {field : Field Descriptor} :
    Origin schema types node type → node.reference? = none → node.members? = some items → items[index]? = some item →
    item.under? "type" = some inner → type.fields[index]? = some field → Origin schema types inner field.type
  /-- The type of the elements was read from the node for them. -/
  | element {node inner : Json} {type element : Descriptor} : Origin schema types node type → node.reference? = none →
    node.under? "element" = some inner → type.element? = some element → Origin schema types inner element

namespace Spelling

variable {node : Json} {types : List (String × Json)}

/-- Fields are spelled by the members in their places. -/
theorem member_of_fields? {refs : Refs} {isChoice : Bool} {items : List Json} {fields : List (Field Descriptor)}
    (h : fields? refs isChoice [] items = some fields) {index : Nat} {field : Field Descriptor}
    (hf : fields[index]? = some field) :
    ∃ item inner, items[index]? = some item ∧ item.under? "type" = some inner ∧ type? refs "" inner = some field.type := by
  obtain ⟨hall, -, -⟩ := fields?_eq_some_iff.mp h
  obtain ⟨hi, rfl⟩ := List.getElem?_eq_some_iff.mp hf
  have hi' : index < items.length := hall.length_eq ▸ hi
  obtain ⟨inner, hinner, htype⟩ := ((List.forall₂_iff_get.mp hall).2 index hi' hi).type
  exact ⟨items[index], inner, List.getElem?_eq_getElem hi', hinner, htype⟩

/-- A type is of the kind that its node names. -/
theorem kind_of_ofKind? {refs : Refs} {name : String} {kind : Kind} {type : Descriptor}
    (h : ofKind? refs name node kind = some type) : type.kind = kind := by
  cases kind
  case null | boolean =>
    cases h
    rfl
  case enumerated =>
    obtain ⟨raw, -, h⟩ := Option.bind_eq_some_iff.mp h
    split at h
    · cases h
    · obtain ⟨items, -, h⟩ := Option.bind_eq_some_iff.mp h
      obtain ⟨standard, -, h⟩ := Option.bind_eq_some_iff.mp h
      cases h
      rfl
  case sequence | choice =>
    obtain ⟨fields, -, h⟩ := Option.bind_eq_some_iff.mp h
    obtain ⟨standard, -, rfl⟩ := Option.map_eq_some_iff.mp h
    rfl
  case sequenceOf =>
    obtain ⟨bounds, -, h⟩ := Option.bind_eq_some_iff.mp h
    obtain ⟨element, -, h⟩ := Option.bind_eq_some_iff.mp h
    cases h
    rfl
  case integer | octetString | bitString =>
    obtain ⟨bounds, -, h⟩ := Option.bind_eq_some_iff.mp h
    cases h
    rfl
  case text =>
    obtain ⟨bounds, -, h⟩ := Option.bind_eq_some_iff.mp h
    obtain ⟨alphabet, -, h⟩ := Option.bind_eq_some_iff.mp h
    cases h
    rfl

/-- The types of fields or alternatives are spelled by the members in their places. -/
theorem member_of_type? {refs : Refs} {name : String} {type : Descriptor} (hr : node.reference? = none)
    (h : type? refs name node = some type) {index : Nat} {field : Field Descriptor} (hf : type.fields[index]? = some field) :
    ∃ items item inner, node.members? = some items ∧ items[index]? = some item ∧ item.under? "type" = some inner ∧
      type? refs "" inner = some field.type := by
  rw [type?_of_kind hr] at h
  obtain ⟨kind, hk, h⟩ := Option.bind_eq_some_iff.mp h
  have hkind := kind_of_ofKind? h
  unfold Json.members?
  rw [hk]
  by_cases hsequence : kind = .sequence
  · subst hsequence
    obtain ⟨fields, hfields, h⟩ := Option.bind_eq_some_iff.mp h
    obtain ⟨items, hitems, hfields⟩ := Option.bind_eq_some_iff.mp hfields
    obtain ⟨standard, -, rfl⟩ := Option.map_eq_some_iff.mp h
    obtain ⟨item, inner, hmember⟩ := member_of_fields? hfields hf
    exact ⟨items, item, inner, hitems, hmember⟩
  by_cases hchoice : kind = .choice
  · subst hchoice
    obtain ⟨fields, hfields, h⟩ := Option.bind_eq_some_iff.mp h
    obtain ⟨items, hitems, hfields⟩ := Option.bind_eq_some_iff.mp hfields
    obtain ⟨standard, -, rfl⟩ := Option.map_eq_some_iff.mp h
    split at hfields
    · cases hfields
    · have halternative : (Descriptor.fields (.choice name (fields.map fun field => (field.name, field.type)) standard))[index]? =
          some field := hf
      rw [Descriptor.fields, List.map_map, List.getElem?_map] at halternative
      obtain ⟨field', hf', rfl⟩ := Option.map_eq_some_iff.mp halternative
      obtain ⟨item, inner, hmember⟩ := member_of_fields? hfields hf'
      exact ⟨items, item, inner, hitems, hmember⟩
  · rw [Descriptor.fields_of_kind (hkind ▸ hsequence) (hkind ▸ hchoice)] at hf
    cases hf

/-- The type of the elements is spelled by the node for them. -/
theorem element_of_type? {refs : Refs} {name : String} {type element : Descriptor} (hr : node.reference? = none)
    (h : type? refs name node = some type) (he : type.element? = some element) :
    ∃ inner, node.under? "element" = some inner ∧ type? refs "" inner = some element := by
  rw [type?_of_kind hr] at h
  obtain ⟨kind, hk, h⟩ := Option.bind_eq_some_iff.mp h
  by_cases hlist : kind = .sequenceOf
  · subst hlist
    obtain ⟨bounds, -, h⟩ := Option.bind_eq_some_iff.mp h
    obtain ⟨element', helement, h⟩ := Option.bind_eq_some_iff.mp h
    cases h
    cases he
    exact Option.bind_eq_some_iff.mp helement
  · rw [Descriptor.element?_of_kind ((kind_of_ofKind? h).symm ▸ hlist)] at he
    cases he

end Spelling

namespace Schema

open Spelling (type? named?)

variable {schema : Schema} {types : List (String × Json)} {node : Json} {type : Descriptor}

/-- A node spells a type, apart from its name. -/
def Spelled (types : List (String × Json)) (node : Json) (type : Descriptor) : Prop :=
  ∃ bound name known, type? (named? types bound) name node = some known ∧ type = known.rename type.name

/-- A type is spelled by the nodes it comes from. -/
theorem Origin.spelled (h : Spelling.all? (named? types types.length) (types.map (·.1)) = some schema.types)
    (ho : Origin schema types node type) : Spelled types node type := by
  induction ho with
  | @definition name node type hnode hlook =>
    rw [Schema.lookup?_eq h] at hlook
    obtain ⟨known, hknown, rfl⟩ := Option.map_eq_some_iff.mp hlook
    cases types with
    | nil => cases hnode
    | cons first rest =>
      obtain ⟨_, hnode', htype⟩ := Option.bind_eq_some_iff.mp hknown
      cases hnode.symm.trans hnode'
      exact ⟨_, name, known, htype, by rw [Descriptor.name_rename]⟩
  | @reference node next target type _ hr hnext ih =>
    obtain ⟨bound, name, known, htype, heq⟩ := ih
    rw [Spelling.type?_of_reference hr] at htype
    cases bound with
    | zero => cases htype
    | succ bound =>
      obtain ⟨_, hnode', htype⟩ := Option.bind_eq_some_iff.mp htype
      cases hnext.symm.trans hnode'
      exact ⟨bound, target, known, htype, heq⟩
  | @member node item inner items index type field _ hr hitems hitem hinner hfield ih =>
    obtain ⟨bound, name, known, htype, heq⟩ := ih
    rw [heq, Descriptor.fields_rename] at hfield
    obtain ⟨_, _, _, hitems', hitem', hinner', htype'⟩ := Spelling.member_of_type? hr htype hfield
    cases hitems.symm.trans hitems'
    cases hitem.symm.trans hitem'
    cases hinner.symm.trans hinner'
    exact ⟨bound, "", field.type, htype', (Descriptor.rename_name _).symm⟩
  | @element node inner type element _ hr hinner helement ih =>
    obtain ⟨bound, name, known, htype, heq⟩ := ih
    rw [heq, Descriptor.element?_rename] at helement
    obtain ⟨_, hinner', htype'⟩ := Spelling.element_of_type? hr htype helement
    cases hinner.symm.trans hinner'
    exact ⟨bound, "", element, htype', (Descriptor.rename_name _).symm⟩

/-- A type comes from a node that is no reference: references lead to one. -/
theorem Origin.direct (ho : Origin schema types node type) (hs : Spelled types node type) :
    ∃ node', Origin schema types node' type ∧ node'.reference? = none ∧ Spelled types node' type := by
  obtain ⟨bound, name, known, htype, heq⟩ := hs
  induction bound generalizing node name with
  | zero =>
    cases hr : node.reference? with
    | none => exact ⟨node, ho, hr, 0, name, known, htype, heq⟩
    | some target =>
      rw [Spelling.type?_of_reference hr] at htype
      cases htype
  | succ bound ih =>
    cases hr : node.reference? with
    | none => exact ⟨node, ho, hr, bound + 1, name, known, htype, heq⟩
    | some target =>
      rw [Spelling.type?_of_reference hr] at htype
      obtain ⟨next, hnext, htype⟩ := Option.bind_eq_some_iff.mp htype
      exact ih (ho.reference hr hnext) target htype

/-- A type that comes from a node itself is well formed, and its marker stands where the node puts it. -/
theorem Spelled.wellFormed (hr : node.reference? = none) (hs : Spelled types node type) :
    type.WellFormed ∧ type.MarkedBy node := by
  obtain ⟨bound, name, known, htype, heq⟩ := hs
  obtain ⟨hw, hm⟩ := Spelling.wellFormed_of_type? hr htype
  rw [heq]
  exact ⟨hw.rename _, hm.rename _⟩

/-- The types in a type come from the nodes in its node. -/
theorem Origin.part (ho : Origin schema types node type) (hr : node.reference? = none) (hs : Spelled types node type)
    {inner : Descriptor} (hm : inner ∈ type.partTypes) : ∃ node', Origin schema types node' inner := by
  obtain ⟨bound, name, known, htype, heq⟩ := hs
  rcases List.mem_append.mp hm with hm | hm
  · obtain ⟨field, hfield, rfl⟩ := List.mem_map.mp hm
    obtain ⟨index, hget⟩ := List.mem_iff_getElem?.mp hfield
    have hget' := hget
    rw [heq, Descriptor.fields_rename] at hget'
    obtain ⟨items, item, inner, hitems, hitem, hinner, -⟩ := Spelling.member_of_type? hr htype hget'
    exact ⟨inner, ho.member hr hitems hitem hinner hget⟩
  · have hget := Option.mem_toList.mp hm
    have hget' := hget
    rw [heq, Descriptor.element?_rename] at hget'
    obtain ⟨node', hinner, -⟩ := Spelling.element_of_type? hr htype hget'
    exact ⟨node', ho.element hr hinner hget⟩

/-- Every type in a schema, at any depth, comes from a node that is no reference. -/
theorem exists_origin (h : Spelling.all? (named? types types.length) (types.map (·.1)) = some schema.types)
    (ht : type ∈ schema.types) {inner : Descriptor} (hholds : type.Holds inner) :
    ∃ node, Origin schema types node inner ∧ node.reference? = none ∧ Spelled types node inner := by
  induction hholds with
  | refl =>
    have hm : type.name ∈ types.map (·.1) := Spelling.names_of_all? h ▸ List.mem_map_of_mem ht
    obtain ⟨node, hnode⟩ := Option.isSome_iff_exists.mp (Json.isSome_member?_iff.mpr hm)
    have ho : Origin schema types node type := .definition hnode (Schema.lookup?_of_mem h ht)
    exact ho.direct (ho.spelled h)
  | tail _ hm ih =>
    obtain ⟨node, ho, hr, hs⟩ := ih
    obtain ⟨node', ho'⟩ := ho.part hr hs hm
    exact ho'.direct (ho'.spelled h)

/-- A schema that was read has a type for each definition of its document, under the name of the definition, and no others. All
types in it, at any depth, are well formed. Each comes from a node of the document that is no reference, and wherever it comes
from such a node, its extension marker stands where the node puts it. -/
theorem wellFormed_of_parse {file : String} {document : Json} (h : (Schema.parse file document).1 = .ok schema) :
    ∃ types, document.definitions? = some types ∧ schema.types.map (·.name) = types.map (·.1) ∧
      (∀ name, (schema.lookup? name).isSome = true ↔ (Json.member? name types).isSome = true) ∧
      (∀ name type, schema.lookup? name = some type → type ∈ schema.types ∧ type.name = name) ∧
      ∀ type ∈ schema.types, ∀ inner, type.Holds inner → inner.WellFormed ∧
        (∃ node, schema.Origin types node inner ∧ node.reference? = none) ∧
        ∀ node, schema.Origin types node inner → node.reference? = none → inner.MarkedBy node := by
  obtain ⟨types, hdef, hall⟩ := Schema.parse_eq_ok_iff.mp h
  have hnames := Spelling.names_of_all? hall
  refine ⟨types, hdef, hnames, fun name => ?_, fun name type hlook => ?_, fun type ht inner hholds => ?_⟩
  · rw [Schema.lookup?, List.find?_isSome, Json.isSome_member?_iff, ← hnames, List.mem_map]
    simp only [beq_iff_eq]
  · have hname : (type.name == name) = true := List.find?_some (p := fun type : Descriptor => type.name == name) hlook
    exact ⟨List.mem_of_find?_eq_some hlook, beq_iff_eq.mp hname⟩
  · obtain ⟨node, ho, hr, hs⟩ := exists_origin hall ht hholds
    exact ⟨(hs.wellFormed hr).1, ⟨node, ho, hr⟩, fun node ho hr => ((ho.spelled hall).wellFormed hr).2⟩

end Schema

/-- A colour that may be extended. -/
def Descriptor.colour : Descriptor :=
  .enumerated "Colour" ["red", "green", "blue"] (some 2)

/-- A parcel of a colour, and of a weight if it was weighed. -/
def Descriptor.parcel : Descriptor :=
  .sequence "Parcel" [⟨"colour", false, .colour⟩, ⟨"weight", true, .simple "" (.integer ⟨some 0, some 9⟩) false⟩] none

/-- The schema document of colours and parcels. -/
def Json.parcels : Json :=
  .obj [("types", .obj [
    ("Colour", .obj [("extensionAfter", .str "green"), ("items", .arr [.str "red", .str "green", .str "blue"]),
      ("kind", .str "enumerated")]),
    ("Parcel", .obj [("fields", .arr [
        .obj [("name", .str "colour"), ("type", .obj [("ref", .str "Colour")])],
        .obj [("name", .str "weight"), ("optional", .bool true),
          ("type", .obj [("kind", .str "integer"), ("max", .int 9), ("min", .int 0)])]]),
      ("kind", .str "sequence")])])]

/-- The colour of a parcel is well formed, and it comes from its definition. -/
theorem Schema.wellFormed_of_parse_parcel : (Schema.parse "" .parcels).1 = .ok ⟨[.colour, .parcel]⟩ ∧
    Descriptor.parcel.Holds .colour ∧ Descriptor.colour.WellFormed ∧
      ∃ types node, Schema.Origin ⟨[.colour, .parcel]⟩ types node .colour ∧ node.reference? = none :=
  have hs : (Schema.parse "" .parcels).1 = .ok ⟨[.colour, .parcel]⟩ := by cbv
  have hholds : Descriptor.parcel.Holds .colour := .single (List.mem_cons_self ..)
  have ⟨types, _, _, _, _, hall⟩ := wellFormed_of_parse hs
  have ⟨hw, ⟨node, ho, hr⟩, _⟩ := hall .parcel (List.mem_cons_of_mem _ (List.mem_cons_self ..)) .colour hholds
  ⟨hs, hholds, hw, types, node, ho, hr⟩

namespace Schema

variable {file : String} {document : Json} {schema : Schema} {type : Descriptor}

/-- A type in a schema is sound in every place. -/
theorem sound_of_holds (h : (Schema.parse file document).1 = .ok schema) {top : Descriptor} (ht : top ∈ schema.types)
    (hholds : top.Holds type) : type.everywhere Descriptor.sound = true := by
  obtain ⟨types, -, hall⟩ := Schema.parse_eq_ok_iff.mp h
  refine Descriptor.everywhere_of_holds fun inner hinner => ?_
  obtain ⟨node, -, hr, hs⟩ := exists_origin hall ht (hholds.trans hinner)
  exact (hs.wellFormed hr).1.sound

/-- The bounds of a type in a schema are ordered in every place. -/
theorem ordered_of_holds (h : (Schema.parse file document).1 = .ok schema) {top : Descriptor} (ht : top ∈ schema.types)
    (hholds : top.Holds type) : type.everywhere Descriptor.ordered = true :=
  Descriptor.everywhere_mono (fun _ hp => (Bool.and_eq_true_iff.mp hp).1) type (sound_of_holds h ht hholds)

/-- A type in a schema has items, fields and alternatives with names of their own in every place. -/
theorem distinct_of_holds (h : (Schema.parse file document).1 = .ok schema) {top : Descriptor} (ht : top ∈ schema.types)
    (hholds : top.Holds type) : type.everywhere Descriptor.distinct = true :=
  Descriptor.everywhere_mono (fun _ hp => (Bool.and_eq_true_iff.mp hp).2) type (sound_of_holds h ht hholds)

/-- The bounds of the types of a schema are ordered in every place. -/
theorem ordered_of_parse (h : (Schema.parse file document).1 = .ok schema) (ht : type ∈ schema.types) :
    type.everywhere Descriptor.ordered = true :=
  ordered_of_holds h ht .refl

/-- The types of a schema have items, fields and alternatives with names of their own in every place. -/
theorem distinct_of_parse (h : (Schema.parse file document).1 = .ok schema) (ht : type ∈ schema.types) :
    type.everywhere Descriptor.distinct = true :=
  distinct_of_holds h ht .refl

end Schema

end UnalignedPer
