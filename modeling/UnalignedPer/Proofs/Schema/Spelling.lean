import UnalignedPer.Proofs.Descriptor
import UnalignedPer.Proofs.Json
import UnalignedPer.Proofs.Schema.Grammar

/-!
# The type that a node spells

`Spelling.type?` is the type of a type node, given the types that references stand for. There is none where anything is wrong
with the node or with a node in it (`Spelling.isSome_type?_iff`). Nothing is reported, and there is no order in which the nodes
are read.

`Spelling.named?` is the type of a definition. References are followed as far as a number says; that number bounds the length
of the chains of references, so more of it changes no type that was found (`Spelling.named?_mono`).
-/

namespace UnalignedPer

namespace Spelling

/-- The types that references stand for. -/
abbrev Refs := String → Option Descriptor

/-! ## The parts without types -/

/-- The extension flag, false where it is missing. -/
def extensible? (node : Json) : Option Bool :=
  match node.under? "extensible" with
  | none => some false
  | some flag => flag.bool?

/-- A bound, if there is one. -/
def bound? (isSize : Bool) (node : Json) (key : String) : Option (Option Int64) :=
  match node.under? key with
  | none => some none
  | some bound => bound.int64?.bind fun number => if isSize ∧ number < 0 then none else some (some number)

/-- Whether bounds do not cross. -/
def uncrossed (lower upper : Option Int64) : Bool :=
  lower.all fun lower => upper.all fun upper => decide (lower ≤ upper)

/-- The bounds and the extension flag. -/
def bounds? (isSize : Bool) (node : Json) : Option (Bounds Int64 × Bool) := do
  let lower ← bound? isSize node "min"
  let upper ← bound? isSize node "max"
  let extensible ← extensible? node
  if uncrossed lower upper then some (⟨lower, upper⟩, extensible) else none

/-- The alphabet, that of all texts where none is given. -/
def alphabet? (node : Json) : Option Alphabet :=
  match node.under? "charset" with
  | none => some .utf8
  | some charset => charset.str?.bind Loading.alphabetOfName?

/-- A type of a bounded kind. -/
def bounded? (name : String) (kind : Kind) (node : Json) : Option Descriptor := do
  let (bounds, extensible) ← bounds? (kind ≠ .integer) node
  match kind with
  | .integer => some (.simple name (.integer bounds) extensible)
  | .octetString => some (.simple name (.octetString bounds) extensible)
  | .bitString => some (.simple name (.bitString bounds) extensible)
  | _ => do
    let alphabet ← alphabet? node
    some (.simple name (.text alphabet bounds) extensible)

/-- The number of members before the extension marker, if the type has a marker. -/
def standard? (names : List String) (node : Json) : Option (Option Nat) := do
  let extensible ← extensible? node
  match node.under? "extensionAfter" with
  | none => some (if extensible then some names.length else none)
  | some after =>
    if (node.under? "extensible").isSome ∧ !extensible then none
    else (after.str?.bind fun name => names.idxOf? name).map fun index => some (index + 1)

/-- Items that differ from each other and from those before. -/
def items? (seen : List String) : List Json → Option (List String)
  | [] => some []
  | item :: rest => do
    let name ← item.str?
    if name.isEmpty ∨ seen.contains name then none
    else (items? (name :: seen) rest).map (name :: ·)

/-- An enumerated type. -/
def enumerated? (name : String) (node : Json) : Option Descriptor := do
  let raw ← node.itemsUnder? "items"
  if raw.isEmpty then none
  else do
    let items ← items? [] raw
    let standard ← standard? items node
    some (.enumerated name items standard)

/-- Whether a field may be absent. -/
def optional? (isChoice : Bool) (item : Json) : Option Bool :=
  match item.under? "optional" with
  | none => some false
  | some flag => flag.bool?.bind fun value => if value ∧ isChoice then none else some value

/-- The name of a field or alternative, empty where there is none. -/
def memberName (item : Json) : String :=
  ((item.under? "name").bind Json.str?).getD ""

/-- A type with fields or alternatives. -/
def finish? (name : String) (isChoice : Bool) (node : Json) (fields : List (Field Descriptor)) : Option Descriptor :=
  (standard? (fields.map (·.name)) node).map fun standard =>
    if isChoice then .choice name (fields.map fun field => (field.name, field.type)) standard
    else .sequence name fields standard

/-! ## Types in types -/

mutual

/-- The type of a type node. -/
def type? (refs : Refs) (name : String) : Json → Option Descriptor
  | .obj members =>
    let node := Json.obj members
    match node.reference? with
    | some target => refs target
    | none => do
      let kind ← node.kind?
      match kind with
      | .null => some (.simple name .null false)
      | .boolean => some (.simple name .boolean false)
      | .enumerated => enumerated? name node
      | .sequence => (membersUnder? refs "fields" false members).bind (finish? name false node)
      | .choice => (membersUnder? refs "variants" true members).bind (finish? name true node)
      | .sequenceOf => do
        let (size, extensible) ← bounds? true node
        let element ← typeUnder? refs "element" members
        some (.sequenceOf name element size extensible)
      | kind => bounded? name kind node
  | _ => none

/-- The type under a key. -/
def typeUnder? (refs : Refs) (key : String) : List (String × Json) → Option Descriptor
  | [] => none
  | (k, node) :: rest => if key = k then type? refs "" node else typeUnder? refs key rest

/-- The fields or alternatives under a key. -/
def membersUnder? (refs : Refs) (key : String) (isChoice : Bool) :
    List (String × Json) → Option (List (Field Descriptor))
  | [] => none
  | (k, node) :: rest =>
    if key = k then
      match node with
      | .arr items => if isChoice ∧ items.isEmpty then none else fields? refs isChoice [] items
      | _ => none
    else membersUnder? refs key isChoice rest

/-- Fields or alternatives whose names differ from each other and from those before. -/
def fields? (refs : Refs) (isChoice : Bool) (seen : List String) : List Json → Option (List (Field Descriptor))
  | [] => some []
  | .obj member :: rest =>
    let name := memberName (.obj member)
    if name.isEmpty ∨ seen.contains name then none
    else do
      let optional ← optional? isChoice (.obj member)
      let type ← typeUnder? refs "type" member
      let fields ← fields? refs isChoice (name :: seen) rest
      some (⟨name, optional, type⟩ :: fields)
  | _ :: _ => none

end

/-- The type of a definition, where the chains of references have a bounded length. -/
def named? (types : List (String × Json)) : Nat → Refs
  | 0, _ => none
  | bound + 1, name => (Json.member? name types).bind (type? (named? types bound) name)

/-- The types of some names, each under its name. -/
def all? (refs : Refs) (names : List String) : Option (List Descriptor) :=
  names.mapM fun name => (refs name).map (·.rename name)

/-! ## What a node spells, by what it holds -/

/-- The type under a key is that of the node there. -/
theorem typeUnder?_eq (refs : Refs) (key : String) (members : List (String × Json)) :
    typeUnder? refs key members = (Json.member? key members).bind (type? refs "") := by
  induction members with
  | nil => rfl
  | cons first rest ih =>
    obtain ⟨k, node⟩ := first
    rw [typeUnder?, Json.member?_cons, ih]
    split <;> rfl

/-- The members under a key are those of the items there; a choice has at least one. -/
theorem membersUnder?_eq (refs : Refs) (key : String) (isChoice : Bool) (members : List (String × Json)) :
    membersUnder? refs key isChoice members =
      ((Json.obj members).itemsUnder? key).bind fun items =>
        if isChoice ∧ items.isEmpty then none else fields? refs isChoice [] items := by
  show _ = ((Json.member? key members).bind Json.arr?).bind _
  induction members with
  | nil => rfl
  | cons first rest ih =>
    obtain ⟨k, node⟩ := first
    rw [Json.member?_cons]
    by_cases h : key = k
    · rw [if_pos h]
      cases node <;> simp only [membersUnder?, if_pos h] <;> rfl
    · rw [if_neg h, ← ih]
      cases node <;> simp only [membersUnder?, if_neg h]

/-- The type that a node of a kind spells, apart from references. -/
def ofKind? (refs : Refs) (name : String) (node : Json) : Kind → Option Descriptor
  | .null => some (.simple name .null false)
  | .boolean => some (.simple name .boolean false)
  | .enumerated => enumerated? name node
  | .sequence =>
    ((node.itemsUnder? "fields").bind fun items => fields? refs false [] items).bind (finish? name false node)
  | .choice =>
    ((node.itemsUnder? "variants").bind fun items => if items.isEmpty then none else fields? refs true [] items).bind
      (finish? name true node)
  | .sequenceOf => do
    let (size, extensible) ← bounds? true node
    let element ← (node.under? "element").bind (type? refs "")
    some (.sequenceOf name element size extensible)
  | kind => bounded? name kind node

/-- A reference stands for a type, whatever stands beside it. -/
theorem type?_of_reference {node : Json} {target : String} (h : node.reference? = some target) (refs : Refs) (name : String) :
    type? refs name node = refs target := by
  cases node
  case obj members => simp only [type?, h]
  all_goals cases h

/-- Without a reference the kind decides. -/
theorem type?_of_kind {node : Json} (h : node.reference? = none) (refs : Refs) (name : String) :
    type? refs name node = node.kind?.bind (ofKind? refs name node) := by
  cases node
  case obj members =>
    simp only [type?, h]
    refine congrArg (Option.bind _) (funext fun kind => ?_)
    cases kind
    case sequence => simp only [ofKind?, membersUnder?_eq, Bool.false_eq_true, false_and, if_false]
    case choice => simp only [ofKind?, membersUnder?_eq, true_and]
    case sequenceOf => simp only [ofKind?, typeUnder?_eq]; rfl
    all_goals rfl
  all_goals rfl

/-! ## Members one by one -/

/-- An empty name is one that is not there, is no text or is the empty text. -/
theorem memberName_eq_iff {item : Json} {name : String} (h : name ≠ "") :
    memberName item = name ↔ item.under? "name" = some (.str name) := by
  unfold memberName
  constructor
  · intro hn
    cases hu : item.under? "name" with
    | none =>
      rw [hu] at hn
      exact absurd hn.symm h
    | some value =>
      rw [hu] at hn
      cases value
      case str text => exact congrArg (fun t => some (Json.str t)) hn
      all_goals exact absurd hn.symm h
  · intro hu
    rw [hu]
    rfl

/-- What a field or an alternative says. -/
structure SpellsField (refs : Refs) (isChoice : Bool) (item : Json) (field : Field Descriptor) : Prop where
  /-- Its name. -/
  name_eq : item.under? "name" = some (.str field.name)
  /-- The name is not empty. -/
  name_ne : field.name ≠ ""
  /-- Whether it may be absent. -/
  optional : optional? isChoice item = some field.optional
  /-- Its type. -/
  type : ∃ inner, item.under? "type" = some inner ∧ type? refs "" inner = some field.type

/-- Fields are spelled by the first item and the items after it, with its name seen. -/
theorem fields?_cons_eq_some {refs : Refs} {isChoice : Bool} {seen : List String} {item : Json} {rest : List Json}
    {found : List (Field Descriptor)} :
    fields? refs isChoice seen (item :: rest) = some found ↔
      ∃ field fields, found = field :: fields ∧ SpellsField refs isChoice item field ∧ field.name ∉ seen ∧
        fields? refs isChoice (field.name :: seen) rest = some fields := by
  have hnot : (∀ members, item ≠ .obj members) → fields? refs isChoice seen (item :: rest) = none := by
    intro h
    cases item
    case obj members => exact absurd rfl (h members)
    all_goals rfl
  constructor
  · intro h
    cases item
    case obj member =>
      rw [fields?] at h
      split at h
      · cases h
      · rename_i hname
        rw [not_or] at hname
        obtain ⟨optional, ho, h⟩ := Option.bind_eq_some_iff.mp h
        obtain ⟨type, ht, h⟩ := Option.bind_eq_some_iff.mp h
        obtain ⟨fields, hf, h⟩ := Option.bind_eq_some_iff.mp h
        rw [typeUnder?_eq] at ht
        have hne : memberName (.obj member) ≠ "" := fun he => hname.1 (by rw [he]; rfl)
        refine ⟨⟨memberName (.obj member), optional, type⟩, fields, (Option.some.inj h).symm, ⟨?_, hne, ho, ?_⟩, ?_, hf⟩
        · exact (memberName_eq_iff hne).mp rfl
        · exact Option.bind_eq_some_iff.mp ht
        · exact fun hm => hname.2 (List.contains_iff_mem.mpr hm)
    all_goals cases h
  · rintro ⟨⟨name, optional, type⟩, fields, rfl, hs, hnew, hf⟩
    obtain ⟨inner, hi, ht⟩ := hs.type
    cases item
    case obj member =>
      have hname : memberName (.obj member) = name := (memberName_eq_iff hs.name_ne).mpr hs.name_eq
      have hok : ¬(name.isEmpty = true ∨ seen.contains name = true) := by
        rw [not_or]
        exact ⟨fun he => hs.name_ne (String.isEmpty_iff.mp he), fun hm => hnew (List.contains_iff_mem.mp hm)⟩
      have htype : typeUnder? refs "type" member = some type := by
        rw [typeUnder?_eq, show Json.member? "type" member = some inner from hi]
        exact ht
      rw [fields?, hname, if_neg hok, hs.optional, htype]
      simp only [Option.bind_eq_bind, Option.bind_some, hf]
    all_goals cases hi

/-- Fields or alternatives are spelled one by one, with names that differ. -/
theorem fields?_eq_some_iff {refs : Refs} {isChoice : Bool} {seen : List String} {items : List Json}
    {fields : List (Field Descriptor)} :
    fields? refs isChoice seen items = some fields ↔
      List.Forall₂ (SpellsField refs isChoice) items fields ∧ (fields.map (·.name)).Nodup ∧
        ∀ field ∈ fields, field.name ∉ seen := by
  induction items generalizing seen fields with
  | nil =>
    rw [fields?, Option.some.injEq]
    constructor
    · rintro rfl
      exact ⟨.nil, List.nodup_nil, fun _ hm => absurd hm List.not_mem_nil⟩
    · rintro ⟨h, -, -⟩
      cases h
      rfl
  | cons item rest ih =>
    rw [fields?_cons_eq_some]
    constructor
    · rintro ⟨field, fields, rfl, hs, hnew, hrest⟩
      obtain ⟨hall, hnodup, hdiffer⟩ := ih.mp hrest
      refine ⟨.cons hs hall, ?_, ?_⟩
      · rw [List.map_cons, List.nodup_cons]
        refine ⟨fun hm => ?_, hnodup⟩
        obtain ⟨other, ho, hname⟩ := List.mem_map.mp hm
        exact hdiffer other ho (hname ▸ List.mem_cons_self ..)
      · intro other hm
        rcases List.mem_cons.mp hm with rfl | hm
        · exact hnew
        · exact fun hseen => hdiffer other hm (List.mem_cons_of_mem _ hseen)
    · rintro ⟨hall, hnodup, hdiffer⟩
      cases hall with
      | cons hs hall =>
        rename_i field fields
        rw [List.map_cons, List.nodup_cons] at hnodup
        refine ⟨field, fields, rfl, hs, hdiffer field (List.mem_cons_self ..), ih.mpr ⟨hall, hnodup.2, ?_⟩⟩
        intro other hm hseen
        rcases List.mem_cons.mp hseen with he | hseen
        · exact hnodup.1 (List.mem_map.mpr ⟨other, hm, he⟩)
        · exact hdiffer other (List.mem_cons_of_mem _ hm) hseen

/-- Items are spelled one by one, with names that differ. -/
theorem items?_eq_some_iff {seen : List String} {items : List Json} {names : List String} :
    items? seen items = some names ↔
      items = names.map .str ∧ "" ∉ names ∧ names.Nodup ∧ ∀ name ∈ names, name ∉ seen := by
  induction items generalizing seen names with
  | nil =>
    rw [items?, Option.some.injEq]
    constructor
    · rintro rfl
      exact ⟨rfl, List.not_mem_nil, List.nodup_nil, fun _ hm => absurd hm List.not_mem_nil⟩
    · rintro ⟨h, -⟩
      exact (List.map_eq_nil_iff.mp h.symm).symm
  | cons item rest ih =>
    constructor
    · intro h
      obtain ⟨name, hname, h⟩ := Option.bind_eq_some_iff.mp h
      split at h
      · cases h
      · rename_i hok
        rw [not_or] at hok
        obtain ⟨others, ho, rfl⟩ := Option.map_eq_some_iff.mp h
        obtain ⟨rfl, hne, hnodup, hdiffer⟩ := ih.mp ho
        have hitem : item = .str name := by
          cases item
          case str text => exact congrArg Json.str (Option.some.inj hname)
          all_goals cases hname
        refine ⟨by rw [hitem, List.map_cons], ?_, ?_, ?_⟩
        · intro hm
          rcases List.mem_cons.mp hm with he | hm
          · exact hok.1 (by rw [← he]; rfl)
          · exact hne hm
        · exact List.nodup_cons.mpr ⟨fun hm => hdiffer name hm (List.mem_cons_self ..), hnodup⟩
        · intro other hm
          rcases List.mem_cons.mp hm with rfl | hm
          · exact fun hseen => hok.2 (List.contains_iff_mem.mpr hseen)
          · exact fun hseen => hdiffer other hm (List.mem_cons_of_mem _ hseen)
    · rintro ⟨hitems, hne, hnodup, hdiffer⟩
      cases names with
      | nil => cases hitems
      | cons name others =>
        obtain ⟨rfl, hrest⟩ := List.cons.inj hitems
        rw [List.mem_cons, not_or] at hne
        rw [List.nodup_cons] at hnodup
        have hok : ¬(name.isEmpty = true ∨ seen.contains name = true) := by
          rw [not_or]
          refine ⟨fun he => hne.1 (String.isEmpty_iff.mp he).symm, fun hm => ?_⟩
          exact hdiffer name (List.mem_cons_self ..) (List.contains_iff_mem.mp hm)
        have hothers : items? (name :: seen) rest = some others := by
          refine ih.mpr ⟨hrest, hne.2, hnodup.2, fun other hm hseen => ?_⟩
          rcases List.mem_cons.mp hseen with rfl | hseen
          · exact hnodup.1 hm
          · exact hdiffer other (List.mem_cons_of_mem _ hm) hseen
        show (if name.isEmpty ∨ seen.contains name then none else (items? (name :: seen) rest).map (name :: ·)) = _
        rw [if_neg hok, hothers]
        rfl

/-! ## More references stand for more types -/

/-- References that stand for types still do. -/
def Refs.Extends (refs' refs : Refs) : Prop :=
  ∀ name type, refs name = some type → refs' name = some type

/-- A type stays as it is where more references stand for types. -/
theorem type?_mono {refs refs' : Refs} (h : Refs.Extends refs' refs) (node : Json) :
    ∀ name type, type? refs name node = some type → type? refs' name node = some type := by
  induction node using Json.nodeInduction with
  | step node hunder hitems =>
    intro name type ht
    cases hr : node.reference? with
    | some target =>
      rw [type?_of_reference hr] at ht ⊢
      exact h target type ht
    | none =>
      rw [type?_of_kind hr] at ht ⊢
      obtain ⟨kind, hk, ht⟩ := Option.bind_eq_some_iff.mp ht
      rw [hk, Option.bind_some]
      have hfields : ∀ key isChoice items fields, node.itemsUnder? key = some items →
          fields? refs isChoice [] items = some fields → fields? refs' isChoice [] items = some fields := by
        intro key isChoice items fields hi hf
        obtain ⟨hall, hnodup, hdiffer⟩ := fields?_eq_some_iff.mp hf
        refine fields?_eq_some_iff.mpr ⟨?_, hnodup, hdiffer⟩
        refine List.Forall₂.imp ?_ ((List.forall₂_and_left items fields).mpr ⟨fun _ hm => hm, hall⟩)
        rintro item field ⟨hm, hs⟩
        obtain ⟨inner, hinner, hin⟩ := hs.type
        exact ⟨hs.name_eq, hs.name_ne, hs.optional, inner, hinner, hitems key items hi item hm inner hinner _ _ hin⟩
      cases kind
      case sequence =>
        obtain ⟨fields, hf, hfinish⟩ := Option.bind_eq_some_iff.mp ht
        obtain ⟨items, hi, hf⟩ := Option.bind_eq_some_iff.mp hf
        refine Option.bind_eq_some_iff.mpr ⟨fields, Option.bind_eq_some_iff.mpr ⟨items, hi, ?_⟩, hfinish⟩
        exact hfields _ _ _ _ hi hf
      case choice =>
        obtain ⟨fields, hf, hfinish⟩ := Option.bind_eq_some_iff.mp ht
        obtain ⟨items, hi, hf⟩ := Option.bind_eq_some_iff.mp hf
        refine Option.bind_eq_some_iff.mpr ⟨fields, Option.bind_eq_some_iff.mpr ⟨items, hi, ?_⟩, hfinish⟩
        split at hf
        · cases hf
        · rename_i hne
          rw [if_neg hne]
          exact hfields _ _ _ _ hi hf
      case sequenceOf =>
        obtain ⟨bounds, hb, ht⟩ := Option.bind_eq_some_iff.mp ht
        obtain ⟨element, he, ht⟩ := Option.bind_eq_some_iff.mp ht
        obtain ⟨inner, hi, he⟩ := Option.bind_eq_some_iff.mp he
        refine Option.bind_eq_some_iff.mpr ⟨bounds, hb, Option.bind_eq_some_iff.mpr ⟨element, ?_, ht⟩⟩
        exact Option.bind_eq_some_iff.mpr ⟨inner, hi, hunder _ _ hi _ _ he⟩
      all_goals exact ht

/-- Longer chains of references change no type that was found. -/
theorem named?_extends (types : List (String × Json)) (bound : Nat) :
    Refs.Extends (named? types (bound + 1)) (named? types bound) := by
  induction bound with
  | zero =>
    intro name type h
    cases h
  | succ bound ih =>
    intro name type h
    obtain ⟨node, hn, ht⟩ := Option.bind_eq_some_iff.mp h
    exact Option.bind_eq_some_iff.mpr ⟨node, hn, type?_mono ih node name type ht⟩

/-- More references stand for more types. -/
theorem named?_mono {types : List (String × Json)} {bound bound' : Nat} (h : bound ≤ bound') :
    Refs.Extends (named? types bound') (named? types bound) := by
  induction h with
  | refl => exact fun _ _ ht => ht
  | step _ ih => exact fun name type ht => named?_extends types _ name type (ih name type ht)

/-- The first name is read before the others. -/
theorem all?_cons (refs : Refs) (name : String) (rest : List String) :
    all? refs (name :: rest) =
      ((refs name).map (·.rename name)).bind fun type => (all? refs rest).map (type :: ·) := by
  rw [all?, List.mapM_cons]
  cases refs name with
  | none => rfl
  | some type =>
    show Option.bind (all? refs rest) _ = _
    cases all? refs rest <;> rfl

/-- All names have types if each of them has one. -/
theorem all?_eq_some_iff {refs : Refs} {names : List String} {found : List Descriptor} :
    all? refs names = some found ↔
      List.Forall₂ (fun name type => ∃ known, refs name = some known ∧ type = known.rename name) names found := by
  induction names generalizing found with
  | nil => exact ⟨fun h => Option.some.inj h ▸ .nil, fun h => by cases h; rfl⟩
  | cons name rest ih =>
    rw [all?_cons]
    constructor
    · intro h
      obtain ⟨type, ht, h⟩ := Option.bind_eq_some_iff.mp h
      obtain ⟨types, hrest, rfl⟩ := Option.map_eq_some_iff.mp h
      obtain ⟨known, hk, rfl⟩ := Option.map_eq_some_iff.mp ht
      exact .cons ⟨known, hk, rfl⟩ (ih.mp hrest)
    · intro h
      cases h with
      | cons ht hrest =>
        obtain ⟨known, hk, rfl⟩ := ht
        rw [hk, ih.mpr hrest]
        rfl

/-- Types are read under some names if one is read under each. -/
theorem isSome_all?_iff {refs : Refs} {names : List String} :
    (all? refs names).isSome = true ↔ ∀ name ∈ names, (refs name).isSome = true := by
  induction names with
  | nil => exact ⟨fun _ _ hm => absurd hm List.not_mem_nil, fun _ => rfl⟩
  | cons name rest ih =>
    rw [all?_cons, List.forall_mem_cons, ← ih]
    cases refs name with
    | none => simp
    | some type => simp

end Spelling

end UnalignedPer
