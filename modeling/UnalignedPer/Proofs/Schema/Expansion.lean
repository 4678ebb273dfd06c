import UnalignedPer.Proofs.Message.Naming
import UnalignedPer.Proofs.Schema.Acceptance

/-!
# Definitions without references

`Json.expanded` is the definition of a name with every type node that is a reference replaced by the expanded definition it
refers to. What is expanded is a document of its own: it has no references, and it spells the same type, apart from the names of
types (`Spelling.expand_spells`). So references are no more than an abbreviation (`Schema.references_transparent`).
-/

namespace UnalignedPer

namespace Json

mutual

/-- A type node with the references in it replaced. -/
def expandWith (full : String → Json) : Json → Json
  | .obj members =>
    let node := Json.obj members
    match node.reference? with
    | some target => full target
    | none =>
      match node.kind? with
      | some .sequence => .obj (expandMembers full "fields" members)
      | some .choice => .obj (expandMembers full "variants" members)
      | some .sequenceOf => .obj (expandType full "element" members)
      | _ => node
  | node => node

/-- Members of an object, with the references in the type node under a key replaced. -/
def expandType (full : String → Json) (key : String) : List (String × Json) → List (String × Json)
  | [] => []
  | (k, node) :: rest => if key = k then (k, expandWith full node) :: rest else (k, node) :: expandType full key rest

/-- Members of an object, with the references in the fields or alternatives under a key replaced. -/
def expandMembers (full : String → Json) (key : String) : List (String × Json) → List (String × Json)
  | [] => []
  | (k, list) :: rest => if key = k then (k, expandList full list) :: rest else (k, list) :: expandMembers full key rest

/-- A list of fields or alternatives with the references in their types replaced. -/
def expandList (full : String → Json) : Json → Json
  | .arr items => .arr (expandItems full items)
  | list => list

/-- Fields or alternatives with the references in their types replaced. -/
def expandItems (full : String → Json) : List Json → List Json
  | [] => []
  | item :: rest => expandItem full item :: expandItems full rest

/-- A field or an alternative with the references in its type replaced. -/
def expandItem (full : String → Json) : Json → Json
  | .obj member => .obj (expandType full "type" member)
  | item => item

end

/-- The definition of a name with references replaced, where the chains of references have a bounded length. -/
def expand (types : List (String × Json)) : Nat → String → Json
  | 0, name => .obj [("ref", .str name)]
  | bound + 1, name =>
    match member? name types with
    | some node => expandWith (expand types bound) node
    | none => .obj [("ref", .str name)]

/-- The definition of a name with all references replaced. -/
def expanded (types : List (String × Json)) (name : String) : Json :=
  expand types types.length name

/-- The definition of a name is a reference to another name. -/
def RefersTo (types : List (String × Json)) (other name : String) : Prop :=
  (member? other types).bind reference? = some name

variable {full : String → Json} {node : Json}

/-! ## What lies under the keys of an expanded node -/

theorem expandItems_eq_map (items : List Json) : expandItems full items = items.map (expandItem full) := by
  induction items with
  | nil => rfl
  | cons item rest ih => rw [expandItems, ih, List.map_cons]

theorem under?_expandType (key sought : String) (members : List (String × Json)) :
    (Json.obj (expandType full key members)).under? sought =
      if sought = key then ((Json.obj members).under? key).map (expandWith full) else (Json.obj members).under? sought := by
  simp only [under?_obj]
  induction members with
  | nil => rw [expandType, member?]; split <;> rfl
  | cons first rest ih =>
    obtain ⟨k, value⟩ := first
    rw [expandType]
    by_cases hk : key = k
    · subst hk
      rw [if_pos rfl, member?_cons, member?_cons, member?_cons, if_pos rfl]
      split <;> rfl
    · rw [if_neg hk, member?_cons, member?_cons, member?_cons, if_neg hk, ih]
      by_cases hs : sought = k
      · rw [if_pos hs, if_neg fun h => hk (h.symm.trans hs), if_pos hs]
      · rw [if_neg hs, if_neg hs]

theorem under?_expandMembers (key sought : String) (members : List (String × Json)) :
    (Json.obj (expandMembers full key members)).under? sought =
      if sought = key then ((Json.obj members).under? key).map (expandList full) else (Json.obj members).under? sought := by
  simp only [under?_obj]
  induction members with
  | nil => rw [expandMembers, member?]; split <;> rfl
  | cons first rest ih =>
    obtain ⟨k, value⟩ := first
    rw [expandMembers]
    by_cases hk : key = k
    · subst hk
      rw [if_pos rfl, member?_cons, member?_cons, member?_cons, if_pos rfl]
      split <;> rfl
    · rw [if_neg hk, member?_cons, member?_cons, member?_cons, if_neg hk, ih]
      by_cases hs : sought = k
      · rw [if_pos hs, if_neg fun h => hk (h.symm.trans hs), if_pos hs]
      · rw [if_neg hs, if_neg hs]

/-- The fields or alternatives of an expanded list. -/
theorem arr?_expandList (list : Json) : (expandList full list).arr? = list.arr?.map (List.map (expandItem full)) := by
  cases list
  case arr items => exact congrArg some (expandItems_eq_map items)
  all_goals rfl

/-- A reference is replaced. -/
theorem expandWith_of_reference {target : String} (h : node.reference? = some target) : expandWith full node = full target := by
  cases node
  case obj members => simp only [expandWith, h]
  all_goals cases h

/-- A node of a kind without types in it stays as it is. -/
theorem expandWith_of_plain {kind : Kind} (hr : node.reference? = none) (hk : node.kind? = some kind)
    (h : kind ≠ .sequence ∧ kind ≠ .choice ∧ kind ≠ .sequenceOf) : expandWith full node = node := by
  cases node
  case obj members =>
    simp only [expandWith, hr, hk]
    cases kind
    case sequence => exact absurd rfl h.1
    case choice => exact absurd rfl h.2.1
    case sequenceOf => exact absurd rfl h.2.2
    all_goals rfl
  all_goals rfl

/-- What an expanded node has under its keys. -/
structure Expanded (full : String → Json) (node node' : Json) : Prop where
  /-- The type of the elements is expanded. -/
  element : node.kind? = some .sequenceOf → node'.under? "element" = (node.under? "element").map (expandWith full)
  /-- The types of fields are expanded. -/
  fields : node.kind? = some .sequence → node'.itemsUnder? "fields" = (node.itemsUnder? "fields").map (List.map (expandItem full))
  /-- The types of alternatives are expanded. -/
  variants : node.kind? = some .choice →
    node'.itemsUnder? "variants" = (node.itemsUnder? "variants").map (List.map (expandItem full))
  /-- All else stays as it is. -/
  other : ∀ key, key ∉ ["element", "fields", "variants"] → node'.under? key = node.under? key

/-- The list under a key of an expanded object. -/
theorem itemsUnder?_expandMembers (key : String) (members : List (String × Json)) :
    (Json.obj (expandMembers full key members)).itemsUnder? key =
      ((Json.obj members).itemsUnder? key).map (List.map (expandItem full)) := by
  rw [itemsUnder?, under?_expandMembers, if_pos rfl, itemsUnder?, Option.bind_map, Option.map_bind]
  exact congrArg (Option.bind _) (funext arr?_expandList)

/-- A node that is no reference is expanded under its keys. -/
theorem expanded_of_kind (h : node.reference? = none) : Expanded full node (expandWith full node) := by
  have hsame : (∀ kind, node.kind? = some kind → kind ≠ .sequence ∧ kind ≠ .choice ∧ kind ≠ .sequenceOf) →
      Expanded full node node := fun hk =>
    ⟨fun hs => absurd rfl (hk _ hs).2.2, fun hs => absurd rfl (hk _ hs).1, fun hs => absurd rfl (hk _ hs).2.1, fun _ _ => rfl⟩
  cases node
  case obj members =>
    rw [expandWith]
    simp only [h]
    split
    · rename_i hk
      refine ⟨fun hs => absurd (hk.symm.trans hs) (by decide), fun _ => itemsUnder?_expandMembers _ _,
        fun hs => absurd (hk.symm.trans hs) (by decide), fun key hkey => ?_⟩
      rw [under?_expandMembers, if_neg fun he => hkey (by simp [he])]
    · rename_i hk
      refine ⟨fun hs => absurd (hk.symm.trans hs) (by decide), fun hs => absurd (hk.symm.trans hs) (by decide),
        fun _ => itemsUnder?_expandMembers _ _, fun key hkey => ?_⟩
      rw [under?_expandMembers, if_neg fun he => hkey (by simp [he])]
    · rename_i hk
      refine ⟨fun _ => ?_, fun hs => absurd (hk.symm.trans hs) (by decide), fun hs => absurd (hk.symm.trans hs) (by decide),
        fun key hkey => ?_⟩
      · rw [under?_expandType, if_pos rfl]
      · rw [under?_expandType, if_neg fun he => hkey (by simp [he])]
    · rename_i hs hc hl
      refine hsame fun kind hk => ⟨?_, ?_, ?_⟩
      · rintro rfl
        exact hs hk
      · rintro rfl
        exact hc hk
      · rintro rfl
        exact hl hk
  all_goals exact hsame fun kind hk => by cases hk

/-- An expanded field or alternative differs in its type only. -/
theorem under?_expandItem (item : Json) (key : String) : (expandItem full item).under? key =
    if key = "type" then (item.under? "type").map (expandWith full) else item.under? key := by
  cases item
  case obj member => exact under?_expandType "type" key member
  all_goals
    show none = _
    split <;> rfl

/-! ## What an expansion depends on -/

variable {full' : String → Json}

theorem expandType_congr {key : String} {members : List (String × Json)}
    (h : ∀ inner, member? key members = some inner → expandWith full inner = expandWith full' inner) :
    expandType full key members = expandType full' key members := by
  induction members with
  | nil => rfl
  | cons first rest ih =>
    obtain ⟨k, value⟩ := first
    rw [member?_cons] at h
    rw [expandType, expandType]
    by_cases hk : key = k
    · rw [if_pos hk] at h
      rw [if_pos hk, if_pos hk, h value rfl]
    · rw [if_neg hk] at h
      rw [if_neg hk, if_neg hk, ih h]

theorem expandItem_congr {item : Json}
    (h : ∀ inner, item.under? "type" = some inner → expandWith full inner = expandWith full' inner) :
    expandItem full item = expandItem full' item := by
  cases item
  case obj member => exact congrArg Json.obj (expandType_congr h)
  all_goals rfl

theorem expandMembers_congr {key : String} {members : List (String × Json)}
    (h : ∀ items, (Json.obj members).itemsUnder? key = some items → ∀ item ∈ items, expandItem full item = expandItem full' item) :
    expandMembers full key members = expandMembers full' key members := by
  induction members with
  | nil => rfl
  | cons first rest ih =>
    obtain ⟨k, value⟩ := first
    rw [itemsUnder?, under?_obj, member?_cons] at h
    rw [expandMembers, expandMembers]
    by_cases hk : key = k
    · rw [if_pos hk] at h
      rw [if_pos hk, if_pos hk]
      cases value
      case arr items =>
        rw [expandList, expandList, expandItems_eq_map, expandItems_eq_map, List.map_congr_left (h items rfl)]
      all_goals rfl
    · rw [if_neg hk] at h
      rw [if_neg hk, if_neg hk, ih h]

/-- An expanded node depends on what the references in it are replaced by. -/
theorem expandWith_congr (node : Json)
    (h : ∀ inner target, node.Within inner → inner.reference? = some target → full target = full' target) :
    expandWith full node = expandWith full' node := by
  induction node using nodeInduction with
  | step node hunder hitems =>
    cases hr : node.reference? with
    | some target =>
      rw [expandWith_of_reference hr, expandWith_of_reference hr]
      exact h node target .refl hr
    | none =>
      have hpart : ∀ {inner}, Part node inner → ∀ inner' target, inner.Within inner' → inner'.reference? = some target →
          full target = full' target :=
        fun hp inner' target hw => h inner' target (.head hp hw)
      cases node
      case obj members =>
        simp only [expandWith, hr]
        cases hk : (Json.obj members).kind? with
        | none => rfl
        | some kind =>
          cases kind
          case sequence =>
            refine congrArg Json.obj (expandMembers_congr fun items hi item hm => expandItem_congr fun inner hinner => ?_)
            exact hitems _ items hi item hm inner hinner (hpart (.field hr hk hi hm hinner))
          case choice =>
            refine congrArg Json.obj (expandMembers_congr fun items hi item hm => expandItem_congr fun inner hinner => ?_)
            exact hitems _ items hi item hm inner hinner (hpart (.alternative hr hk hi hm hinner))
          case sequenceOf =>
            refine congrArg Json.obj (expandType_congr fun inner hinner => ?_)
            exact hunder _ inner hinner (hpart (.element hr hk hinner))
          all_goals rfl
      all_goals rfl

end Json

namespace Spelling

variable {refs refs' : Refs} {full : String → Json} {node node' : Json}

/-! ## What an expanded node spells -/

/-- What is read of a node apart from the types in it depends on what lies under the keys for it. -/
theorem extensible?_congr (h : node'.under? "extensible" = node.under? "extensible") : extensible? node' = extensible? node := by
  rw [extensible?, h, extensible?]

theorem bounds?_congr (h : ∀ key ∈ ["min", "max", "extensible"], node'.under? key = node.under? key) (isSize : Bool) :
    bounds? isSize node' = bounds? isSize node := by
  have hflag := extensible?_congr (h "extensible" (by decide))
  rw [bounds?, bound?, bound?, h "min" (by decide), h "max" (by decide), hflag, bounds?, bound?, bound?]

theorem standard?_congr (h : ∀ key ∈ ["extensible", "extensionAfter"], node'.under? key = node.under? key) (names : List String) :
    standard? names node' = standard? names node := by
  have hflag := extensible?_congr (h "extensible" (by decide))
  rw [standard?, h "extensionAfter" (by decide), h "extensible" (by decide), hflag, standard?]

/-- The type of a node without types in it depends on the references and on its name no more than by its name. -/
theorem ofKind?_plain {kind : Kind} (h : kind ≠ .sequence ∧ kind ≠ .choice ∧ kind ≠ .sequenceOf) (refs refs' : Refs)
    (name name' : String) (node : Json) : ofKind? refs' name' node kind = (ofKind? refs name node kind).map (·.rename name') := by
  cases kind
  case sequence => exact absurd rfl h.1
  case choice => exact absurd rfl h.2.1
  case sequenceOf => exact absurd rfl h.2.2
  case null | boolean => rfl
  case enumerated =>
    simp only [ofKind?, enumerated?, Option.bind_eq_bind]
    cases node.itemsUnder? "items" with
    | none => rfl
    | some raw =>
      rw [Option.bind_some, Option.bind_some]
      by_cases hempty : raw.isEmpty = true
      · rw [if_pos hempty, if_pos hempty]
        rfl
      · rw [if_neg hempty, if_neg hempty]
        cases items? [] raw with
        | none => rfl
        | some items =>
          rw [Option.bind_some, Option.bind_some]
          cases standard? items node <;> rfl
  case text =>
    simp only [ofKind?, bounded?, Option.bind_eq_bind]
    cases bounds? _ node with
    | none => rfl
    | some found =>
      rw [Option.bind_some, Option.bind_some]
      cases alphabet? node <;> rfl
  all_goals
    simp only [ofKind?, bounded?, Option.bind_eq_bind]
    cases bounds? _ node <;> rfl

/-- A field that differs in the names of types only. -/
abbrev SameField (field field' : Field Descriptor) : Prop :=
  field'.name = field.name ∧ field'.optional = field.optional ∧ field'.type.unnamed = field.type.unnamed

theorem names_of_sameField {fields fields' : List (Field Descriptor)} (h : List.Forall₂ SameField fields fields') :
    fields'.map (·.name) = fields.map (·.name) := by
  induction h with
  | nil => rfl
  | cons hs _ ih => rw [List.map_cons, List.map_cons, hs.1, ih]

/-- Types that differ in such fields differ in the names of types only. -/
theorem unnamed_of_sameField {fields fields' : List (Field Descriptor)} (h : List.Forall₂ SameField fields fields')
    (name name' : String) (standard : Option Nat) :
    (Descriptor.sequence name' fields' standard).unnamed = (Descriptor.sequence name fields standard).unnamed ∧
      (Descriptor.choice name' (fields'.map fun field => (field.name, field.type)) standard).unnamed =
        (Descriptor.choice name (fields.map fun field => (field.name, field.type)) standard).unnamed := by
  have hfields : Descriptor.unnamedFields fields' = Descriptor.unnamedFields fields := by
    induction h with
    | nil => rfl
    | cons hs _ ih =>
      simp only [Descriptor.unnamedFields_eq_map, List.map_cons, hs.1, hs.2.1, hs.2.2] at ih ⊢
      rw [ih]
  have halternatives : ∀ fields : List (Field Descriptor),
      Descriptor.unnamedAlternatives (fields.map fun field => (field.name, field.type)) =
        (Descriptor.unnamedFields fields).map fun field => (field.name, field.type) := by
    intro fields
    rw [Descriptor.unnamedAlternatives_eq_map, Descriptor.unnamedFields_eq_map, List.map_map, List.map_map]
    rfl
  refine ⟨?_, ?_⟩
  · rw [Descriptor.unnamed, Descriptor.unnamed, hfields]
  · rw [Descriptor.unnamed, Descriptor.unnamed, halternatives, halternatives, hfields]

/-- Wherever a node spells a type, so does the node with its references replaced, apart from names. -/
def Kept (refs refs' : Refs) (full : String → Json) (node : Json) : Prop :=
  ∀ name type, type? refs name node = some type → ∀ name',
    ∃ type', type? refs' name' (Json.expandWith full node) = some type' ∧ type'.unnamed = type.unnamed

/-- Expanded fields or alternatives are spelled as they were if their types are. -/
theorem fields?_expandItem {isChoice : Bool} {items : List Json}
    (h : ∀ item ∈ items, ∀ inner, item.under? "type" = some inner → Kept refs refs' full inner)
    {fields : List (Field Descriptor)} (hf : fields? refs isChoice [] items = some fields) :
    ∃ fields', fields? refs' isChoice [] (items.map (Json.expandItem full)) = some fields' ∧
      List.Forall₂ SameField fields fields' := by
  obtain ⟨hall, hnodup, -⟩ := fields?_eq_some_iff.mp hf
  have hexists : ∃ fields', List.Forall₂ (SpellsField refs' isChoice) (items.map (Json.expandItem full)) fields' ∧
      List.Forall₂ SameField fields fields' := by
    clear hf hnodup
    induction hall with
    | nil => exact ⟨[], .nil, .nil⟩
    | @cons item field rest _ hs _ ih =>
      obtain ⟨fields', hspells, hsame⟩ := ih fun other hm => h other (List.mem_cons_of_mem _ hm)
      obtain ⟨inner, hinner, htype⟩ := hs.type
      obtain ⟨type', htype', hunnamed⟩ := h item (List.mem_cons_self ..) inner hinner "" field.type htype ""
      refine ⟨⟨field.name, field.optional, type'⟩ :: fields', .cons ⟨?_, hs.name_ne, ?_, Json.expandWith full inner, ?_, htype'⟩ hspells,
        .cons ⟨rfl, rfl, hunnamed⟩ hsame⟩
      · rw [Json.under?_expandItem, if_neg (by decide), hs.name_eq]
      · rw [optional?, Json.under?_expandItem, if_neg (by decide)]
        exact hs.optional
      · rw [Json.under?_expandItem, if_pos rfl, hinner]
        rfl
  obtain ⟨fields', hspells, hsame⟩ := hexists
  refine ⟨fields', fields?_eq_some_iff.mpr ⟨hspells, ?_, fun _ _ => List.not_mem_nil⟩, hsame⟩
  rwa [names_of_sameField hsame]

/-- A type with such fields or alternatives, and with the marker of the node. -/
theorem finish?_expanded (he : Json.Expanded full node node') {isChoice : Bool} {fields fields' : List (Field Descriptor)}
    (hs : List.Forall₂ SameField fields fields') {name : String} {type : Descriptor}
    (h : finish? name isChoice node fields = some type) (name' : String) :
    ∃ type', finish? name' isChoice node' fields' = some type' ∧ type'.unnamed = type.unnamed := by
  obtain ⟨standard, hstandard, rfl⟩ := Option.map_eq_some_iff.mp h
  have hkeys : ∀ key ∈ ["extensible", "extensionAfter"], key ∉ ["element", "fields", "variants"] := by decide
  have hstandard' : standard? (fields'.map (·.name)) node' = some standard := by
    rw [standard?_congr fun key hkey => he.other key (hkeys key hkey), names_of_sameField hs, hstandard]
  have hunnamed := unnamed_of_sameField hs name name' standard
  rw [finish?, hstandard']
  cases isChoice with
  | false => exact ⟨_, rfl, hunnamed.1⟩
  | true => exact ⟨_, rfl, hunnamed.2⟩

/-- A list with such elements, and with the size bounds of the node. -/
theorem sequenceOf?_expanded (he : Json.Expanded full node node') (hk : node.kind? = some .sequenceOf)
    (helement : ∀ inner, node.under? "element" = some inner → Kept refs refs' full inner) {name : String} {type : Descriptor}
    (h : ofKind? refs name node .sequenceOf = some type) (name' : String) :
    ∃ type', ofKind? refs' name' node' .sequenceOf = some type' ∧ type'.unnamed = type.unnamed := by
  obtain ⟨⟨size, extensible⟩, hb, h⟩ := Option.bind_eq_some_iff.mp h
  obtain ⟨element, hfound, h⟩ := Option.bind_eq_some_iff.mp h
  obtain ⟨inner, hinner, htype⟩ := Option.bind_eq_some_iff.mp hfound
  cases h
  obtain ⟨element', htype', hunnamed⟩ := helement inner hinner "" element htype ""
  have hkeys : ∀ key ∈ ["min", "max", "extensible"], key ∉ ["element", "fields", "variants"] := by decide
  refine ⟨.sequenceOf name' element' size extensible, ?_, ?_⟩
  · rw [ofKind?, bounds?_congr (fun key hkey => he.other key (hkeys key hkey)) true, hb, he.element hk, hinner,
      Option.map_some, Option.bind_some, htype']
    rfl
  · rw [Descriptor.unnamed, Descriptor.unnamed, hunnamed]

/-- A node spells the same type with its references replaced, apart from names, if what they are replaced by does. -/
theorem type?_expandWith (hfull : ∀ target type, refs target = some type → ∀ name',
      ∃ type', type? refs' name' (full target) = some type' ∧ type'.unnamed = type.unnamed) (node : Json) :
    Kept refs refs' full node := by
  induction node using Json.nodeInduction with
  | step node hunder hitems =>
    intro name type htype name'
    cases hr : node.reference? with
    | some target =>
      rw [type?_of_reference hr] at htype
      rw [Json.expandWith_of_reference hr]
      exact hfull target type htype name'
    | none =>
      have he : Json.Expanded full node (Json.expandWith full node) := Json.expanded_of_kind hr
      have hr' : (Json.expandWith full node).reference? = none := by
        rw [Json.reference?, he.other "ref" (by decide)]
        exact hr
      have hk' : (Json.expandWith full node).kind? = node.kind? := by
        rw [Json.kind?, he.other "kind" (by decide)]
        rfl
      rw [type?_of_kind hr] at htype
      rw [type?_of_kind hr', hk']
      obtain ⟨kind, hk, htype⟩ := Option.bind_eq_some_iff.mp htype
      rw [hk, Option.bind_some]
      by_cases hsequence : kind = .sequence
      · subst hsequence
        obtain ⟨fields, hfields, hfinish⟩ := Option.bind_eq_some_iff.mp htype
        obtain ⟨items, hi, hfields⟩ := Option.bind_eq_some_iff.mp hfields
        obtain ⟨fields', hfields', hsame⟩ := fields?_expandItem (hitems _ items hi) hfields
        rw [ofKind?, he.fields hk, hi, Option.map_some, Option.bind_some, hfields', Option.bind_some]
        exact finish?_expanded he hsame hfinish name'
      by_cases hchoice : kind = .choice
      · subst hchoice
        obtain ⟨fields, hfields, hfinish⟩ := Option.bind_eq_some_iff.mp htype
        obtain ⟨items, hi, hfields⟩ := Option.bind_eq_some_iff.mp hfields
        split at hfields
        · cases hfields
        · rename_i hne
          obtain ⟨fields', hfields', hsame⟩ := fields?_expandItem (hitems _ items hi) hfields
          have hne' : ¬(items.map (Json.expandItem full)).isEmpty = true := by rwa [List.isEmpty_map]
          rw [ofKind?, he.variants hk, hi, Option.map_some, Option.bind_some, if_neg hne', hfields', Option.bind_some]
          exact finish?_expanded he hsame hfinish name'
      by_cases hlist : kind = .sequenceOf
      · subst hlist
        exact sequenceOf?_expanded he hk (hunder _) htype name'
      · have hplain : kind ≠ .sequence ∧ kind ≠ .choice ∧ kind ≠ .sequenceOf := ⟨hsequence, hchoice, hlist⟩
        rw [Json.expandWith_of_plain hr hk hplain, ofKind?_plain hplain refs refs' name name' node, htype]
        exact ⟨_, rfl, Descriptor.unnamed_rename name' type⟩

/-! ## Expanded definitions -/

variable {types : List (String × Json)}

/-- A definition spells the same type without its references, apart from names, whatever references would stand for. -/
theorem expand_spells {bound : Nat} {name : String} {type : Descriptor} (h : named? types bound name = some type)
    (refs' : Refs) (name' : String) :
    ∃ type', type? refs' name' (Json.expand types bound name) = some type' ∧ type'.unnamed = type.unnamed := by
  induction bound generalizing name type name' with
  | zero => cases h
  | succ bound ih =>
    obtain ⟨node, hnode, htype⟩ := Option.bind_eq_some_iff.mp h
    rw [Json.expand, hnode]
    exact type?_expandWith (fun target type ht name' => ih ht name') node name type htype name'

/-- The expansion is the same wherever chains of references may be long enough. -/
theorem expand_succ {bound : Nat} {name : String} (h : (named? types bound name).isSome = true) :
    Json.expand types (bound + 1) name = Json.expand types bound name := by
  induction bound generalizing name with
  | zero => cases h
  | succ bound ih =>
    obtain ⟨node, hnode, -⟩ := isSome_named?_succ_iff.mp h
    simp only [Json.expand, hnode]
    exact Json.expandWith_congr node fun inner target hw hr => ih (isSome_named?_of_mentions ⟨node, inner, hnode, hw, hr⟩ h)

/-- The expanded definition of a name is its definition with all references replaced by the expanded definitions of what they
refer to. -/
theorem expanded_eq {name : String} {node : Json} (hnode : Json.member? name types = some node)
    (h : (named? types types.length name).isSome = true) :
    Json.expanded types name = Json.expandWith (Json.expanded types) node := by
  rw [Json.expanded, ← expand_succ h, Json.expand, hnode]
  rfl

/-- An expanded definition has no references. -/
theorem reference?_expanded {name : String} (h : (named? types types.length name).isSome = true) {inner : Json}
    (hw : (Json.expanded types name).Within inner) : inner.reference? = none := by
  obtain ⟨type, ht⟩ := Option.isSome_iff_exists.mp h
  obtain ⟨type', ht', -⟩ := expand_spells ht (fun _ => none) name
  have hsome : (type? (fun _ => none) name (Json.expanded types name)).isSome = true := Option.isSome_iff_exists.mpr ⟨_, ht'⟩
  refine Option.eq_none_iff_forall_ne_some.mpr fun target hr => ?_
  cases (isSome_type?_iff_within.mp hsome inner hw).2 target hr

/-! ## Aliases -/

/-- A definition that is a reference has the type that it refers to. -/
theorem named?_of_refersTo {bound : Nat} {other name : String} (h : Json.RefersTo types other name) :
    named? types (bound + 1) other = named? types bound name := by
  obtain ⟨node, hnode, hr⟩ := Option.bind_eq_some_iff.mp h
  rw [named?, hnode, Option.bind_some, type?_of_reference hr]

/-- The same over any number of such definitions. -/
theorem named?_of_alias {bound : Nat} {other name : String} (h : Relation.ReflTransGen (Json.RefersTo types) other name)
    {type : Descriptor} (ht : named? types bound other = some type) : named? types bound name = some type := by
  induction h with
  | refl => exact ht
  | tail _ hr ih =>
    rw [← named?_of_refersTo hr]
    exact named?_extends types bound _ type ih

end Spelling

namespace Schema

/-- A document with one definition. -/
def single (name : String) (node : Json) : Json :=
  .obj [("types", .obj [(name, node)])]

/-- A document with one definition is a schema of the type that it spells. -/
theorem parse_single {name : String} {node : Json} {type : Descriptor}
    (h : Spelling.type? (Spelling.named? [(name, node)] 0) name node = some type) (file : String) :
    (parse file (single name node)).1 = .ok ⟨[type.rename name]⟩ := by
  refine parse_eq_ok_iff.mpr ⟨[(name, node)], rfl, ?_⟩
  have hnamed : Spelling.named? [(name, node)] 1 name = some type := by
    rw [Spelling.named?, Json.member?_cons, if_pos rfl]
    exact h
  show Spelling.all? (Spelling.named? [(name, node)] 1) [name] = _
  rw [Spelling.all?_cons, hnamed]
  rfl

/-- References are transparent. In a schema document that is accepted, every name has an expanded definition.
1. It is the definition with each reference replaced by the expanded definition that it refers to.
2. There are no references in it.
3. It is a schema document on its own, and spells the type of the name, apart from names of types.
4. With this type, and with the type of any alias of the name, the same values are read from the same input, and the same
   values give the same bits, or the same fault but for the words for the type. -/
theorem references_transparent {file : String} {document : Json} {schema : Schema}
    (h : (Schema.parse file document).1 = .ok schema) :
    ∃ types, document.definitions? = some types ∧ ∀ name node, Json.member? name types = some node →
      Json.expanded types name = Json.expandWith (Json.expanded types) node ∧
      (∀ inner, (Json.expanded types name).Within inner → inner.reference? = none) ∧
      ∃ type full, schema.lookup? name = some type ∧
        (∀ file', (Schema.parse file' (single name (Json.expanded types name))).1 = .ok ⟨[full]⟩) ∧
        full.unnamed = type.unnamed ∧
        ∀ other, other = full ∨
            (∃ name', Relation.ReflTransGen (Json.RefersTo types) name' name ∧ schema.lookup? name' = some other) →
          (∀ settings data length, decode settings other data length = decode settings type data length) ∧
          ∀ settings value, blurEncoding (encode settings other value) = blurEncoding (encode settings type value) := by
  obtain ⟨types, hdef, hall⟩ := parse_eq_ok_iff.mp h
  refine ⟨types, hdef, fun name node hnode => ?_⟩
  have hsome : (Spelling.named? types types.length name).isSome = true :=
    Spelling.isSome_all?_iff.mp (Option.isSome_iff_exists.mpr ⟨_, hall⟩) name
      (Json.isSome_member?_iff.mp (Option.isSome_iff_exists.mpr ⟨node, hnode⟩))
  obtain ⟨type, htype⟩ := Option.isSome_iff_exists.mp hsome
  obtain ⟨full, hfull, hunnamed⟩ :=
    Spelling.expand_spells htype (Spelling.named? [(name, Json.expanded types name)] 0) name
  have hname : (full.rename name).unnamed = (type.rename name).unnamed := by simp only [Descriptor.unnamed_rename, hunnamed]
  refine ⟨Spelling.expanded_eq hnode hsome, fun inner hw => Spelling.reference?_expanded hsome hw, type.rename name,
    full.rename name, by rw [lookup?_eq hall, htype]; rfl, parse_single hfull, hname, fun other hother => ?_⟩
  have hsame : other.unnamed = (type.rename name).unnamed := by
    rcases hother with rfl | ⟨name', hrefers, hlookup⟩
    · exact hname
    · rw [lookup?_eq hall] at hlookup
      obtain ⟨type', htype', rfl⟩ := Option.map_eq_some_iff.mp hlookup
      cases htype.symm.trans (Spelling.named?_of_alias hrefers htype')
      simp only [Descriptor.unnamed_rename]
  exact ⟨decode_unnamed hsame, encode_unnamed hsame⟩

/-- The definitions of a route between two stops, where a stop is a place under another name. -/
def route : List (String × Json) :=
  [("Place", .obj [("kind", .str "integer"), ("max", .int 99), ("min", .int 0)]),
    ("Route", .obj [("fields", .arr [
        .obj [("name", .str "from"), ("type", .obj [("ref", .str "Place")])],
        .obj [("name", .str "to"), ("type", .obj [("ref", .str "Stop")])]]), ("kind", .str "sequence")]),
    ("Stop", .obj [("ref", .str "Place")])]

/-- The types of places, routes and stops. -/
def routeTypes : List Descriptor :=
  let place := Descriptor.simple "Place" (.integer ⟨some 0, some 99⟩) false
  [place, .sequence "Route" [⟨"from", false, place⟩, ⟨"to", false, place⟩] none, place.rename "Stop"]

/-- A place is read alike as what it is and as a stop, and a route has no references when it is expanded. -/
theorem references_transparent_route : (parse "" (.obj [("types", .obj route)])).1 = .ok ⟨routeTypes⟩ ∧
    (∀ inner, (Json.expanded route "Route").Within inner → inner.reference? = none) ∧
    ∃ place stop, lookup? ⟨routeTypes⟩ "Place" = some place ∧ lookup? ⟨routeTypes⟩ "Stop" = some stop ∧
      ∀ settings data length, decode settings stop data length = decode settings place data length := by
  have hs : (parse "" (.obj [("types", .obj route)])).1 = .ok ⟨routeTypes⟩ := by cbv
  obtain ⟨types, hdef, hall⟩ := references_transparent hs
  cases hdef
  obtain ⟨-, hfree, -⟩ := hall "Route" _ rfl
  obtain ⟨-, -, place, full, hplace, -, -, hother⟩ := hall "Place" _ rfl
  have hstop : lookup? ⟨routeTypes⟩ "Stop" = some (place.rename "Stop") := by
    cases hplace
    rfl
  refine ⟨hs, hfree, place, _, hplace, hstop, ?_⟩
  exact (hother _ (.inr ⟨"Stop", .single rfl, hstop⟩)).1

end Schema

end UnalignedPer
