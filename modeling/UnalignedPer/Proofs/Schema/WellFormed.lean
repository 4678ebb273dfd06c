import UnalignedPer.Proofs.Schema.SpellingSound

/-!
# Well-formed types

The codec takes the counts and the bounds of a type as they are. `Descriptor.WellFormed` says what it relies on. Where the
extension marker of a type stands is said in the document, and `Descriptor.MarkedBy` compares the two. A type that a node spells
itself is well formed, and its marker stands where the node puts it (`Spelling.wellFormed_of_type?`).
-/

namespace UnalignedPer

namespace Descriptor

/-- The names of the items, the fields or the alternatives of a type. -/
def memberNames (type : Descriptor) : List String :=
  type.items ++ type.fields.map (·.name)

/-- The types that a type is put together from. -/
def partTypes (type : Descriptor) : List Descriptor :=
  type.fields.map (·.type) ++ type.element?.toList

/-- A type is another one or lies in it at any depth. -/
abbrev Holds (type inner : Descriptor) : Prop :=
  Relation.ReflTransGen (fun outer inner => inner ∈ outer.partTypes) type inner

/-- A type is as the codec relies on, apart from the types in it. The reading of a schema earns `ordered`, `nonneg`, `names_ne`,
`names_nodup` and `nonempty`: there are types without them. The rest holds of every type: `count_eq`, `standardCount_le` and
`optionalFields_eq` because `Descriptor.constraint` computes the counts from the members, and `mandatory` and `element` because
an alternative has no place for a flag and a list type none to leave its element out. -/
structure WellFormed (type : Descriptor) : Prop where
  /-- The lower bound does not exceed the upper one. -/
  ordered : type.constraint.bounds.Ordered
  /-- The bounds of a size are not negative. -/
  nonneg : type.kind ≠ .integer → ∀ bound, type.constraint.bounds.lower = some bound ∨ type.constraint.bounds.upper = some bound →
    0 ≤ bound
  /-- The members are counted. -/
  count_eq : type.constraint.count = type.memberNames.length
  /-- The members before the marker are members. -/
  standardCount_le : type.constraint.standardCount ≤ type.constraint.count
  /-- The optional fields before the marker are counted. -/
  optionalFields_eq : type.constraint.optionalFields =
    (type.fields.take type.constraint.standardCount).countP (·.optional)
  /-- No name is empty. -/
  names_ne : "" ∉ type.memberNames
  /-- No name is used twice. -/
  names_nodup : type.memberNames.Nodup
  /-- There is something to choose from. -/
  nonempty : type.kind = .enumerated ∨ type.kind = .choice → type.memberNames ≠ []
  /-- An alternative is not optional. -/
  mandatory : type.kind = .choice → ∀ field ∈ type.fields, field.optional = false
  /-- A list type has an element type. -/
  element : type.kind = .sequenceOf → type.element?.isSome = true

/-- The extension marker of a type stands where its node puts it: behind the member that is named there, and behind all members
where none is named. -/
structure MarkedBy (node : Json) (type : Descriptor) : Prop where
  /-- No member is named. -/
  last : node.under? "extensionAfter" = none → type.constraint.standardCount = type.constraint.count
  /-- A member is named. -/
  behind : type.kind = .enumerated ∨ type.kind = .sequence ∨ type.kind = .choice → ∀ after,
    node.under? "extensionAfter" = some after →
      ∃ index name, type.memberNames[index]? = some name ∧ after = .str name ∧ type.constraint.standardCount = index + 1

/-- A type with another name has the same members. -/
@[simp] theorem memberNames_rename (name : String) (type : Descriptor) : (type.rename name).memberNames = type.memberNames := by
  rw [memberNames, items_rename, fields_rename, memberNames]

/-- What holds of all types in a type holds in every place. -/
theorem everywhere_of_holds {p : Descriptor → Bool} {type : Descriptor} (h : ∀ inner, type.Holds inner → p inner = true) :
    type.everywhere p = true := by
  induction type using Descriptor.induction with
  | simple name plain extensible => exact h _ .refl
  | enumerated name items standard => exact h _ .refl
  | sequence name fields standard ih =>
    refine everywhere_sequence.mpr ⟨h _ .refl, fun field hm => ?_⟩
    have hmem : field.type ∈ (sequence name fields standard).partTypes :=
      List.mem_append_left _ (List.mem_map_of_mem hm)
    exact ih field hm fun inner hholds => h inner (.head hmem hholds)
  | sequenceOf name element size extensible ih =>
    have hmem : element ∈ (sequenceOf name element size extensible).partTypes := List.mem_singleton.mpr rfl
    exact everywhere_sequenceOf.mpr ⟨h _ .refl, ih fun inner hholds => h inner (.head hmem hholds)⟩
  | choice name alternatives standard ih =>
    refine everywhere_choice.mpr ⟨h _ .refl, fun alternative hm => ?_⟩
    have hmem : alternative.2 ∈ (choice name alternatives standard).partTypes := by
      refine List.mem_append_left _ (List.mem_map.mpr ⟨⟨alternative.1, false, alternative.2⟩, ?_, rfl⟩)
      exact List.mem_map_of_mem hm
    exact ih alternative hm fun inner hholds => h inner (.head hmem hholds)

/-- A well-formed type is sound. -/
theorem WellFormed.sound {type : Descriptor} (h : type.WellFormed) : type.sound = true := by
  have hnames := List.nodup_append.mp h.names_nodup
  exact (sound_iff type).mpr ⟨h.ordered, hnames.1, hnames.2.1⟩

/-- Under another name a well-formed type is well formed. -/
theorem WellFormed.rename {type : Descriptor} (h : type.WellFormed) (name : String) : (type.rename name).WellFormed := by
  constructor <;> simp only [constraint_rename, kind_rename, memberNames_rename, fields_rename, element?_rename]
  · exact h.ordered
  · exact h.nonneg
  · exact h.count_eq
  · exact h.standardCount_le
  · exact h.optionalFields_eq
  · exact h.names_ne
  · exact h.names_nodup
  · exact h.nonempty
  · exact h.mandatory
  · exact h.element

/-- Under another name the marker of a type stands where it stood. -/
theorem MarkedBy.rename {type : Descriptor} {node : Json} (h : type.MarkedBy node) (name : String) :
    (type.rename name).MarkedBy node := by
  constructor <;> simp only [constraint_rename, kind_rename, memberNames_rename]
  · exact h.last
  · exact h.behind

/-- Only sequences and choices have fields. -/
theorem fields_of_kind {type : Descriptor} (hs : type.kind ≠ .sequence) (hc : type.kind ≠ .choice) : type.fields = [] := by
  cases type with
  | sequence => exact absurd rfl hs
  | choice => exact absurd rfl hc
  | simple | enumerated | sequenceOf => rfl

/-- Only list types have an element type. -/
theorem element?_of_kind {type : Descriptor} (h : type.kind ≠ .sequenceOf) : type.element? = none := by
  cases type with
  | sequenceOf => exact absurd rfl h
  | simple | enumerated | sequence | choice => rfl

/-- The marker is within the members. -/
theorem standardCount_le (c : Constraint) : c.standardCount ≤ c.count := by
  unfold Constraint.standardCount
  split
  · exact Nat.min_le_right _ _
  · exact Nat.le_refl _

/-- What bounds a size is ordered and not negative. -/
def SizeBounds (bounds : Bounds Int64) : Prop :=
  bounds.Ordered ∧ ∀ bound, bounds.lower = some bound ∨ bounds.upper = some bound → 0 ≤ bound

/-- A type without parts is well formed if its bounds are ordered, and not negative where they bound a size. -/
theorem wellFormed_simple {name : String} {type : SimpleType} {extensible : Bool} (ho : type.bounds.Ordered)
    (hn : type.kind ≠ .integer → SizeBounds type.bounds) : (simple name type extensible).WellFormed where
  ordered := ho
  nonneg h := (hn h).2
  count_eq := rfl
  standardCount_le := standardCount_le _
  optionalFields_eq := (congrArg (List.countP _) List.take_nil).symm
  names_ne := List.not_mem_nil
  names_nodup := List.nodup_nil
  nonempty h := by cases type <;> rcases h with h | h <;> cases h
  mandatory h := by cases type <;> cases h
  element h := by cases type <;> cases h

/-- A list type is well formed if its bounds are ordered and not negative. -/
theorem wellFormed_sequenceOf {name : String} {element : Descriptor} {size : Bounds Int64} {extensible : Bool}
    (h : SizeBounds size) : (sequenceOf name element size extensible).WellFormed where
  ordered := h.1
  nonneg _ := h.2
  count_eq := rfl
  standardCount_le := standardCount_le _
  optionalFields_eq := (congrArg (List.countP _) List.take_nil).symm
  names_ne := List.not_mem_nil
  names_nodup := List.nodup_nil
  nonempty h := by rcases h with h | h <;> cases h
  mandatory h := by cases h
  element _ := rfl

/-- The members of an enumeration are its items. -/
theorem memberNames_enumerated (name : String) (items : List String) (standard : Option Nat) :
    (enumerated name items standard).memberNames = items :=
  List.append_nil _

/-- An enumeration is well formed if it has items, each with a name, and the names differ. -/
theorem wellFormed_enumerated {name : String} {items : List String} {standard : Option Nat} (hne : items ≠ [])
    (hempty : "" ∉ items) (hnodup : items.Nodup) : (enumerated name items standard).WellFormed where
  ordered := Bounds.ordered_free
  nonneg _ bound h := by rcases h with h | h <;> cases h
  count_eq := (congrArg List.length (memberNames_enumerated name items standard)).symm
  standardCount_le := standardCount_le _
  optionalFields_eq := (congrArg (List.countP _) List.take_nil).symm
  names_ne := by rwa [memberNames_enumerated]
  names_nodup := by rwa [memberNames_enumerated]
  nonempty _ := by rwa [memberNames_enumerated]
  mandatory h := by cases h
  element h := by cases h

/-- A sequence is well formed if each field has a name and the names differ. -/
theorem wellFormed_sequence {name : String} {fields : List (Field Descriptor)} {standard : Option Nat}
    (hempty : "" ∉ fields.map (·.name)) (hnodup : (fields.map (·.name)).Nodup) : (sequence name fields standard).WellFormed where
  ordered := Bounds.ordered_free
  nonneg _ bound h := by rcases h with h | h <;> cases h
  count_eq := (List.length_map _).symm
  standardCount_le := standardCount_le _
  optionalFields_eq := by rw [optionalFields_sequence, standardCount_sequence]; rfl
  names_ne := hempty
  names_nodup := hnodup
  nonempty h := by rcases h with h | h <;> cases h
  mandatory h := by cases h
  element h := by cases h

/-- The fields of a choice have the names of its alternatives. -/
theorem memberNames_choice (name : String) (fields : List (Field Descriptor)) (standard : Option Nat) :
    (choice name (fields.map fun field => (field.name, field.type)) standard).memberNames = fields.map (·.name) := by
  rw [memberNames, Descriptor.fields, List.map_map, List.map_map]
  rfl

/-- A choice is well formed if it has alternatives, each with a name, and the names differ. -/
theorem wellFormed_choice {name : String} {fields : List (Field Descriptor)} {standard : Option Nat} (hne : fields ≠ [])
    (hempty : "" ∉ fields.map (·.name)) (hnodup : (fields.map (·.name)).Nodup) :
    (choice name (fields.map fun field => (field.name, field.type)) standard).WellFormed where
  ordered := Bounds.ordered_free
  nonneg _ bound h := by rcases h with h | h <;> cases h
  count_eq := by rw [memberNames_choice, List.length_map]; exact List.length_map _
  standardCount_le := standardCount_le _
  optionalFields_eq := by
    refine (List.countP_eq_zero.mpr fun field hm => ?_).symm
    obtain ⟨alternative, -, rfl⟩ := List.mem_map.mp (List.mem_of_mem_take hm)
    exact Bool.false_ne_true
  names_ne := by rwa [memberNames_choice]
  names_nodup := by rwa [memberNames_choice]
  nonempty _ := by rwa [memberNames_choice, ne_eq, List.map_eq_nil_iff]
  mandatory _ field hm := by
    obtain ⟨alternative, -, rfl⟩ := List.mem_map.mp hm
    rfl
  element h := by cases h

/-! ## Types without members have no place for a marker among them -/

/-- A type without parts has no members to put a marker behind. -/
theorem markedBy_simple (name : String) (type : SimpleType) (extensible : Bool) (node : Json) :
    (simple name type extensible).MarkedBy node where
  last _ := by cases extensible <;> rfl
  behind h := by cases type <;> rcases h with h | h | h <;> cases h

/-- A list type has no members to put a marker behind. -/
theorem markedBy_sequenceOf (name : String) (element : Descriptor) (size : Bounds Int64) (extensible : Bool) (node : Json) :
    (sequenceOf name element size extensible).MarkedBy node where
  last _ := by cases extensible <;> rfl
  behind h := by rcases h with h | h | h <;> cases h

end Descriptor

namespace Spelling

variable {node : Json}

/-- Where the marker stands, from what a node says of it. -/
theorem standard?_eq_some {names : List String} {standard : Option Nat} (h : standard? names node = some standard) :
    (node.under? "extensionAfter" = none → Descriptor.rootCount standard names.length = names.length) ∧
      ∀ after, node.under? "extensionAfter" = some after → ∃ index name, names[index]? = some name ∧ after = .str name ∧
        Descriptor.rootCount standard names.length = index + 1 := by
  obtain ⟨extensible, -, h⟩ := Option.bind_eq_some_iff.mp h
  cases ha : node.under? "extensionAfter" with
  | none =>
    rw [ha] at h
    refine ⟨fun _ => ?_, fun _ hafter => by cases hafter⟩
    cases Option.some.inj h
    cases extensible
    · exact Nat.min_self _
    · exact Nat.min_self _
  | some after =>
    simp only [ha] at h
    split at h
    · cases h
    · obtain ⟨index, hindex, rfl⟩ := Option.map_eq_some_iff.mp h
      obtain ⟨name, hname, hindex⟩ := Option.bind_eq_some_iff.mp hindex
      refine ⟨fun hnone => (by cases hnone), ?_⟩
      rintro _ ⟨⟩
      obtain ⟨hlt, hget, -⟩ := List.idxOf?_eq_some_iff.mp hindex
      refine ⟨index, name, ?_, ?_, Nat.min_eq_left hlt⟩
      · rw [List.getElem?_eq_getElem hlt]
        exact congrArg some hget
      · cases after
        case str text => exact congrArg Json.str (Option.some.inj hname)
        all_goals cases hname

/-- The marker of a type stands where its node puts it. -/
theorem markedBy_of_standard? {type : Descriptor} {standard : Option Nat} (h : standard? type.memberNames node = some standard)
    (hmembers : type.constraint.members = .ofStandard type.memberNames.length standard)
    (hextensible : type.constraint.extensible = standard.isSome) : type.MarkedBy node := by
  have hcount : type.constraint.count = type.memberNames.length := congrArg Members.count hmembers
  have hstandard := Descriptor.standardCount_eq hmembers hextensible
  obtain ⟨hlast, hbehind⟩ := standard?_eq_some h
  exact ⟨fun hnone => (hstandard.trans (hlast hnone)).trans hcount.symm, fun _ after ha => by
    rw [hstandard]
    exact hbehind after ha⟩

/-- What a node spells as the bounds of a size is ordered and not negative. -/
theorem sizeBounds_of_bounds? {bounds : Bounds Int64} {extensible : Bool} (h : bounds? true node = some (bounds, extensible)) :
    Descriptor.SizeBounds bounds := by
  obtain ⟨hl, hu, -, ho⟩ := bounds?_eq_some_iff.mp h
  refine ⟨ho, fun bound hb => ?_⟩
  rcases hb with hb | hb
  · exact bound?_nonneg (hb ▸ hl)
  · exact bound?_nonneg (hb ▸ hu)

/-- The names of fields or alternatives are sound. -/
theorem names_of_fields? {refs : Refs} {isChoice : Bool} {items : List Json} {fields : List (Field Descriptor)}
    (h : fields? refs isChoice [] items = some fields) :
    "" ∉ fields.map (·.name) ∧ (fields.map (·.name)).Nodup ∧ (items ≠ [] → fields ≠ []) := by
  obtain ⟨hall, hnodup, -⟩ := fields?_eq_some_iff.mp h
  refine ⟨fun hm => ?_, hnodup, ?_⟩
  · obtain ⟨field, hf, hname⟩ := List.mem_map.mp hm
    obtain ⟨i, hi, rfl⟩ := List.getElem_of_mem hf
    exact ((List.forall₂_iff_get.mp hall).2 i (hall.length_eq ▸ hi) hi).name_ne hname
  · rintro hne rfl
    cases hall
    exact hne rfl

/-- A type that a node spells itself is well formed, and its marker stands where the node puts it. -/
theorem wellFormed_of_type? {refs : Refs} {name : String} {type : Descriptor} (hr : node.reference? = none)
    (h : type? refs name node = some type) : type.WellFormed ∧ type.MarkedBy node := by
  rw [type?_of_kind hr] at h
  obtain ⟨kind, hk, h⟩ := Option.bind_eq_some_iff.mp h
  cases kind
  case null | boolean =>
    cases h
    exact ⟨Descriptor.wellFormed_simple Bounds.ordered_free fun _ => ⟨Bounds.ordered_free, by rintro _ (⟨⟨⟩⟩ | ⟨⟨⟩⟩)⟩,
      Descriptor.markedBy_simple ..⟩
  case enumerated =>
    obtain ⟨raw, -, h⟩ := Option.bind_eq_some_iff.mp h
    split at h
    · cases h
    · rename_i hne
      obtain ⟨items, hitems, h⟩ := Option.bind_eq_some_iff.mp h
      obtain ⟨standard, hs, h⟩ := Option.bind_eq_some_iff.mp h
      cases h
      obtain ⟨rfl, hempty, hnodup, -⟩ := items?_eq_some_iff.mp hitems
      have hnames := Descriptor.memberNames_enumerated name items standard
      refine ⟨Descriptor.wellFormed_enumerated ?_ hempty hnodup, markedBy_of_standard? (hnames.symm ▸ hs) ?_ rfl⟩
      · rintro rfl
        exact hne rfl
      · rw [hnames]
        rfl
  case sequence =>
    obtain ⟨fields, hf, h⟩ := Option.bind_eq_some_iff.mp h
    obtain ⟨items, -, hf⟩ := Option.bind_eq_some_iff.mp hf
    obtain ⟨standard, hs, rfl⟩ := Option.map_eq_some_iff.mp h
    obtain ⟨hempty, hnodup, -⟩ := names_of_fields? hf
    refine ⟨Descriptor.wellFormed_sequence hempty hnodup, markedBy_of_standard? hs ?_ rfl⟩
    show Members.ofStandard fields.length standard = .ofStandard (fields.map (·.name)).length standard
    rw [List.length_map]
  case choice =>
    obtain ⟨fields, hf, h⟩ := Option.bind_eq_some_iff.mp h
    obtain ⟨items, -, hf⟩ := Option.bind_eq_some_iff.mp hf
    split at hf
    · cases hf
    · rename_i hne
      obtain ⟨standard, hs, rfl⟩ := Option.map_eq_some_iff.mp h
      obtain ⟨hempty, hnodup, hfields⟩ := names_of_fields? hf
      have hnames := Descriptor.memberNames_choice name fields standard
      refine ⟨Descriptor.wellFormed_choice (hfields fun he => hne (he ▸ rfl)) hempty hnodup,
        markedBy_of_standard? (hnames.symm ▸ hs) ?_ rfl⟩
      show Members.ofStandard (fields.map _).length standard = .ofStandard (Descriptor.memberNames (.choice ..)).length standard
      rw [hnames, List.length_map, List.length_map]
  case sequenceOf =>
    obtain ⟨⟨size, extensible⟩, hb, h⟩ := Option.bind_eq_some_iff.mp h
    obtain ⟨element, -, h⟩ := Option.bind_eq_some_iff.mp h
    cases h
    exact ⟨Descriptor.wellFormed_sequenceOf (sizeBounds_of_bounds? hb), Descriptor.markedBy_sequenceOf ..⟩
  case integer =>
    obtain ⟨⟨range, extensible⟩, hb, h⟩ := Option.bind_eq_some_iff.mp h
    cases h
    exact ⟨Descriptor.wellFormed_simple (bounds?_eq_some_iff.mp hb).2.2.2 fun h => absurd rfl h,
      Descriptor.markedBy_simple ..⟩
  case octetString | bitString =>
    obtain ⟨⟨size, extensible⟩, hb, h⟩ := Option.bind_eq_some_iff.mp h
    cases h
    exact ⟨Descriptor.wellFormed_simple (sizeBounds_of_bounds? hb).1 fun _ => sizeBounds_of_bounds? hb,
      Descriptor.markedBy_simple ..⟩
  case text =>
    obtain ⟨⟨size, extensible⟩, hb, h⟩ := Option.bind_eq_some_iff.mp h
    obtain ⟨alphabet, -, h⟩ := Option.bind_eq_some_iff.mp h
    cases h
    exact ⟨Descriptor.wellFormed_simple (sizeBounds_of_bounds? hb).1 fun _ => sizeBounds_of_bounds? hb,
      Descriptor.markedBy_simple ..⟩

end Spelling

end UnalignedPer
