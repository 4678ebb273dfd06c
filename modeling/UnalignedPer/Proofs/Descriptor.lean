import Mathlib.Algebra.Group.Int.Defs
import Mathlib.Algebra.Group.Nat.Defs
import UnalignedPer.Descriptor
import UnalignedPer.Proofs.Bounds

/-!
# Going through a type

A type is a tree whose nodes hold lists of types. `Descriptor.induction` proves a statement of every type from the same
statement of its parts, and `Descriptor.everywhere` says that a property holds of a type and of all types in it.

The members of a type that stand before its extension marker are the first `Descriptor.rootCount` ones, whichever way the
marker is given.
-/

namespace UnalignedPer

namespace Descriptor

/-! ## Other names -/

/-- A type that is given its own name is the same type. -/
theorem rename_name (type : Descriptor) : type.rename type.name = type := by
  cases type <;> rfl

/-- A type has the name that it is given. -/
@[simp] theorem name_rename (name : String) (type : Descriptor) : (type.rename name).name = name := by
  cases type <;> rfl

/-- The name is no part of the constraint. -/
@[simp] theorem constraint_rename (name : String) (type : Descriptor) : (type.rename name).constraint = type.constraint := by
  cases type <;> rfl

/-- The name is no part of the kind. -/
@[simp] theorem kind_rename (name : String) (type : Descriptor) : (type.rename name).kind = type.kind :=
  congrArg Constraint.kind (constraint_rename name type)

/-- A type with another name has the same fields. -/
@[simp] theorem fields_rename (name : String) (type : Descriptor) : (type.rename name).fields = type.fields := by
  cases type <;> rfl

/-- A type with another name has the same items. -/
@[simp] theorem items_rename (name : String) (type : Descriptor) : (type.rename name).items = type.items := by
  cases type <;> rfl

/-- A type with another name has the same element type. -/
@[simp] theorem element?_rename (name : String) (type : Descriptor) : (type.rename name).element? = type.element? := by
  cases type <;> rfl

/-! ## Types in types -/

/-- A statement of every type, from the same statement of the types in it. -/
@[elab_as_elim]
theorem induction {P : Descriptor → Prop}
    (simple : ∀ name plain extensible, P (.simple name plain extensible))
    (enumerated : ∀ name items standard, P (.enumerated name items standard))
    (sequence : ∀ name fields standard, (∀ field ∈ fields, P field.type) → P (.sequence name fields standard))
    (sequenceOf : ∀ name element size extensible, P element → P (.sequenceOf name element size extensible))
    (choice : ∀ name alternatives standard, (∀ alternative ∈ alternatives, P alternative.2) →
      P (.choice name alternatives standard)) :
    ∀ type, P type
  | .simple name plain extensible => simple name plain extensible
  | .enumerated name items standard => enumerated name items standard
  | .sequence name fields standard =>
    sequence name fields standard fun field _ => induction simple enumerated sequence sequenceOf choice field.type
  | .sequenceOf name element size extensible =>
    sequenceOf name element size extensible (induction simple enumerated sequence sequenceOf choice element)
  | .choice name alternatives standard =>
    choice name alternatives standard fun alternative _ =>
      induction simple enumerated sequence sequenceOf choice alternative.2
termination_by type => sizeOf type
decreasing_by
  · rename_i h
    have hs := List.sizeOf_lt_of_mem h
    have hf : sizeOf field.type < sizeOf field := by
      cases field
      simp only [Field.mk.sizeOf_spec]
      omega
    simp only [Descriptor.sequence.sizeOf_spec]
    omega
  · simp only [Descriptor.sequenceOf.sizeOf_spec]
    omega
  · rename_i h
    have hs := List.sizeOf_lt_of_mem h
    have hf : sizeOf alternative.2 < sizeOf alternative := by
      cases alternative
      simp only [Prod.mk.sizeOf_spec]
      omega
    simp only [Descriptor.choice.sizeOf_spec]
    omega

/-! ## Properties of a type and all types in it -/

mutual

/-- Whether a property holds of a type and of all types in it. -/
def everywhere (p : Descriptor → Bool) : Descriptor → Bool
  | .simple name plain extensible => p (.simple name plain extensible)
  | .enumerated name items standard => p (.enumerated name items standard)
  | .sequence name fields standard => p (.sequence name fields standard) && everywhereFields p fields
  | .sequenceOf name element size extensible => p (.sequenceOf name element size extensible) && everywhere p element
  | .choice name alternatives standard => p (.choice name alternatives standard) && everywhereAlternatives p alternatives

/-- Whether a property holds of the types of some fields and of all types in them. -/
def everywhereFields (p : Descriptor → Bool) : List (Field Descriptor) → Bool
  | [] => true
  | ⟨_, _, type⟩ :: fields => everywhere p type && everywhereFields p fields

/-- Whether a property holds of the types of some alternatives and of all types in them. -/
def everywhereAlternatives (p : Descriptor → Bool) : List (String × Descriptor) → Bool
  | [] => true
  | (_, type) :: alternatives => everywhere p type && everywhereAlternatives p alternatives

end

/-- A property holds in all places of some fields if it holds in all places of each. -/
theorem everywhereFields_iff (p : Descriptor → Bool) (fields : List (Field Descriptor)) :
    everywhereFields p fields = true ↔ ∀ field ∈ fields, field.type.everywhere p = true := by
  induction fields with
  | nil => simp [everywhereFields]
  | cons field fields ih => simp [everywhereFields, ih]

/-- A property holds in all places of some alternatives if it holds in all places of each. -/
theorem everywhereAlternatives_iff (p : Descriptor → Bool) (alternatives : List (String × Descriptor)) :
    everywhereAlternatives p alternatives = true ↔ ∀ alternative ∈ alternatives, alternative.2.everywhere p = true := by
  induction alternatives with
  | nil => simp [everywhereAlternatives]
  | cons alternative alternatives ih => simp only [everywhereAlternatives, Bool.and_eq_true, ih, List.forall_mem_cons]

/-- A property holds in all places of a sequence if it holds of the sequence and in all places of its fields. -/
theorem everywhere_sequence {p : Descriptor → Bool} {name : String} {fields : List (Field Descriptor)}
    {standard : Option Nat} :
    (sequence name fields standard).everywhere p = true ↔
      p (.sequence name fields standard) = true ∧ ∀ field ∈ fields, field.type.everywhere p = true := by
  rw [everywhere, Bool.and_eq_true, everywhereFields_iff]

/-- A property holds in all places of a choice if it holds of the choice and in all places of its alternatives. -/
theorem everywhere_choice {p : Descriptor → Bool} {name : String} {alternatives : List (String × Descriptor)}
    {standard : Option Nat} :
    (choice name alternatives standard).everywhere p = true ↔
      p (.choice name alternatives standard) = true ∧
        ∀ alternative ∈ alternatives, alternative.2.everywhere p = true := by
  rw [everywhere, Bool.and_eq_true, everywhereAlternatives_iff]

/-- A property holds in all places of a list type if it holds of the list type and in all places of its element type. -/
theorem everywhere_sequenceOf {p : Descriptor → Bool} {name : String} {element : Descriptor} {size : Bounds Int64}
    {extensible : Bool} :
    (sequenceOf name element size extensible).everywhere p = true ↔
      p (.sequenceOf name element size extensible) = true ∧ element.everywhere p = true := by
  rw [everywhere, Bool.and_eq_true]

/-- The property holds of the type itself. -/
theorem of_everywhere {p : Descriptor → Bool} {type : Descriptor} (h : type.everywhere p = true) : p type = true := by
  cases type with
  | simple name plain extensible => exact h
  | enumerated name items standard => exact h
  | sequence name fields standard => exact (everywhere_sequence.mp h).1
  | sequenceOf name element size extensible => exact (everywhere_sequenceOf.mp h).1
  | choice name alternatives standard => exact (everywhere_choice.mp h).1

/-- What follows from the property follows in every place. -/
theorem everywhere_mono {p q : Descriptor → Bool} (h : ∀ type, p type = true → q type = true) (type : Descriptor) :
    type.everywhere p = true → type.everywhere q = true := by
  induction type using Descriptor.induction with
  | simple name plain extensible => exact h _
  | enumerated name items standard => exact h _
  | sequence name fields standard ih =>
    rw [everywhere_sequence, everywhere_sequence]
    exact fun ⟨hp, hfields⟩ => ⟨h _ hp, fun field hm => ih field hm (hfields field hm)⟩
  | sequenceOf name element size extensible ih =>
    rw [everywhere_sequenceOf, everywhere_sequenceOf]
    exact fun ⟨hp, helement⟩ => ⟨h _ hp, ih helement⟩
  | choice name alternatives standard ih =>
    rw [everywhere_choice, everywhere_choice]
    exact fun ⟨hp, halternatives⟩ => ⟨h _ hp, fun alternative hm => ih alternative hm (halternatives alternative hm)⟩

/-- Whether the members of a type can be counted in a word, as every list that fits into a memory can. -/
def countable (type : Descriptor) : Bool :=
  type.constraint.count < 2 ^ 64

/-- Whether the lower bound of a number or a size does not exceed the upper one. -/
def ordered (type : Descriptor) : Bool :=
  type.constraint.bounds.lower.all fun lower => type.constraint.bounds.upper.all fun upper => decide (lower ≤ upper)

/-- Whether a number that has a greatest value has a least one as well, or may lie outside of its bounds. -/
def floored : Descriptor → Bool
  | simple _ (.integer range) extensible => extensible || range.lower.isSome || range.upper.isNone
  | _ => true

/-- Whether the items, the fields or the alternatives of a type have names of their own. -/
def distinct (type : Descriptor) : Bool :=
  type.items.Nodup && (type.fields.map (·.name)).Nodup

/-- Whether a type is as every type of a schema is. -/
def sound (type : Descriptor) : Bool :=
  type.ordered && type.distinct

/-- The bounds of an ordered type are ordered. -/
theorem ordered_iff (type : Descriptor) : type.ordered = true ↔ type.constraint.bounds.Ordered := by
  simp only [ordered, Option.all_eq_true, decide_eq_true_eq, Bounds.Ordered]
  exact ⟨fun h lower upper hl hu => h lower hl upper hu, fun h lower hl upper hu => h lower upper hl hu⟩

/-- The names in a type differ if no item and no field has the name of another. -/
theorem distinct_iff (type : Descriptor) :
    type.distinct = true ↔ type.items.Nodup ∧ (type.fields.map (·.name)).Nodup := by
  rw [distinct, Bool.and_eq_true, decide_eq_true_eq, decide_eq_true_eq]

/-- A type is sound if its bounds do not cross and its names differ. -/
theorem sound_iff (type : Descriptor) :
    type.sound = true ↔ type.constraint.bounds.Ordered ∧ type.items.Nodup ∧ (type.fields.map (·.name)).Nodup := by
  rw [sound, Bool.and_eq_true, ordered_iff, distinct_iff]

/-- The size bounds of an ordered type are ordered. -/
theorem size_ordered {type : Descriptor} (h : type.ordered = true) : type.constraint.size.Ordered := by
  refine ((ordered_iff type).mp h).map fun x y hxy => ?_
  unfold Constraint.sizeBound
  have := Int64.le_iff_toInt_le.mp hxy
  omega

/-! ## Members before the marker -/

/-- The number of members before the extension marker; all of them where there is no marker. -/
def rootCount (standard : Option Nat) (count : Nat) : Nat :=
  min (standard.getD count) count

/-- There are no more members before the marker than members. -/
theorem rootCount_le (standard : Option Nat) (count : Nat) : rootCount standard count ≤ count :=
  Nat.min_le_right _ _

/-- Without a marker all members are before it. -/
theorem rootCount_none (count : Nat) : rootCount none count = count :=
  Nat.min_self count

/-- A marker within the members has as many before it as it says. -/
theorem rootCount_some {standard count : Nat} (h : standard ≤ count) : rootCount (some standard) count = standard :=
  Nat.min_eq_left h

/-- The members before the marker, counted from the members of a constraint. -/
theorem standardCount_eq {c : Constraint} {count : Nat} {standard : Option Nat}
    (hm : c.members = .ofStandard count standard) (he : c.extensible = standard.isSome) :
    c.standardCount = rootCount standard count := by
  simp only [Constraint.standardCount, Constraint.count, hm, he, Members.ofStandard, rootCount]
  cases standard with
  | none => rw [if_neg (by simp), Option.getD_none, Nat.min_self]
  | some n =>
    rw [if_pos Option.isSome_some, Option.getD_some]
    cases n with
    | zero => rfl
    | succ n => rfl

/-- The fields of a sequence before the marker are counted in its constraint. -/
theorem standardCount_sequence (name : String) (fields : List (Field Descriptor)) (standard : Option Nat) :
    (sequence name fields standard).constraint.standardCount = rootCount standard fields.length :=
  standardCount_eq rfl rfl

/-- The fields after the marker. -/
theorem extensionCount_sequence (name : String) (fields : List (Field Descriptor)) (standard : Option Nat) :
    (sequence name fields standard).constraint.extensionCount = fields.length - rootCount standard fields.length := by
  rw [Constraint.extensionCount, standardCount_sequence]
  rfl

/-- The optional fields before the marker. -/
theorem optionalFields_sequence (name : String) (fields : List (Field Descriptor)) (standard : Option Nat) :
    (sequence name fields standard).constraint.optionalFields =
      (fields.take (rootCount standard fields.length)).countP (·.optional) := by
  have h : (sequence name fields standard).constraint.optionalFields = optionalCount fields standard := rfl
  rw [h]
  unfold optionalCount
  cases standard with
  | none => rw [rootCount_none, List.take_length]
  | some n =>
    simp only [rootCount, Option.getD_some]
    rw [← List.take_eq_take_min]

/-- The fields of a sequence before the extension marker and after it. -/
structure Halves (name : String) (fields : List (Field Descriptor)) (standard : Option Nat)
    (root extensions : List (Field Descriptor)) : Prop where
  /-- The fields in order. -/
  all : fields = root ++ extensions
  /-- The number of fields before the marker. -/
  standardCount : (sequence name fields standard).constraint.standardCount = root.length
  /-- The number of fields after the marker. -/
  extensionCount : (sequence name fields standard).constraint.extensionCount = extensions.length
  /-- The number of optional fields before the marker. -/
  optionalFields : (sequence name fields standard).constraint.optionalFields = root.countP (·.optional)
  /-- Without a marker nothing stands after it. -/
  closed : standard = none → extensions = []

/-- The fields of a sequence are cut at the marker. -/
theorem halves (name : String) (fields : List (Field Descriptor)) (standard : Option Nat) :
    Halves name fields standard (fields.take (rootCount standard fields.length))
      (fields.drop (rootCount standard fields.length)) where
  all := (List.take_append_drop _ _).symm
  standardCount := by
    rw [standardCount_sequence, List.length_take_of_le (rootCount_le _ _)]
  extensionCount := by
    rw [extensionCount_sequence, List.length_drop]
  optionalFields := optionalFields_sequence name fields standard
  closed h := by
    rw [h, rootCount_none, List.drop_length]

/-- What belongs to the fields of a sequence, one to each, is divided as they are. -/
theorem Halves.exists_entries {name : String} {fields root extensions : List (Field Descriptor)} {standard : Option Nat}
    (hv : Halves name fields standard root extensions) {α : Type} {entries : List α}
    (hlen : entries.length = fields.length) :
    ∃ given added, entries = given ++ added ∧ given.length = root.length ∧ added.length = extensions.length := by
  have hfields : fields.length = root.length + extensions.length := by rw [hv.all, List.length_append]
  refine ⟨entries.take root.length, entries.drop root.length, ?_, ?_, ?_⟩
  · exact (List.take_append_drop root.length entries).symm
  · exact List.length_take_of_le (by omega)
  · rw [List.length_drop]
    omega

/-- Entries of all fields of a sequence are entries of those before the marker and of those behind it. -/
theorem exists_halves (name : String) {fields : List (Field Descriptor)} (standard : Option Nat) {α : Type} {entries : List α}
    (hlen : entries.length = fields.length) :
    ∃ root extensions given added, Halves name fields standard root extensions ∧ entries = given ++ added ∧
      given.length = root.length ∧ added.length = extensions.length := by
  have hv := halves name fields standard
  obtain ⟨given, added, h⟩ := hv.exists_entries hlen
  exact ⟨_, _, given, added, hv, h⟩

/-- Fields that are added at the end are added after the marker. -/
theorem exists_halves_append (name name' : String) {fields : List (Field Descriptor)} (more : List (Field Descriptor))
    {standard : Nat} (hs : standard ≤ fields.length) :
    ∃ root extensions, Halves name fields (some standard) root extensions ∧
      Halves name' (fields ++ more) (some standard) root (extensions ++ more) ∧ root.length = standard := by
  have hcount : ∀ count, standard ≤ count → rootCount (some standard) count = standard := fun count h =>
    Nat.min_eq_left h
  have hle : standard ≤ (fields ++ more).length := by
    rw [List.length_append]
    omega
  have hv := halves name fields (some standard)
  have hv' := halves name' (fields ++ more) (some standard)
  rw [hcount _ hs] at hv
  rw [hcount _ hle, List.take_append_of_le_length hs, List.drop_append_of_le_length hs] at hv'
  exact ⟨_, _, hv, hv', List.length_take_of_le hs⟩

/-- Fields that are added at the end change nothing before the marker. -/
theorem root_append (name name' : String) {fields : List (Field Descriptor)} (more : List (Field Descriptor)) {standard : Nat}
    (hs : standard ≤ fields.length) :
    let c := (sequence name fields (some standard)).constraint
    let c' := (sequence name' (fields ++ more) (some standard)).constraint
    c'.standardCount = c.standardCount ∧ c'.optionalFields = c.optionalFields := by
  obtain ⟨_, _, hv, hv', -⟩ := exists_halves_append name name' more hs
  exact ⟨hv'.standardCount.trans hv.standardCount.symm, hv'.optionalFields.trans hv.optionalFields.symm⟩

end Descriptor

end UnalignedPer
