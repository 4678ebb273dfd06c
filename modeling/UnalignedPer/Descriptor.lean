import UnalignedPer.Constraint

/-!
# Type descriptors

A `Descriptor` is a type with its parts. What its packed form depends on is computed from the parts by
`Descriptor.constraint`, so the two never disagree. In a type with an extension marker, `standard` is the number of members
before it; a type without a marker has no such number.
-/

namespace UnalignedPer

/-- A field of a sequence. -/
structure Field (α : Type) where
  /-- The name of the field. -/
  name : String
  /-- Whether the field may be absent. -/
  optional : Bool
  /-- The type of the field. -/
  type : α
  deriving DecidableEq, Repr, Inhabited

/-- A type. The name is empty where the type has none. -/
inductive Descriptor where
  /-- A type without parts. -/
  | simple (name : String) (type : SimpleType) (extensible : Bool)
  /-- One of some named items. -/
  | enumerated (name : String) (items : List String) (standard : Option Nat)
  /-- Some fields in order. -/
  | sequence (name : String) (fields : List (Field Descriptor)) (standard : Option Nat)
  /-- The lists of some sizes over an element type. -/
  | sequenceOf (name : String) (element : Descriptor) (size : Bounds Int64) (extensible : Bool)
  /-- One of some named alternatives. -/
  | choice (name : String) (alternatives : List (String × Descriptor)) (standard : Option Nat)
  deriving Repr, Inhabited

namespace Descriptor

/-- The name of the type. -/
def name : Descriptor → String
  | simple name .. => name
  | enumerated name .. => name
  | sequence name .. => name
  | sequenceOf name .. => name
  | choice name .. => name

/-- The same type under another name. -/
def rename (name : String) : Descriptor → Descriptor
  | simple _ type extensible => simple name type extensible
  | enumerated _ items standard => enumerated name items standard
  | sequence _ fields standard => sequence name fields standard
  | sequenceOf _ element size extensible => sequenceOf name element size extensible
  | choice _ alternatives standard => choice name alternatives standard

/-- The number of optional fields before the extension marker. -/
def optionalCount {α : Type} (fields : List (Field α)) (standard : Option Nat) : Nat :=
  match standard with
  | some n => (fields.take n).countP (·.optional)
  | none => fields.countP (·.optional)

/-- What the packed form of the type depends on. -/
def constraint : Descriptor → Constraint
  | simple _ type extensible => ⟨.simple type, extensible⟩
  | enumerated _ items standard => ⟨.enumerated (.ofStandard items.length standard), standard.isSome⟩
  | sequence _ fields standard =>
    ⟨.sequence (.ofStandard fields.length standard) (optionalCount fields standard), standard.isSome⟩
  | sequenceOf _ _ size extensible => ⟨.sequenceOf size, extensible⟩
  | choice _ alternatives standard => ⟨.choice (.ofStandard alternatives.length standard), standard.isSome⟩

/-- The kind of the type. -/
def kind (d : Descriptor) : Kind :=
  d.constraint.kind

/-- The fields of a sequence and the alternatives of a choice, which are never optional. -/
def fields : Descriptor → List (Field Descriptor)
  | sequence _ fields _ => fields
  | choice _ alternatives _ => alternatives.map fun (name, type) => ⟨name, false, type⟩
  | _ => []

/-- The items of an enumerated type. -/
def items : Descriptor → List String
  | enumerated _ items _ => items
  | _ => []

/-- The element type of a list type. -/
def element? : Descriptor → Option Descriptor
  | sequenceOf _ element _ _ => some element
  | _ => none

/-- The index of the first field or alternative of a name. -/
def fieldIndex? (d : Descriptor) (name : String) : Option Nat :=
  d.fields.findIdx? (·.name == name)

/-- The index of the first item of a name. -/
def itemIndex? (d : Descriptor) (name : String) : Option Nat :=
  d.items.findIdx? (· == name)

/-- The type in words: its constraint, behind its name if it has one. -/
def text (d : Descriptor) : String :=
  if d.name.isEmpty then d.constraint.text else d.name ++ ": " ++ d.constraint.text

end Descriptor

end UnalignedPer
