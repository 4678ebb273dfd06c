import UnalignedPer.Descriptor

/-!
# Schemas

A schema is a set of named types, in the order of their names.
-/

namespace UnalignedPer

/-- Some named types. -/
structure Schema where
  /-- The types in the order of their names. -/
  types : List Descriptor
  deriving Repr, Inhabited

namespace Schema

/-- The type of a name. -/
def lookup? (schema : Schema) (name : String) : Option Descriptor :=
  schema.types.find? (·.name == name)

/-- The number of types. -/
def size (schema : Schema) : Nat :=
  schema.types.length

end Schema

end UnalignedPer
