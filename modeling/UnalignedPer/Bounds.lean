/-!
# Bounds

A constraint bounds a number or a size from below, from above, from both sides or not at all.
-/

namespace UnalignedPer

/-- The least and the greatest value allowed, where there is one. -/
structure Bounds (α : Type) where
  /-- The least value allowed. -/
  lower : Option α
  /-- The greatest value allowed. -/
  upper : Option α
  deriving DecidableEq, Repr, Inhabited

namespace Bounds

/-- Bounds that allow every value. -/
def free {α : Type} : Bounds α :=
  ⟨none, none⟩

/-- Bounds on both sides. -/
def between {α : Type} (lower upper : α) : Bounds α :=
  ⟨some lower, some upper⟩

/-- Whether there is a bound on either side. -/
def isBounded {α : Type} (b : Bounds α) : Bool :=
  b.lower.isSome || b.upper.isSome

/-- Whether a value lies within the bounds. -/
def contains {α : Type} [LE α] [DecidableLE α] (b : Bounds α) (value : α) : Bool :=
  b.lower.all (fun lower => decide (lower ≤ value)) && b.upper.all (fun upper => decide (value ≤ upper))

/-- The greatest signed 64-bit number, which stands for a missing upper bound. -/
def greatest : Nat :=
  9223372036854775807

end Bounds

end UnalignedPer
