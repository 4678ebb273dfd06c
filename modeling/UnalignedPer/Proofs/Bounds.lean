import UnalignedPer.Bounds

/-!
# Bounds that leave room

Bounds are ordered when the lower one does not exceed the upper one. That is what a constraint promises, and what the packed
forms of sizes rely on.
-/

namespace UnalignedPer

namespace Bounds

/-- The lower bound does not exceed the upper one, where there are both. -/
def Ordered {α : Type} [LE α] (b : Bounds α) : Prop :=
  ∀ lower upper, b.lower = some lower → b.upper = some upper → lower ≤ upper

/-- Bounds that are missing do not cross. -/
theorem ordered_free {α : Type} [LE α] : (free : Bounds α).Ordered := by
  intro lower upper h
  cases h

/-- A map that keeps the order keeps bounds ordered. -/
theorem Ordered.map {α β : Type} [LE α] [LE β] {b : Bounds α} (h : b.Ordered) {f : α → β}
    (hf : ∀ x y, x ≤ y → f x ≤ f y) : (⟨b.lower.map f, b.upper.map f⟩ : Bounds β).Ordered := by
  intro lower upper hl hu
  obtain ⟨x, hx, rfl⟩ := Option.map_eq_some_iff.mp hl
  obtain ⟨y, hy, rfl⟩ := Option.map_eq_some_iff.mp hu
  exact hf x y (h x y hx hy)

end Bounds

end UnalignedPer
