import UnalignedPer.Constraint
import UnalignedPer.Presence

/-!
# Visiting fields in order

A sequence is gone through in two stretches: its standard fields, of which the OPTIONAL ones take a bit, and its extension
fields, which all take one. `Presence.Awaits` says which of the two a presence is in and how many fields of it may still
come, `Presence.Passed` what some fields in a row have done to it. A single visit is described by `Presence.visit_unmarked`
and `Presence.visit_marked`; between the stretches stands `Presence.visit_openExtensions`.
-/

namespace UnalignedPer

namespace Presence

/-- The presence bits of a sequence, the first of which stands at a position. -/
def opening (c : Constraint) (start : Nat) : Presence :=
  if c.extensible then .ofStandard ⟨start, start + c.optionalFields⟩ c.standardCount c.extensionCount
  else .ofOptional ⟨start, start + c.optionalFields⟩

/-- At least `left` fields of a stretch may still come: extension fields where `extension` is set, standard ones otherwise. -/
def Awaits (p : Presence) (extension : Bool) (left : Nat) : Prop :=
  if extension then p.rule = .everyField
  else p.rule = .optionalFields ∨ (p.rule = .standardFields ∧ left ≤ p.standardLeft)

/-- The presence bits of a sequence start where it starts, one for each optional field in front of the marker. -/
theorem ahead_opening (c : Constraint) (start : Nat) : (opening c start).ahead = ⟨start, start + c.optionalFields⟩ := by
  unfold opening
  split <;> rfl

/-- No extension block is known when a sequence starts. -/
theorem header_opening (c : Constraint) (start : Nat) : (opening c start).header = none := by
  unfold opening
  split <;> rfl

/-- A sequence starts with its standard fields. -/
theorem awaits_opening (c : Constraint) (start : Nat) : (opening c start).Awaits false c.standardCount := by
  unfold Awaits opening
  rw [if_neg Bool.false_ne_true]
  split
  · exact Or.inr ⟨rfl, Nat.le_refl _⟩
  · exact Or.inl rfl

/-- In the extension block any number of fields may still come. -/
theorem awaits_everyField {p : Presence} (h : p.rule = .everyField) (left : Nat) : p.Awaits true left := by
  unfold Awaits
  rw [if_pos rfl]
  exact h

/-- `p'` is `p` after some fields of a stretch, of which some took a bit. -/
structure Passed (p : Presence) (fields taken : Nat) (p' : Presence) : Prop where
  /-- The stretch is the same. -/
  rule : p'.rule = p.rule
  /-- The bits are taken from the front. -/
  start : p'.ahead.start = p.ahead.start + taken
  /-- The run ends where it ended. -/
  stop : p'.ahead.stop = p.ahead.stop
  /-- The run starts where it started. -/
  first : p'.first = p.first
  /-- The standard fields are counted down. -/
  standardLeft : p.rule = .standardFields → p'.standardLeft = p.standardLeft - fields
  /-- The extension fields stay. -/
  extensions : p'.extensions = p.extensions
  /-- The extension block starts where it started. -/
  header : p'.header = p.header
  /-- What holds past the run stays. -/
  lenient : p'.lenient = p.lenient

/-- A stretch of no fields leaves the presence bits as they are. -/
theorem Passed.refl (p : Presence) : p.Passed 0 0 p :=
  ⟨rfl, rfl, rfl, rfl, fun _ => rfl, rfl, rfl, rfl⟩

/-- Two stretches of fields in a row are one. -/
theorem Passed.trans {p p' p'' : Presence} {m n taken taken' : Nat} (h : p.Passed m taken p') (h' : p'.Passed n taken' p'') :
    p.Passed (m + n) (taken + taken') p'' where
  rule := h'.rule.trans h.rule
  start := by rw [h'.start, h.start, Nat.add_assoc]
  stop := h'.stop.trans h.stop
  first := h'.first.trans h.first
  standardLeft hr := by rw [h'.standardLeft (h.rule.trans hr), h.standardLeft hr, Nat.sub_add_eq]
  extensions := h'.extensions.trans h.extensions
  header := h'.header.trans h.header
  lenient := h'.lenient.trans h.lenient

/-- After some fields there are that many fewer. -/
theorem Awaits.passed {p p' : Presence} {extension : Bool} {fields taken left : Nat}
    (h : p.Awaits extension (fields + left)) (hp : p.Passed fields taken p') : p'.Awaits extension left := by
  unfold Awaits at h ⊢
  cases extension with
  | true =>
    rw [if_pos rfl] at h ⊢
    exact hp.rule.trans h
  | false =>
    rw [if_neg Bool.false_ne_true] at h ⊢
    rcases h with h | ⟨h, hle⟩
    · exact Or.inl (hp.rule.trans h)
    · refine Or.inr ⟨hp.rule.trans h, ?_⟩
      have := hp.standardLeft h
      omega

/-- The extension block was looked for: every field takes a bit of its run, and a field past the run is absent. -/
structure Opened (p : Presence) : Prop where
  /-- Every field takes a bit. -/
  rule : p.rule = .everyField
  /-- A field past the run is absent. -/
  lenient : p.lenient = true
  /-- The place of the block is known. -/
  header : p.header.isSome = true

/-- Behind the call for the extension block every field takes a bit. -/
theorem opened_enterExtensions (p : Presence) (header : Nat) (run : BitRange) : (p.enterExtensions header run true).Opened :=
  ⟨rfl, rfl, rfl⟩

/-- Once the block was looked for, any number of extension fields may still come. -/
theorem Opened.awaits {p : Presence} (h : p.Opened) (left : Nat) : p.Awaits true left :=
  awaits_everyField h.rule left

/-- The block was looked for before, if it was before some more fields. -/
theorem Opened.passed {p p' : Presence} {fields taken : Nat} (h : p.Opened) (hp : p.Passed fields taken p') : p'.Opened :=
  ⟨hp.rule.trans h.rule, hp.lenient.trans h.lenient, (congrArg Option.isSome hp.header).trans h.header⟩

/-- A field that takes no bit. -/
theorem visit_unmarked {p : Presence} {extension optional : Bool} {left : Nat} (h : p.Awaits extension (left + 1))
    (hm : (extension || optional) = false) : ∃ p', p.visit optional = (.ok .unmarked, p') ∧ p.Passed 1 0 p' := by
  obtain ⟨rfl, rfl⟩ : extension = false ∧ optional = false := by simpa using hm
  unfold Awaits at h
  rw [if_neg Bool.false_ne_true] at h
  rcases h with h | ⟨h, hle⟩
  · refine ⟨p, by simp [visit, h, visitStandard], rfl, rfl, rfl, rfl, fun hr => ?_, rfl, rfl, rfl⟩
    rw [hr] at h
    cases h
  · refine ⟨{ p with standardLeft := p.standardLeft - 1 }, ?_, rfl, rfl, rfl, rfl, fun _ => rfl, rfl, rfl, rfl⟩
    have hne : ¬p.standardLeft = 0 := by omega
    simp [visit, h, hne, visitStandard]

/-- A field that takes a bit: the next one of the run. -/
theorem visit_marked {p : Presence} {extension optional : Bool} {left : Nat} (h : p.Awaits extension (left + 1))
    (hm : (extension || optional) = true) (hroom : p.ahead.start < p.ahead.stop) :
    ∃ p', p.visit optional = (.ok (.marked p.ahead.start extension), p') ∧ p.Passed 1 1 p' := by
  have hne : p.ahead.isEmpty = false := by
    unfold BitRange.isEmpty
    exact decide_eq_false (by omega)
  unfold Awaits at h
  cases extension with
  | true =>
    rw [if_pos rfl] at h
    refine ⟨{ p with ahead := { p.ahead with start := p.ahead.start + 1 } }, ?_, rfl, rfl, rfl, rfl, fun hr => ?_, rfl, rfl,
      rfl⟩
    · simp [visit, h, visitExtension, hne, takeBit]
    · rw [hr] at h
      cases h
  | false =>
    obtain rfl : optional = true := hm
    rw [if_neg Bool.false_ne_true] at h
    rcases h with h | ⟨h, hle⟩
    · refine ⟨{ p with ahead := { p.ahead with start := p.ahead.start + 1 } }, ?_, rfl, rfl, rfl, rfl, fun hr => ?_, rfl,
        rfl, rfl⟩
      · simp [visit, h, visitStandard, hne, takeBit]
      · rw [hr] at h
        cases h
    · refine ⟨{ p with
          ahead := { p.ahead with start := p.ahead.start + 1 }
          standardLeft := p.standardLeft - 1 }, ?_, rfl, rfl, rfl, rfl, fun _ => rfl, rfl, rfl, rfl⟩
      have hne0 : ¬p.standardLeft = 0 := by omega
      simp [visit, h, hne0, visitStandard, hne, takeBit]

/-- Behind the standard fields an extension field calls for the extension block. -/
theorem visit_openExtensions {p : Presence} (optional : Bool) (hr : p.rule = .standardFields) (hs : p.standardLeft = 0)
    (he : p.extensions ≠ 0) : p.visit optional = (.ok .openExtensions, p) := by
  simp [visit, hr, hs, he]

/-- Nothing else calls for the extension block, and nothing is taken meanwhile. -/
theorem of_visit_openExtensions {p p' : Presence} {optional : Bool} (h : p.visit optional = (.ok .openExtensions, p')) :
    p' = p ∧ p.rule = .standardFields ∧ p.standardLeft = 0 ∧ p.extensions ≠ 0 := by
  have hstandard : ∀ q : Presence, (q.visitStandard optional).1 ≠ .ok .openExtensions := by
    intro q hq
    unfold visitStandard takeBit at hq
    split at hq
    · cases hq
    · split at hq <;> cases hq
  unfold visit at h
  split at h
  · unfold visitExtension takeBit at h
    split at h
    · split at h <;> cases h
    · cases h
  · exact absurd (congrArg Prod.fst h) (hstandard _)
  · rename_i hr
    split at h
    · rename_i hs
      split at h
      · cases h
      · cases h
        exact ⟨rfl, hr, hs, ‹_›⟩
    · exact absurd (congrArg Prod.fst h) (hstandard _)

/-- Past the run of an extension block that was read a field is absent. -/
theorem visit_absent {p : Presence} (optional : Bool) (h : p.Opened) (he : p.ahead.stop ≤ p.ahead.start) :
    p.visit optional = (.ok .absent, p) := by
  have hempty : p.ahead.isEmpty = true := by
    unfold BitRange.isEmpty
    exact decide_eq_true he
  simp [visit, h.rule, visitExtension, hempty, h.lenient]

end Presence

end UnalignedPer
