import UnalignedPer.Proofs.Message.Admission

/-!
# What a reader lets through as a container

A list that is read has a size that its bounds or the extension marker allow, a choice has one of the declared alternatives, and
a sequence has what its fields have. What is known of the parts is known at the depth of the parts.
-/

namespace UnalignedPer

namespace Reader

variable {α : Type} {room depth : Nat} {settings : Settings}

/-! ## Other presence bits and another marker -/

/-- The presence bits of the sequence around come back. -/
theorem admits_withPresence {action : ReaderM α} {P : α → Prop} (presence : Option Presence)
    (h : Admits room depth settings action P) : Admits room depth settings (withPresence presence action) P := by
  intro r x r' hr hd hs hc hm
  simp only [withPresence, afterwards] at hm
  split at hm
  · rename_i y r1 hy
    cases hm
    obtain ⟨hp, hw⟩ := h (r := { r with presence := presence }) hr hd hs hc hy
    exact ⟨hp, ⟨hw.view, id, hw.claimed, hw.marker, hw.depth, hw.settings, hw.steps⟩⟩
  · cases hm

/-- Outside of any sequence. -/
theorem admits_withPresence_none {action : ReaderM α} {P : α → Prop}
    (h : ∀ r : Reader, r.presence = none → r.claimed = none → r.view.remaining ≤ room → r.depth = depth →
      r.settings = settings → Unpacker.Gives r action P) : Admits room depth settings (withPresence none action) P := by
  intro r x r' hr hd hs hc hm
  simp only [withPresence, afterwards] at hm
  split at hm
  · rename_i y r1 hy
    cases hm
    obtain ⟨hp, n, hn⟩ := h { r with presence := none } rfl hc hr hd hs hy
    exact ⟨hp, ⟨⟨n, hn.1.view⟩, id, hn.1.claimed.trans hc, hn.1.marker, hn.1.depth, hn.1.settings, hn.1.steps⟩⟩
  · cases hm

/-- The marker of the sequence around comes back. -/
theorem admits_withMarker {action : ReaderM α} {P : α → Prop} (marker : Bool) (h : Admits room depth settings action P) :
    Admits room depth settings (withMarker marker action) P := by
  intro r x r' hr hd hs hc hm
  simp only [withMarker, afterwards] at hm
  split at hm
  · rename_i y r1 hy
    cases hm
    obtain ⟨hp, hw⟩ := h (r := { r with marker := marker }) hr hd hs hc hy
    exact ⟨hp, ⟨hw.view, hw.presence, hw.claimed, rfl, hw.depth, hw.settings, hw.steps⟩⟩
  · cases hm

/-- What is traced at the end changes nothing else. -/
theorem admits_afterwards_noted {action : ReaderM α} {P : α → Prop} (level : TraceLevel) (text : Unit → String)
    (h : Admits room depth settings action P) : Admits room depth settings (afterwards (noted level text) action) P := by
  intro r x r' hr hd hs hc hm
  simp only [afterwards] at hm
  split at hm
  · rename_i y r1 hy
    cases hm
    obtain ⟨hp, hw⟩ := h hr hd hs hc hy
    exact ⟨hp, hw.trans (.of_moved hw.claimed (moved_noted level text r1))⟩
  · cases hm

/-! ## Indices, lists and choices -/

/-- An index that is read is one of the declared ones. -/
theorem admits_index (c : Constraint) : Admits room depth settings (index c) fun index => index.toNat < c.count := by
  refine (admits_of_gives fun r _ => ChoiceIndex.gives_unpack r _ _).bind fun index _ => ?_
  exact admits_ite (fun _ => admits_throw _ _) fun hlt => admits_pure (Nat.lt_of_not_le hlt)

/-- Elements that are read each for itself are read one after another. -/
theorem keeps_elements {element : Nat → ReaderM α} {P : α → Prop}
    (h : ∀ i, AdmitsField room depth settings (element i) P) {r : Reader} (hp : r.presence = none) (hc : r.claimed = none)
    (hr : r.view.remaining ≤ room) (hd : r.depth = depth) (hs : r.settings = settings) :
    SizedContent.Keeps r (elements element) fun total found => found.size = total ∧ ∀ x ∈ found, P x := by
  intro r' n total before count hm hbefore
  induction count generalizing r' n total before with
  | zero => exact Unpacker.gives_pure r' hbefore
  | succ count ih =>
    have hp' := hm.2.trans hp
    have hc' := hm.1.claimed.trans hc
    have hnext : Unpacker.Gives r' (element before.size) P := by
      intro x r'' hx
      have hr' := Nat.le_trans (LawfulBitSource.remaining_le hm) hr
      obtain ⟨hpx, hw⟩ := h before.size hr' (hm.1.depth.trans hd) (hm.1.settings.trans hs) hx
      exact ⟨hpx, hw.moved hp' hc'⟩
    refine hnext.bind fun x r'' n' hpx hm' => ?_
    rw [show total + (count + 1) = total + 1 + count by omega]
    refine ih r'' _ (total + 1) (before.push x) (LawfulBitSource.moved_trans hm hm') ⟨?_, fun y hy => ?_⟩
    · rw [Array.size_push, hbefore.1]
    · rcases Array.mem_push.mp hy with hy | rfl
      · exact hbefore.2 y hy
      · exact hpx

/-- What is known of a list whose elements have a property. -/
structure Listed (c : Constraint) (settings : Settings) (P : α → Prop) (found : Array α) : Prop where
  /-- The size lies within the bounds unless the type is extensible. -/
  size : c.extensible = true ∨ SizedContent.inRoot c.size found.size = true
  /-- The size lies within the limit. -/
  within : found.size ≤ settings.maxLength.toNat
  /-- The elements have the property. -/
  elements : ∀ x ∈ found, P x

/-- A SEQUENCE OF, if its bounds are ordered. -/
theorem admitsField_sequenceOf (c : Constraint) (ho : c.size.Ordered) {element : Nat → ReaderM α} {P : α → Prop}
    (h : depth < settings.maxDepth → ∀ i, AdmitsField room (depth + 1) settings (element i) P) :
    AdmitsField room depth settings (sequenceOf c element) fun found => depth < settings.maxDepth ∧ Listed c settings P found := by
  refine admitsField_container fun hlt => ?_
  refine (admits_note _ _).bind fun _ _ => ?_
  refine admits_withPresence_none fun r hp hc hr hd hs => ?_
  have hlimit : Unpacker.Gives r maxLength fun limit => limit = some settings.maxLength.toNat := by
    intro x r' hm
    cases hm
    exact ⟨congrArg (fun s : Settings => some s.maxLength.toNat) hs, 0, LawfulBitSource.moved_refl r⟩
  refine hlimit.bind fun limit r1 n hl hm => ?_
  have hkeeps := keeps_elements (h hlt) (hm.2.trans hp) (hm.1.claimed.trans hc)
    (Nat.le_trans (LawfulBitSource.remaining_le hm) hr) (hm.1.depth.trans hd) (hm.1.settings.trans hs)
  refine (SizedContent.gives_unpack hkeeps ho c.extensible 0 limit ⟨rfl, fun x hx => ?_⟩).weaken ?_
  · exact absurd hx (Array.not_mem_empty x)
  · rintro found ⟨total, ⟨rfl, hall⟩, hle, hsize⟩
    exact ⟨hsize, hle _ hl, hall⟩

/-- A CHOICE. -/
theorem admitsField_choice (c : Constraint) {payload : UInt64 → ReaderM α} {P : UInt64 → α → Prop}
    (h : depth < settings.maxDepth → ∀ i, i.toNat < c.count → AdmitsField room (depth + 1) settings (payload i) (P i)) :
    AdmitsField room depth settings (choice c payload)
      fun found => depth < settings.maxDepth ∧ found.1.toNat < c.count ∧ P found.1 found.2 := by
  refine admitsField_container fun hlt => ?_
  refine (admits_index c).bind fun i hi => ?_
  refine (admits_note _ _).bind fun _ _ => ?_
  refine (admits_withPresence none (admits_withContent _ (h hlt i hi).admits)).bind fun x hx => ?_
  exact admits_pure ⟨hi, hx⟩

/-! ## Sequences -/

theorem admits_readMarker (c : Constraint) : Admits room depth settings (readMarker c) fun _ => True := by
  refine admits_ite (fun _ => ?_) fun _ => admits_pure trivial
  refine (admits_of_gives fun r _ => Unpacker.gives_bit r).bind fun marker _ => ?_
  exact admits_ite (fun _ => admits_throw _ _) fun _ => admits_pure trivial

theorem admits_reserve (c : Constraint) : Admits room depth settings (reserve c) fun _ => True :=
  admits_position.bind fun _ _ => (admits_skip _).bind fun _ _ => admits_pure trivial

/-- An open type may be skipped. -/
theorem admits_skipOpenType : Admits room depth settings OpenType.skip fun _ => True := by
  refine admits_of_gives fun r _ => ?_
  have hkeeps : SizedContent.Keeps r (fun (_ : Unit) count => OpenType.skipOctets count) fun _ _ => True :=
    fun r' _ _ _ count _ _ => OpenType.gives_skipOctets r' count
  exact (SizedContent.gives_unpack hkeeps Bounds.ordered_free false 8 none trivial).weaken fun _ _ => trivial

theorem admits_skipExtensions (position count : Nat) :
    Admits room depth settings (skipExtensions position count) fun _ => True := by
  induction count generalizing position with
  | zero => exact admits_pure trivial
  | succ count ih =>
    refine (admits_peek position).bind fun present _ => ?_
    cases present with
    | false => exact ih (position + 1)
    | true =>
      refine ((admits_note _ _).bind fun _ _ => admits_skipOpenType).bind fun _ _ => ih (position + 1)

theorem admits_skipRest : Admits room depth settings skipRest fun _ => True := by
  refine admits_get.bind fun r _ => ?_
  cases r.presence with
  | none => exact admits_pure trivial
  | some p => exact admits_ite (fun _ => admits_skipExtensions _ _) fun _ => admits_pure trivial

theorem admits_closeSequence : Admits room depth settings closeSequence fun _ => True := by
  refine admits_get.bind fun r _ => ?_
  cases r.presence with
  | none => exact admits_pure trivial
  | some p =>
    refine admits_ite (fun _ => ?_) fun _ => admits_skipRest
    exact admits_ite (fun _ => admits_openExtensions.bind fun _ _ => admits_skipRest) fun _ => admits_pure trivial

/-- A SEQUENCE. -/
theorem admitsField_sequence (c : Constraint) {fields : ReaderM α} {P : α → Prop}
    (h : depth < settings.maxDepth → Admits room (depth + 1) settings fields P) :
    AdmitsField room depth settings (sequence c fields) fun found => depth < settings.maxDepth ∧ P found := by
  refine admitsField_container fun hlt => ?_
  refine (admits_note _ _).bind fun _ _ => ?_
  refine (admits_readMarker c).bind fun marker _ => ?_
  refine (admits_reserve c).bind fun presence _ => ?_
  refine admits_afterwards_noted _ _ (admits_withMarker marker (admits_withPresence _ ?_))
  refine (h hlt).bind fun found hf => ?_
  exact admits_closeSequence.bind fun _ _ => admits_pure hf

/-- An OPTIONAL field is absent or has what a field has. -/
theorem admits_opt {value : ReaderM α} {P : α → Prop} (h : AdmitsField room depth settings value P) :
    Admits room depth settings (opt value) fun entry => ∀ x, entry = some x → P x := by
  refine (admits_claimSlot true).bind ?_
  rintro ⟨present, openType⟩ _
  refine admits_ite (fun _ => ?_) fun _ => admits_pure fun x hx => ?_
  · intro r x r' hr hd hs hc hm
    simp only [run_bind, run_modify, afterwards, run_map] at hm
    cases hv : value { r with claimed := some openType } with
    | ok y r1 =>
      rw [hv] at hm
      cases hm
      obtain ⟨hp, hw⟩ := h (r := { r with claimed := some openType }) hr hd hs hv
      refine ⟨fun z hz => ?_, ⟨hw.view, hw.presence, rfl, hw.marker, hw.depth, hw.settings, hw.steps⟩⟩
      cases hz
      exact hp
    | error fault r1 =>
      rw [hv] at hm
      cases hm
  · cases hx

end Reader

end UnalignedPer
