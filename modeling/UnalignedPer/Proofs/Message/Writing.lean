import UnalignedPer.Message.Writer
import UnalignedPer.Proofs.ChoiceIndex
import UnalignedPer.Proofs.OctetString
import UnalignedPer.Proofs.SizedContent

/-!
# Writing fields and containers

A field starts with what `Writer.enterField` does: its presence bit, and whether its content is an open type.
`Writer.WritesField` says what a field appends from then on and when it fails, whatever sequence, list or choice it stands in.
Leaves and containers are such fields, and their parts have to be.

A writer stays clean, and outside of a field that is being entered no presence bit is claimed.
-/

namespace UnalignedPer

namespace Writer

/-- `w'` differs from `w` in its bits, its presence and its trace at most. -/
structure Keeps (w w' : Writer) : Prop where
  /-- The same field is claimed, if one is. -/
  claimed : w'.claimed = w.claimed
  /-- As many containers lie around the place of writing. -/
  depth : w'.depth = w.depth
  /-- The settings are the same. -/
  settings : w'.settings = w.settings
  /-- The same steps have come to their end. -/
  steps : w'.steps = w.steps

theorem Keeps.refl (w : Writer) : w.Keeps w :=
  ⟨rfl, rfl, rfl, rfl⟩

theorem Keeps.trans {w w' w'' : Writer} (h : w.Keeps w') (h' : w'.Keeps w'') : w.Keeps w'' :=
  ⟨h'.claimed.trans h.claimed, h'.depth.trans h.depth, h'.settings.trans h.settings, h'.steps.trans h.steps⟩

end Writer

/-- A writer is written to through its buffer. -/
instance : LawfulBitSink Writer where
  Same w w' := w.Keeps w' ∧ w'.presence = w.presence
  same_refl w := ⟨.refl w, rfl⟩
  same_trans h h' := ⟨h.1.trans h'.1, h'.2.trans h.2⟩
  same_withBuffer _ _ := ⟨⟨rfl, rfl, rfl, rfl⟩, rfl⟩
  buffer_withBuffer _ _ := rfl

namespace Writer

open Packer (Writes WritesIf Fails Wrote)

/-- Between two fields: the buffer is clean and unread, no field is claimed, and no more containers are open than may be. -/
structure Ready (w : Writer) : Prop where
  /-- Nothing is set past the written bits. -/
  clean : w.buffer.Clean
  /-- No presence bit was taken in advance. -/
  claimed : w.claimed = none
  /-- The containers around are within the limit. -/
  depth : w.depth ≤ w.settings.maxDepth
  /-- No bit was read. -/
  unread : w.buffer.readPosition = 0

/-- A writer stays ready when bits are appended. -/
theorem Ready.wrote {w w' : Writer} {bits : List Bool} (h : w.Ready) (hw : Wrote w bits w') : w'.Ready where
  clean := hw.1.clean h.clean
  claimed := hw.2.1.claimed.trans h.claimed
  depth := by
    rw [hw.2.1.depth, hw.2.1.settings]
    exact h.depth
  unread := hw.1.readPosition.trans h.unread

theorem buffer_noted (level : TraceLevel) (text : Unit → String) (w : Writer) : (noted level text w).buffer = w.buffer := by
  unfold noted
  split <;> rfl

/-- What is traced changes nothing else. -/
theorem wrote_noted (level : TraceLevel) (text : Unit → String) (w : Writer) : Wrote w [] (noted level text w) := by
  unfold noted
  split
  · exact ⟨BitBuffer.Adds.refl _, ⟨rfl, rfl, rfl, rfl⟩, rfl⟩
  · exact Wrote.refl w

theorem writes_note (w : Writer) (level : TraceLevel) (text : Unit → String) : Writes w (note level text) [] () :=
  ⟨noted level text w, rfl, wrote_noted level text w⟩

/-- A change that the buffer, the presence and the like do not see does not count. -/
theorem writesIf_afterwards {w before : Writer} {c : Prop} {m : WriterM Unit} {bits : List Bool} (change : Writer → Writer)
    (h : WritesIf before c m bits ()) (hb : before.buffer = w.buffer)
    (hc : ∀ w', Wrote before bits w' → (change w').buffer = w'.buffer ∧ LawfulBitSink.Same w (change w')) :
    (c → ∃ w', afterwards change m before = .ok () w' ∧ Wrote w bits w') ∧ (¬c → Fails before (afterwards change m)) := by
  refine ⟨fun hp => ?_, fun hn => ?_⟩
  · obtain ⟨w', hm, hw⟩ := h.1 hp
    obtain ⟨hbuf, hsame⟩ := hc w' hw
    refine ⟨change w', by simp only [afterwards, hm], ?_, hsame⟩
    have ha : before.buffer.Adds bits w'.buffer := hw.1
    rw [hb] at ha
    show w.buffer.Adds bits (change w').buffer
    rw [hbuf]
    exact ha
  · obtain ⟨fault, w', hm⟩ := h.2 hn
    exact ⟨fault, change w', by simp only [afterwards, hm]⟩

/-! ## Open types -/

/-- The content of a buffer is written as an open type. -/
theorem writes_packContent (w : Writer) {content : BitBuffer} (hc : content.Clean) :
    Writes w (packContent content) (OpenType.form content.toList) () :=
  (writes_note w .verbose _).bind fun w' _ => OpenType.writes_pack w' hc

/-- What is written to a buffer of its own ends up as an open type. -/
theorem writesIf_inOpenType {w : Writer} {content : WriterM Unit} {c : Prop} {bits : List Bool}
    (h : WritesIf { w with buffer := .empty, presence := none } c content bits ()) :
    WritesIf w c (inOpenType content) (OpenType.form bits) () := by
  refine ⟨fun hp => ?_, fun hn => ?_⟩
  · obtain ⟨w1, hm, hadds, hkeeps, _⟩ := h.1 hp
    have hclean : w1.buffer.Clean := hadds.clean BitBuffer.clean_empty
    have hlist : w1.buffer.toList = bits := hadds.toList
    obtain ⟨w2, hpack, hw⟩ := writes_packContent { w1 with buffer := w.buffer, presence := w.presence } hclean
    refine ⟨w2, by simp only [inOpenType, hm]; exact hpack, ?_, ?_⟩
    · rw [← hlist]
      exact hw.1
    · refine LawfulBitSink.same_trans ?_ hw.2
      exact ⟨⟨hkeeps.claimed, hkeeps.depth, hkeeps.settings, hkeeps.steps⟩, rfl⟩
  · obtain ⟨fault, w1, hm⟩ := h.2 hn
    exact ⟨fault, { w1 with buffer := w.buffer, presence := w.presence }, by simp only [inOpenType, hm]⟩

/-- A content may be written in place of `w` or in a buffer of its own. -/
structure Inside (w w' : Writer) : Prop where
  /-- The writer is between two fields. -/
  ready : w'.Ready
  /-- As many containers lie around. -/
  depth : w'.depth = w.depth
  /-- The settings are the same. -/
  settings : w'.settings = w.settings
  /-- The presence bits are the same ones, or out of sight. -/
  presence : w'.presence = none ∨ w'.presence = w.presence

/-- The content of a field is written as it is or as an open type. -/
theorem writesIf_withContent {w : Writer} (hr : w.Ready) (openType : Bool) {content : WriterM Unit} {c : Prop}
    {bits : List Bool} (h : ∀ w', Inside w w' → WritesIf w' c content bits ()) :
    WritesIf w c (withContent openType content) (if openType then OpenType.form bits else bits) () := by
  cases openType with
  | false => exact h w ⟨hr, rfl, rfl, Or.inr rfl⟩
  | true =>
    refine writesIf_inOpenType (h _ ⟨⟨BitBuffer.clean_empty, hr.claimed, hr.depth, rfl⟩, rfl, rfl, Or.inl rfl⟩)

/-! ## Fields -/

/-- After a field was entered, `m` appends the form of the field and succeeds when it conforms and its containers fit into the
limit, and fails otherwise. -/
def WritesField (m : WriterM Unit) (conforms : Prop) (nesting : Nat) (bits : List Bool) : Prop :=
  ∀ w w' openType, enterField w = .ok openType w' → w'.Ready →
    (conforms ∧ w'.depth + nesting ≤ w'.settings.maxDepth →
      ∃ w'', m w = .ok () w'' ∧ Wrote w' (if openType then OpenType.form bits else bits) w'') ∧
    (¬(conforms ∧ w'.depth + nesting ≤ w'.settings.maxDepth) → Fails w m)

theorem WritesField.congr {m : WriterM Unit} {c c' : Prop} {nesting : Nat} {bits : List Bool}
    (h : WritesField m c nesting bits) (hc : c ↔ c') : WritesField m c' nesting bits := by
  intro w w' openType he hr
  rw [← hc]
  exact h w w' openType he hr

/-- Outside of a sequence nothing stands in front of a field. -/
theorem enterField_of_none {w : Writer} (hp : w.presence = none) (hc : w.claimed = none) : enterField w = .ok false w := by
  simp only [enterField, run_bind, run_get, hc, claimSlot, reachSlot, visitSlot, hp, run_pure]

/-- Outside of a sequence a field is written as it is. -/
theorem WritesField.alone {m : WriterM Unit} {conforms : Prop} {nesting : Nat} {bits : List Bool}
    (h : WritesField m conforms nesting bits) {w : Writer} (hr : w.Ready) (hp : w.presence = none) :
    WritesIf w (conforms ∧ w.depth + nesting ≤ w.settings.maxDepth) m bits () := by
  have h' := h w w false (enterField_of_none hp hr.claimed) hr
  rw [if_neg Bool.false_ne_true] at h'
  exact h'

/-- What is no value of a type is not written. -/
theorem writesField_throw (fault : Fault) {conforms : Prop} (hn : ¬conforms) (nesting : Nat) (bits : List Bool) :
    WritesField (throw fault) conforms nesting bits :=
  fun w _ _ _ _ => ⟨fun hp => absurd hp.1 hn, fun _ => Packer.fails_throw w fault⟩

/-- A field without parts. -/
theorem writesField_field {content : WriterM Unit} {conforms : Prop} {bits : List Bool}
    (h : ∀ w, WritesIf w conforms content bits ()) : WritesField (field content) conforms 0 bits := by
  intro w w' openType he hr
  have hm : field content w = withContent openType content w' := by
    simp only [field, run_bind, he]
  have hc := writesIf_withContent hr openType fun w1 _ => h w1
  have hd : w'.depth + 0 ≤ w'.settings.maxDepth := hr.depth
  refine ⟨fun hp => ?_, fun hn => ?_⟩
  · rw [hm]
    exact hc.1 hp.1
  · obtain ⟨fault, w2, hf⟩ := hc.2 fun hp => hn ⟨hp, hd⟩
    exact ⟨fault, w2, hm.trans hf⟩

/-- A field with parts, which lie one container deeper. -/
theorem writesField_container {content : WriterM Unit} {conforms : Prop} {nesting : Nat} {bits : List Bool}
    (h : ∀ w, w.Ready → WritesIf w (conforms ∧ w.depth + nesting ≤ w.settings.maxDepth) content bits ()) :
    WritesField (container content) conforms (nesting + 1) bits := by
  intro w w' openType he hr
  by_cases hd : w'.depth ≥ w'.settings.maxDepth
  · have hm : container content w = .error (.unsupported .nestingLimit) w' := by
      simp only [container, run_bind, he, run_get, if_pos hd]
      rfl
    exact ⟨fun hp => by omega, fun _ => ⟨_, _, hm⟩⟩
  · have hready : Ready { w' with depth := w'.depth + 1 } := ⟨hr.clean, hr.claimed, Nat.not_le.mp hd, hr.unread⟩
    have hm : container content w =
        afterwards (fun w => { w with depth := w.depth - 1 }) (withContent openType content)
          { w' with depth := w'.depth + 1 } := by
      simp only [container, run_bind, he, run_get, if_neg hd]
      rfl
    have hc := writesIf_withContent (c := conforms ∧ w'.depth + 1 + nesting ≤ w'.settings.maxDepth) hready openType
      fun w1 hi => by
        have hw1 := h w1 hi.ready
        rw [hi.depth, hi.settings] at hw1
        exact hw1
    have hall := writesIf_afterwards (w := w') (fun w => { w with depth := w.depth - 1 }) hc rfl (by
      intro w2 hw
      refine ⟨rfl, ⟨hw.2.1.claimed, ?_, hw.2.1.settings, hw.2.1.steps⟩, hw.2.2⟩
      show w2.depth - 1 = w'.depth
      rw [hw.2.1.depth]
      rfl)
    rw [← hm, show w'.depth + 1 + nesting = w'.depth + (nesting + 1) by omega] at hall
    refine ⟨hall.1, fun hn => ?_⟩
    obtain ⟨fault, w2, hf⟩ := hall.2 hn
    exact ⟨fault, w2, hm.trans hf⟩

/-- An action with presence bits of its own, which leaves those of the sequence around alone. -/
theorem writesIf_withPresence {w : Writer} (presence : Option Presence) {action : WriterM Unit} {c : Prop} {bits : List Bool}
    (h : (c → ∃ w', action { w with presence := presence } = .ok () w' ∧ w.buffer.Adds bits w'.buffer ∧ w.Keeps w') ∧
      (¬c → Fails { w with presence := presence } action)) :
    WritesIf w c (withPresence presence action) bits () := by
  refine ⟨fun hp => ?_, fun hn => ?_⟩
  · obtain ⟨w1, hm, hadds, hkeeps⟩ := h.1 hp
    exact ⟨{ w1 with presence := w.presence }, by simp only [withPresence, afterwards, hm], hadds,
      ⟨hkeeps.claimed, hkeeps.depth, hkeeps.settings, hkeeps.steps⟩, rfl⟩
  · obtain ⟨fault, w1, hm⟩ := h.2 hn
    exact ⟨fault, { w1 with presence := w.presence }, by simp only [withPresence, afterwards, hm]⟩

/-- An action outside of any sequence. -/
theorem writesIf_withPresence_none {w : Writer} (hr : w.Ready) {action : WriterM Unit} {c : Prop} {bits : List Bool}
    (h : ∀ w', w'.Ready → w'.presence = none → w'.depth = w.depth → w'.settings = w.settings →
      WritesIf w' c action bits ()) :
    WritesIf w c (withPresence none action) bits () := by
  have h' := h { w with presence := none } ⟨hr.clean, hr.claimed, hr.depth, hr.unread⟩ rfl rfl rfl
  refine writesIf_withPresence none ⟨fun hp => ?_, h'.2⟩
  obtain ⟨w1, hm, hadds, hkeeps, _⟩ := h'.1 hp
  exact ⟨w1, hm, hadds, ⟨hkeeps.claimed, hkeeps.depth, hkeeps.settings, hkeeps.steps⟩⟩

/-! ## Indices, lists and choices -/

/-- The index of a declared alternative or item is written, and no other one is. -/
theorem writesIf_index (w : Writer) (c : Constraint) (hc : c.count ≤ 2 ^ 64) (alternative : UInt64) :
    WritesIf w (alternative.toNat < c.count) (index c alternative)
      (ChoiceIndex.form c.standardCount c.extensible alternative.toNat) () := by
  unfold index
  by_cases hlt : c.count ≤ alternative.toNat
  · rw [if_pos hlt]
    exact (Packer.fails_throw w _).writesIf (by omega) _ _
  · rw [if_neg hlt]
    have hle : c.standardCount ≤ c.count := by
      unfold Constraint.standardCount
      split <;> omega
    refine Writes.writesIf ((ChoiceIndex.writesIf_pack w (by omega) _ _).1 ?_) (by omega)
    cases he : c.extensible with
    | true => exact Or.inl rfl
    | false =>
      refine Or.inr ?_
      rw [Constraint.standardCount, he, if_neg Bool.false_ne_true]
      omega

/-- Elements that are written each for itself are written one after another. -/
theorem writesIf_elements {element : Nat → WriterM Unit} {units : List (List Bool)} {conforms : Nat → Prop}
    {nesting : Nat → Nat} (h : ∀ i (hi : i < units.length), WritesField (element i) (conforms i) (nesting i) units[i])
    (count : Nat) :
    ∀ w offset, w.Ready → w.presence = none → offset + count ≤ units.length →
      WritesIf w
        (∀ i, offset ≤ i → i < offset + count → conforms i ∧ w.depth + nesting i ≤ w.settings.maxDepth)
        (elements element offset count) ((units.drop offset).take count).flatten () := by
  induction count with
  | zero =>
    intro w offset _ _ _
    exact (Packer.writes_pure w ()).writesIf fun i hlo hhi => by omega
  | succ count ih =>
    intro w offset hr hp hlen
    have hi : offset < units.length := by omega
    rw [elements, List.drop_eq_getElem_cons hi, List.take_succ_cons, List.flatten_cons]
    have hfirst := (h offset hi).alone hr hp
    have hrest : ∀ w', Wrote w units[offset] w' →
        WritesIf w'
          (∀ i, offset + 1 ≤ i → i < offset + 1 + count → conforms i ∧ w.depth + nesting i ≤ w.settings.maxDepth)
          (elements element (offset + 1) count) ((units.drop (offset + 1)).take count).flatten () := by
      intro w' hw
      have hw' := ih w' (offset + 1) (hr.wrote hw) (hw.2.2.trans hp) (by omega)
      rw [hw.2.1.depth, hw.2.1.settings] at hw'
      exact hw'
    refine (hfirst.bind fun w' _ hw => hrest w' hw).congr ⟨fun hg i hlo hhi => ?_, fun hg => ?_⟩
    · by_cases heq : i = offset
      · rw [heq]
        exact hg.1
      · exact hg.2 i (by omega) (by omega)
    · exact ⟨hg offset (by omega) (by omega), fun i hlo hhi => hg i (by omega) (by omega)⟩

/-- A SEQUENCE OF is written when its size lies within the bounds or the type is extensible, and its elements conform. -/
theorem writesField_sequenceOf (c : Constraint) {element : Nat → WriterM Unit} {units : List (List Bool)}
    {conforms : Nat → Prop} {nesting : Nat → Nat} {most : Nat}
    (h : ∀ i (hi : i < units.length), WritesField (element i) (conforms i) (nesting i) units[i])
    (hn : ∀ n, most ≤ n ↔ ∀ i, i < units.length → nesting i ≤ n) :
    WritesField (sequenceOf c units.length element)
      ((c.extensible = true ∨ SizedContent.inRoot c.size units.length = true) ∧ ∀ i, i < units.length → conforms i)
      (most + 1) (SizedContent.form c.size c.extensible units) := by
  refine writesField_container fun w hr => ?_
  refine (writes_note w .basic _).bind_writesIf fun w1 hw1 => ?_
  have hr1 := hr.wrote hw1
  rw [← hw1.2.1.depth, ← hw1.2.1.settings]
  refine writesIf_withPresence_none hr1 fun w2 hr2 hp2 hd2 hs2 => ?_
  have hemit : SizedContent.Emits w2 (elements element) units
      fun i => conforms i ∧ w2.depth + nesting i ≤ w2.settings.maxDepth := by
    intro w3 bits offset count hw3 hlen
    have he := writesIf_elements h count w3 offset (hr2.wrote hw3) (hw3.2.2.trans hp2) hlen
    rw [hw3.2.1.depth, hw3.2.1.settings] at he
    exact he
  refine (SizedContent.writesIf_pack hemit c.size c.extensible).congr ?_
  rw [hd2, hs2]
  have hd := hr1.depth
  have hmost : w1.depth + most ≤ w1.settings.maxDepth ↔
      ∀ i, i < units.length → w1.depth + nesting i ≤ w1.settings.maxDepth := by
    have := hn (w1.settings.maxDepth - w1.depth)
    constructor
    · intro hle i hi
      have := (this.mp (by omega)) i hi
      omega
    · intro hall
      have := this.mpr fun i hi => by
        have := hall i hi
        omega
      omega
  rw [hmost]
  constructor
  · rintro ⟨hs, hg⟩
    exact ⟨⟨hs, fun i hi => (hg i hi).1⟩, fun i hi => (hg i hi).2⟩
  · rintro ⟨⟨hs, hc⟩, hn⟩
    exact ⟨hs, fun i hi => ⟨hc i hi, hn i hi⟩⟩

/-- A CHOICE is written when there is such an alternative and its value conforms. -/
theorem writesField_choice (c : Constraint) (hc : c.count ≤ 2 ^ 64) (alternative : UInt64) {payload : WriterM Unit}
    {conforms : Prop} {nesting : Nat} {bits : List Bool}
    (h : alternative.toNat < c.count → WritesField payload conforms nesting bits) :
    WritesField (choice c alternative payload) (alternative.toNat < c.count ∧ conforms) (nesting + 1)
      (ChoiceIndex.form c.standardCount c.extensible alternative.toNat ++
        if c.standardCount ≤ alternative.toNat then OpenType.form bits else bits) := by
  refine writesField_container fun w hr => ?_
  have hrest : ∀ w1, alternative.toNat < c.count →
      Wrote w (ChoiceIndex.form c.standardCount c.extensible alternative.toNat) w1 →
      WritesIf w1 (conforms ∧ w.depth + nesting ≤ w.settings.maxDepth)
        (do
          note .basic fun () => "choice " ++ c.text ++ " alternative " ++ toString alternative
          withPresence none (withContent (c.standardCount ≤ alternative.toNat) payload))
        (if c.standardCount ≤ alternative.toNat then OpenType.form bits else bits) () := by
    intro w1 hlt hw1
    refine (writes_note w1 .basic _).bind_writesIf fun w2 hw2 => ?_
    have hr2 := (hr.wrote hw1).wrote hw2
    refine writesIf_withPresence_none hr2 fun w3 hr3 hp3 hd3 hs3 => ?_
    have halone : ∀ w4, Inside w3 w4 →
        WritesIf w4 (conforms ∧ w3.depth + nesting ≤ w3.settings.maxDepth) payload bits () := by
      intro w4 hi
      have hp4 : w4.presence = none := by
        rcases hi.presence with hp | hp
        · exact hp
        · exact hp.trans hp3
      have h4 := (h hlt).alone hi.ready hp4
      rw [hi.depth, hi.settings] at h4
      exact h4
    have hpayload := writesIf_withContent hr3 (decide (c.standardCount ≤ alternative.toNat)) halone
    rw [hd3, hs3, hw2.2.1.depth, hw2.2.1.settings, hw1.2.1.depth, hw1.2.1.settings] at hpayload
    simp only [decide_eq_true_eq] at hpayload
    exact hpayload
  exact ((writesIf_index w c hc alternative).bind fun w1 hlt hw1 => hrest w1 hlt hw1).congr (by rw [and_assoc])

end Writer

end UnalignedPer
