import UnalignedPer.Proofs.Message.Encoding
import UnalignedPer.Proofs.Value.Shape

/-!
# What can go wrong with a value of the right shape

A value that has the shape of its type can still be refused: a number or a size is outside its bounds, a character is not in
the alphabet, or containers nest too deep (`Fault.isExcess`). Nothing else can be wrong with it (`encode_excess`).

This is carried along the writer in the same way as what is written (`Packer.Exceeds`, `Writer.ExceedsField`). An action only
has to be looked at in a state that the actions before it can leave, so presence bits never run out, for instance: what was
written before succeeded, and the state it left is known.
-/

namespace UnalignedPer

/-- Whether a fault blames a number, a size, a character or the depth of nesting. -/
def Fault.isExcess : Fault → Bool
  | valueNotInRange .. => true
  | sizeNotInRange .. => true
  | invalidCharacter .. => true
  | unsupported .nestingLimit => true
  | _ => false

namespace Packer

variable {τ α β : Type} {s : τ}

/-- From `s` on the action fails for an excess, if it fails. -/
def Exceeds (s : τ) (action : Packer τ α) : Prop :=
  ∀ fault s', action s = .error fault s' → fault.isExcess = true

theorem exceeds_throw (s : τ) {fault : Fault} (h : fault.isExcess = true) : Exceeds s (throw fault : Packer τ α) := by
  intro fault' s' he
  cases he
  exact h

/-- What succeeds does not fail. -/
theorem exceeds_of_ok {m : Packer τ α} {x : α} {s' : τ} (h : m s = .ok x s') : Exceeds s m := by
  intro fault s'' he
  rw [h] at he
  cases he

/-- What is done behind an action is done in a state that the action left. -/
theorem Exceeds.bind {m : Packer τ α} {f : α → Packer τ β} (h : Exceeds s m)
    (h' : ∀ x s', m s = .ok x s' → Exceeds s' (f x)) : Exceeds s (m >>= f) := by
  intro fault s' he
  rw [run_bind] at he
  cases hm : m s with
  | ok x s1 =>
    rw [hm] at he
    exact h' x s1 hm fault s' he
  | error cause s1 =>
    rw [hm] at he
    cases he
    exact h fault s' hm

/-- What is put back at the end does not fail. -/
theorem Exceeds.afterwards {m : Packer τ α} (change : τ → τ) (h : Exceeds s m) : Exceeds s (afterwards change m) := by
  intro fault s' he
  cases hm : m s with
  | ok x s1 =>
    simp only [UnalignedPer.afterwards, hm] at he
    cases he
  | error cause s1 =>
    simp only [UnalignedPer.afterwards, hm] at he
    cases he
    exact h fault s1 hm

/-- What succeeds met a condition without which it fails. -/
theorem met_of_ok {m : Packer τ α} {condition : Prop} (h : ¬condition → Fails s m) {x : α} {s' : τ} (hm : m s = .ok x s') :
    condition := by
  by_contra hn
  obtain ⟨fault, s1, hm1⟩ := h hn
  rw [hm] at hm1
  cases hm1

variable [BitSink τ] [LawfulBitSink τ] {m : Packer τ α} {bits : List Bool} {x : α}

theorem Writes.exceeds (h : Writes s m bits x) : Exceeds s m := by
  obtain ⟨s', hm, -⟩ := h
  exact exceeds_of_ok hm

/-- Behind an action that succeeds it depends on the rest. -/
theorem Writes.bind_exceeds {f : α → Packer τ β} (h : Writes s m bits x) (h' : ∀ s', Wrote s bits s' → Exceeds s' (f x)) :
    Exceeds s (m >>= f) := by
  obtain ⟨s1, hm1, hw⟩ := h
  refine (exceeds_of_ok hm1).bind fun y s' hm => ?_
  rw [hm1] at hm
  cases hm
  exact h' _ hw

/-- Behind an action that was written the rest has its bits in front. -/
theorem WritesIf.bind_exceeds {f : α → Packer τ β} {c : Prop} (h : WritesIf s c m bits x) (he : Exceeds s m)
    (h' : ∀ s', Wrote s bits s' → Exceeds s' (f x)) : Exceeds s (m >>= f) := by
  refine he.bind fun y s' hm => ?_
  obtain ⟨-, rfl, hw⟩ := h.of_ok hm
  exact h' s' hw

end Packer

open Packer (Exceeds Writes WritesIf Wrote)

/-! ## Contents -/

section Contents

variable {τ : Type} [BitSink τ] [LawfulBitSink τ]

/-- A number of the root can only lie outside its bounds. -/
theorem WholeNumber.exceeds_packRoot (s : τ) (bounds : Bounds Int64) (value : Int64) : Exceeds s (packRoot bounds value) := by
  unfold packRoot
  split
  · unfold packConstrained
    split
    · exact Packer.exceeds_throw s rfl
    · exact Packer.exceeds_of_ok rfl
  · unfold packSemiConstrained
    split
    · exact Packer.exceeds_throw s rfl
    · exact (writes_packMagnitude s _).exceeds
  · split
    · exact Packer.exceeds_throw s rfl
    · exact (writes_packFree_signed s value).exceeds
  · exact (writes_packFree_signed s value).exceeds

/-- A number can only lie outside its bounds. -/
theorem WholeNumber.exceeds_packInteger (s : τ) (bounds : Bounds Int64) (extensible : Bool) (value : Int64) :
    Exceeds s (packInteger bounds extensible value) := by
  unfold packInteger
  split
  · split
    · exact (Packer.writes_bit s false).bind_exceeds fun s' _ => exceeds_packRoot s' bounds value
    · exact (Packer.writes_bit s true).bind_exceeds fun s' _ => (writes_packFree_signed s' value).exceeds
  · exact exceeds_packRoot s bounds value

namespace SizedContent

variable {s : τ} {emit : Nat → Nat → Packer τ Unit} {units : List (List Bool)} {good : Nat → Prop}

/-- A content that is written unless its size lies outside the bounds. -/
theorem exceeds_of_writesIf {size : Bounds Nat} {extensible : Bool} {count : Nat} {bits : List Bool} {c : Prop}
    (h : WritesIf s c (pack size extensible count emit) bits ()) (hc : extensible = true ∨ inRoot size count = true → c) :
    Exceeds s (pack size extensible count emit) := by
  by_cases hfit : extensible = true ∨ inRoot size count = true
  · exact (h.1 (hc hfit)).exceeds
  · rw [not_or] at hfit
    unfold pack
    rw [if_neg hfit.2, if_neg hfit.1]
    exact Packer.exceeds_throw s rfl

/-- From states that differ from `s` in what was written, a chunk of some units fails for an excess, if it fails. -/
def EmitsOrExceeds (s : τ) (emit : Nat → Nat → Packer τ Unit) (total : Nat) : Prop :=
  ∀ s' bits offset count, Wrote s bits s' → offset + count ≤ total → Exceeds s' (emit offset count)

/-- The fragments of a content. -/
theorem exceeds_packFree (h : Emits s emit units good) (he : EmitsOrExceeds s emit units.length) (rest : Nat) :
    ∀ s' bits offset, Wrote s bits s' → offset + rest = units.length → Exceeds s' (packFree emit offset rest) := by
  -- Each step leaves a shorter rest.
  induction rest using Nat.strongRecOn with
  | ind rest ih =>
    intro s' bits offset hw hr
    have hcov := LengthDeterminant.covered_le rest
    rw [packFree]
    refine (LengthDeterminant.writes_packFree s' rest).bind_exceeds fun s1 hw1 => ?_
    have hw1' := hw.trans hw1
    have hchunk := h s1 _ offset (LengthDeterminant.covered rest) hw1' (by omega)
    refine hchunk.bind_exceeds (he s1 _ offset _ hw1' (by omega)) fun s2 hw2 => ?_
    by_cases hlast : rest < LengthDeterminant.fragmentUnit
    · rw [dif_pos hlast]
      exact Packer.exceeds_of_ok rfl
    · rw [dif_neg hlast]
      have hpos := (LengthDeterminant.covered_bounds rest hlast).1
      exact ih _ (by omega) s2 _ _ (hw1'.trans hw2) (by omega)

/-- A content can only have a size outside its bounds or units that fail for an excess. -/
theorem exceeds_pack (h : Emits s emit units good) (he : EmitsOrExceeds s emit units.length) (size : Bounds Nat)
    (extensible : Bool) : Exceeds s (pack size extensible units.length emit) := by
  have hfree : ∀ {s' bits}, Wrote s bits s' → Exceeds s' (packFree emit 0 units.length) := fun hw =>
    exceeds_packFree h he units.length _ _ 0 hw (Nat.zero_add _)
  have hall : ∀ {s' bits}, Wrote s bits s' → Exceeds s' (emit 0 units.length) := fun hw =>
    he _ _ 0 units.length hw (Nat.le_of_eq (Nat.zero_add _))
  have hroot : inRoot size units.length = true → ∀ {s' bits}, Wrote s bits s' →
      Exceeds s' (packRoot size units.length emit) := by
    intro hs s' bits hw
    obtain ⟨hlo, hhi⟩ := (inRoot_iff size units.length).mp hs
    unfold packRoot
    split
    · exact Packer.exceeds_of_ok rfl
    split
    · exact hall hw
    cases hb : LengthDeterminant.boundedUpper size with
    | some upper =>
      rw [if_pos Option.isSome_some]
      have hu := (LengthDeterminant.boundedUpper_eq_some hb).1
      exact (LengthDeterminant.writes_pack s' hb hlo (hhi upper hu)).bind_exceeds fun s1 hw1 => hall (hw.trans hw1)
    | none =>
      rw [if_neg (by simp)]
      exact hfree hw
  unfold pack
  by_cases hs : inRoot size units.length = true
  · rw [if_pos hs]
    cases extensible with
    | false => exact hroot hs (Wrote.refl s)
    | true => exact (Packer.writes_bit s false).bind_exceeds fun s1 hw => hroot hs hw
  · rw [if_neg hs]
    cases extensible with
    | false => exact Packer.exceeds_throw s rfl
    | true => exact (Packer.writes_bit s true).bind_exceeds fun s1 hw => hfree hw

end SizedContent

/-- Octets can only be too few or too many. -/
theorem OctetString.exceeds_pack (s : τ) (size : Bounds Nat) (extensible : Bool) (value : Octets) :
    Exceeds s (pack size extensible value) :=
  SizedContent.exceeds_of_writesIf (writesIf_pack s size extensible value) id

/-- Bits that their octets hold can only be too few or too many. -/
theorem BitString.exceeds_pack (s : τ) (size : Bounds Nat) (extensible : Bool) {value : BitString}
    (h : value.covered = true) : Exceeds s (pack size extensible value) := by
  have hw := writesIf_pack s size extensible value
  unfold pack at hw ⊢
  rw [if_neg (Nat.not_lt.mpr (of_decide_eq_true h))] at hw ⊢
  exact SizedContent.exceeds_of_writesIf hw fun hfit => ⟨h, hfit⟩

/-- The check of legal octets only finds characters outside the alphabet. -/
theorem CharacterString.isExcess_of_validate {alphabet : Alphabet} {text : Octets} {fault : Fault}
    (h : Utf8.isLegal text = true) (hv : validate alphabet text = .error fault) : fault.isExcess = true := by
  by_cases ha : alphabet = .utf8
  · subst ha
    rw [validate, if_pos h] at hv
    cases hv
  · cases hfind : text.findIdx? fun octet => !permitsOctet alphabet octet with
    | none => cases alphabet <;> first | exact absurd rfl ha | (simp only [validate, hfind] at hv; cases hv)
    | some index => cases alphabet <;> first | exact absurd rfl ha | (simp only [validate, hfind] at hv; cases hv; rfl)

/-- Legal octets can only have a character outside the alphabet or be too few or too many. -/
theorem CharacterString.exceeds_pack (s : τ) (alphabet : Alphabet) (size : Bounds Nat) (extensible : Bool) {text : Octets}
    (h : Utf8.isLegal text = true) : Exceeds s (pack alphabet size extensible text) := by
  have hw := writesIf_pack s alphabet size extensible text
  unfold pack at hw ⊢
  cases hv : validate alphabet text with
  | error fault => exact Packer.exceeds_throw s (isExcess_of_validate h hv)
  | ok _ =>
    rw [hv] at hw
    have hl := (validate_eq_ok alphabet text).mp hv
    cases alphabet with
    | utf8 => exact OctetString.exceeds_pack s .free false text
    | numeric | printable | ia5 | visible => exact SizedContent.exceeds_of_writesIf hw fun hfit => ⟨hl, .inr hfit⟩

end Contents

namespace Writer

/-! ## Fields and containers -/

/-- Wrapping a content as an open type adds no way to fail. -/
theorem exceeds_withContent {w : Writer} (hr : w.Ready) (openType : Bool) {content : WriterM Unit}
    (h : ∀ w', Inside w w' → Exceeds w' content) : Exceeds w (withContent openType content) := by
  cases openType with
  | false => exact h w ⟨hr, rfl, rfl, .inr rfl⟩
  | true =>
    have hinner := h { w with buffer := .empty, presence := none }
      ⟨⟨BitBuffer.clean_empty, hr.claimed, hr.depth, rfl⟩, rfl, rfl, .inl rfl⟩
    intro fault w' he
    rw [withContent, if_pos rfl] at he
    cases hm : content { w with buffer := .empty, presence := none } with
    | ok _ w1 =>
      simp only [inOpenType, hm] at he
      have hpack : Exceeds { w1 with buffer := w.buffer, presence := w.presence } (packContent w1.buffer) :=
        (writes_note _ .verbose _).bind_exceeds fun w2 _ => OctetString.exceeds_pack w2 .free false _
      exact hpack fault w' he
    | error cause w1 =>
      simp only [inOpenType, hm] at he
      cases he
      exact hinner fault w1 hm

/-- After a field was entered, `m` fails for an excess, if it fails. -/
def ExceedsField (m : WriterM Unit) : Prop :=
  ∀ w w' openType, enterField w = .ok openType w' → w'.Ready → Exceeds w m

/-- Outside of a sequence nothing stands in front of a field. -/
theorem ExceedsField.alone {m : WriterM Unit} (h : ExceedsField m) {w : Writer} (hr : w.Ready) (hp : w.presence = none) :
    Exceeds w m :=
  h w w false (enterField_of_none hp hr.claimed) hr

/-- A field without parts. -/
theorem exceedsField_field {content : WriterM Unit} (h : ∀ w, Exceeds w content) : ExceedsField (field content) := by
  intro w w' openType he hr
  refine (Packer.exceeds_of_ok he).bind fun found w1 hm => ?_
  rw [he] at hm
  cases hm
  exact exceeds_withContent hr openType fun w2 _ => h w2

/-- A field with parts, which lie one container deeper. -/
theorem exceedsField_container {content : WriterM Unit} (h : ∀ w, w.Ready → Exceeds w content) :
    ExceedsField (container content) := by
  intro w w' openType he hr
  refine (Packer.exceeds_of_ok he).bind fun found w1 hm => ?_
  rw [he] at hm
  cases hm
  by_cases hd : w'.depth ≥ w'.settings.maxDepth
  · refine Packer.Exceeds.bind (Packer.exceeds_of_ok rfl) fun w1 w2 hg => ?_
    cases hg
    rw [if_pos hd]
    exact (Packer.exceeds_throw _ rfl).bind fun _ _ hthrow => by cases hthrow
  · have hready : Ready { w' with depth := w'.depth + 1 } := ⟨hr.clean, hr.claimed, Nat.not_le.mp hd, hr.unread⟩
    have hinner := (exceeds_withContent hready openType fun w1 hi => h w1 hi.ready).afterwards
      fun w => { w with depth := w.depth - 1 }
    intro fault w2 hm
    refine hinner fault w2 (Eq.trans ?_ hm)
    simp only [run_bind, run_get, if_neg hd]
    rfl

/-- An action with presence bits of its own. -/
theorem exceeds_withPresence {w : Writer} {presence : Option Presence} {action : WriterM Unit}
    (h : Exceeds { w with presence := presence } action) : Exceeds w (withPresence presence action) :=
  h.afterwards fun w' : Writer => { w' with presence := w.presence }

/-- An action outside of any sequence. -/
theorem exceeds_withPresence_none {w : Writer} (hr : w.Ready) {action : WriterM Unit}
    (h : ∀ w', w'.Ready → w'.presence = none → Exceeds w' action) : Exceeds w (withPresence none action) :=
  exceeds_withPresence (h _ ⟨hr.clean, hr.claimed, hr.depth, hr.unread⟩ rfl)

/-- Elements that each fail for an excess, if they fail. -/
theorem exceeds_elements {element : Nat → WriterM Unit} {units : List (List Bool)} {conforms : Nat → Prop}
    {nesting : Nat → Nat} (h : ∀ i (hi : i < units.length), WritesField (element i) (conforms i) (nesting i) units[i])
    (he : ∀ i, i < units.length → ExceedsField (element i)) (count : Nat) :
    ∀ w offset, w.Ready → w.presence = none → offset + count ≤ units.length → Exceeds w (elements element offset count) := by
  induction count with
  | zero => exact fun w offset _ _ _ => Packer.exceeds_of_ok rfl
  | succ count ih =>
    intro w offset hr hp hlen
    have hi : offset < units.length := by omega
    rw [elements]
    refine ((h offset hi).alone hr hp).bind_exceeds ((he offset hi).alone hr hp) fun w' hw => ?_
    exact ih w' (offset + 1) (hr.wrote hw) (hw.2.2.trans hp) (by omega)

/-- A SEQUENCE OF of such elements. -/
theorem exceedsField_sequenceOf (c : Constraint) {element : Nat → WriterM Unit} {units : List (List Bool)}
    {conforms : Nat → Prop} {nesting : Nat → Nat}
    (h : ∀ i (hi : i < units.length), WritesField (element i) (conforms i) (nesting i) units[i])
    (he : ∀ i, i < units.length → ExceedsField (element i)) : ExceedsField (sequenceOf c units.length element) := by
  refine exceedsField_container fun w hr => (writes_note w .basic _).bind_exceeds fun w1 hw1 => ?_
  refine exceeds_withPresence_none (hr.wrote hw1) fun w2 hr2 hp2 => ?_
  have hemit : SizedContent.Emits w2 (elements element) units
      fun i => conforms i ∧ w2.depth + nesting i ≤ w2.settings.maxDepth := by
    intro w3 bits offset count hw3 hlen
    have hw := writesIf_elements h count w3 offset (hr2.wrote hw3) (hw3.2.2.trans hp2) hlen
    rw [hw3.2.1.depth, hw3.2.1.settings] at hw
    exact hw
  refine SizedContent.exceeds_pack hemit (fun w3 bits offset count hw3 hlen => ?_) c.size c.extensible
  exact exceeds_elements h he count w3 offset (hr2.wrote hw3) (hw3.2.2.trans hp2) hlen

/-- A CHOICE of an alternative that there is. -/
theorem exceedsField_choice (c : Constraint) (hc : c.count ≤ 2 ^ 64) {alternative : UInt64} {payload : WriterM Unit}
    (ha : alternative.toNat < c.count) (h : ExceedsField payload) : ExceedsField (choice c alternative payload) := by
  refine exceedsField_container fun w hr => ?_
  refine ((writesIf_index w c hc alternative).1 ha).bind_exceeds fun w1 hw1 => ?_
  refine (writes_note w1 .basic _).bind_exceeds fun w2 hw2 => ?_
  refine exceeds_withPresence_none ((hr.wrote hw1).wrote hw2) fun w3 hr3 hp3 => ?_
  refine exceeds_withContent hr3 _ fun w4 hi => h.alone hi.ready ?_
  exact hi.presence.elim id fun hp => hp.trans hp3

end Writer

end UnalignedPer
