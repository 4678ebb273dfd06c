import UnalignedPer.Message.Writer
import UnalignedPer.Proofs.BitBuffer
import UnalignedPer.Proofs.Presence

/-!
# Writing behind other bits

A message may be written behind bits that are there already. Presence bits are then set at positions further back, extension
blocks are dropped from further back, and nothing else is different. `Writer.Behind` relates a writer to one that holds some
bits in front of the same ones, and `Writer.Parallel` says of two actions that they come to the same on such writers, whether
they succeed or fail.

A position is `front.length` bits further back. All other results are equal, which is `Writer.Movable`.
-/

namespace UnalignedPer

namespace BitBuffer

/-- A word of any width is appended as bits that do not depend on the buffer. -/
theorem exists_adds_pushWord (value : UInt64) (width : Nat) : ∃ bits, ∀ b : BitBuffer, b.Adds bits (b.pushWord value width) := by
  induction width with
  | zero => exact ⟨[], Adds.refl⟩
  | succ width ih =>
    obtain ⟨bits, h⟩ := ih
    exact ⟨[_] ++ bits, fun b => (adds_push b _).trans (h _)⟩

end BitBuffer

/-! ## Presence bits further back -/

/-- The step for a field that stands further back. -/
def SlotStep.moved (distance : Nat) : SlotStep → SlotStep
  | .marked position openType => .marked (distance + position) openType
  | step => step

namespace Presence

/-- The presence bits of a sequence that stands further back. -/
def moved (distance : Nat) (p : Presence) : Presence :=
  { p with
    ahead := ⟨distance + p.ahead.start, distance + p.ahead.stop⟩
    first := distance + p.first
    header := p.header.map (distance + ·) }

/-- A run of presence bits is over further back exactly where it is over. -/
theorem isEmpty_moved (distance : Nat) (p : Presence) : (p.moved distance).ahead.isEmpty = p.ahead.isEmpty := by
  simp only [moved, BitRange.isEmpty, Nat.add_le_add_iff_left, ge_iff_le]

/-- A presence bit is taken at its position further back. -/
theorem takeBit_moved (distance : Nat) (p : Presence) (openType : Bool) :
    (p.moved distance).takeBit openType =
      ((p.takeBit openType).1.map (SlotStep.moved distance), (p.takeBit openType).2.moved distance) := rfl

/-- A field in front of the marker is visited in the same way further back. -/
theorem visitStandard_moved (distance : Nat) (p : Presence) (optional : Bool) :
    (p.moved distance).visitStandard optional =
      ((p.visitStandard optional).1.map (SlotStep.moved distance), (p.visitStandard optional).2.moved distance) := by
  unfold visitStandard
  rw [isEmpty_moved]
  split
  · rfl
  · split
    · rfl
    · exact takeBit_moved distance p false

/-- An entry behind the marker is visited in the same way further back. -/
theorem visitExtension_moved (distance : Nat) (p : Presence) :
    (p.moved distance).visitExtension =
      (p.visitExtension.1.map (SlotStep.moved distance), p.visitExtension.2.moved distance) := by
  unfold visitExtension
  rw [isEmpty_moved]
  split
  · rw [show (p.moved distance).lenient = p.lenient from rfl]
    split <;> rfl
  · exact takeBit_moved distance p true

/-- A field that stands further back is visited in the same way. -/
theorem visit_moved (distance : Nat) (p : Presence) (optional : Bool) :
    (p.moved distance).visit optional =
      ((p.visit optional).1.map (SlotStep.moved distance), (p.visit optional).2.moved distance) := by
  have hrule : (p.moved distance).rule = p.rule := rfl
  have hleft : (p.moved distance).standardLeft = p.standardLeft := rfl
  have hextensions : (p.moved distance).extensions = p.extensions := rfl
  unfold visit
  rw [hrule, hleft, hextensions]
  split
  · exact visitExtension_moved distance p
  · exact visitStandard_moved distance p optional
  · split
    · split <;> rfl
    · exact visitStandard_moved distance { p with standardLeft := p.standardLeft - 1 } optional

/-- The presence bits of a sequence further back are those of the sequence, moved. -/
theorem opening_moved (distance start : Nat) (c : Constraint) :
    opening c (distance + start) = (opening c start).moved distance := by
  unfold opening
  rw [Nat.add_assoc]
  split <;> rfl

end Presence

namespace Writer

/-! ## Two runs beside each other -/

/-- `w` is `t` with some bits in front of its own. -/
structure Behind (front : List Bool) (t w : Writer) : Prop where
  /-- The bits in front come first. -/
  bits : w.buffer.toList = front ++ t.buffer.toList
  /-- Nothing is set past the written bits. -/
  clean : t.buffer.Clean
  /-- Nothing is set past the written bits of the longer one. -/
  clean_longer : w.buffer.Clean
  /-- The presence bits stand further back. -/
  presence : w.presence = t.presence.map (Presence.moved front.length)
  /-- The same field is claimed, if one is. -/
  claimed : w.claimed = t.claimed
  /-- As many containers are open. -/
  depth : w.depth = t.depth
  /-- The settings are the same. -/
  settings : w.settings = t.settings

/-- `t'` stands where `t` stood: in no sequence and behind no claimed field if `t` did, and with as many containers open. -/
structure Settles (t t' : Writer) : Prop where
  /-- Outside of a sequence it stays outside. -/
  presence : t.presence = none → t'.presence = none
  /-- No field stays claimed. -/
  claimed : t.claimed = none → t'.claimed = none
  /-- As many containers are open. -/
  depth : t'.depth = t.depth
  /-- The settings are the same. -/
  settings : t'.settings = t.settings

/-- A writer stands where it stands. -/
theorem Settles.refl (t : Writer) : t.Settles t :=
  ⟨id, id, rfl, rfl⟩

/-- What stands where the second writer stood, which stands where the first one stood, stands where the first one stood. -/
theorem Settles.trans {t t' t'' : Writer} (h : t.Settles t') (h' : t'.Settles t'') : t.Settles t'' :=
  ⟨h'.presence ∘ h.presence, h'.claimed ∘ h.claimed, h'.depth.trans h.depth, h'.settings.trans h.settings⟩

variable {α β : Type} {front : List Bool} {R : α → α → Prop} {S : β → β → Prop}

/-- Two runs, the first from `t` on, come to results that belong together or to the same fault. -/
inductive Outcomes (front : List Bool) (R : α → α → Prop) (t : Writer) :
    EStateM.Result Fault Writer α → EStateM.Result Fault Writer α → Prop
  /-- Both succeed. -/
  | ok {x y : α} {t' w' : Writer} (result : R x y) (settles : t.Settles t') (behind : Behind front t' w') :
      Outcomes front R t (.ok x t') (.ok y w')
  /-- Both fail. -/
  | error {fault : Fault} {t' w' : Writer} (settles : t.Settles t') (behind : Behind front t' w') :
      Outcomes front R t (.error fault t') (.error fault w')

/-- On a writer and behind some bits in front two actions come to the same. -/
def Parallel (front : List Bool) (R : α → α → Prop) (m m' : WriterM α) : Prop :=
  ∀ t w, Behind front t w → Outcomes front R t (m t) (m' w)

/-- An action comes to the same behind any bits. -/
def Movable (m : WriterM α) : Prop :=
  ∀ front, Parallel front Eq m m

/-- Two runs may be counted from an earlier state if the later one stands where it stood. -/
theorem Outcomes.of_settles {t s : Writer} {a b : EStateM.Result Fault Writer α} (h : Outcomes front R s a b)
    (hs : t.Settles s) : Outcomes front R t a b := by
  cases h with
  | ok result settles behind => exact .ok result (hs.trans settles) behind
  | error settles behind => exact .error (hs.trans settles) behind

/-- Both runs succeed or both fail. -/
theorem Parallel.cases {m m' : WriterM α} (h : Parallel front R m m') {t w : Writer} (hb : Behind front t w) :
    (∃ x y t' w', m t = .ok x t' ∧ m' w = .ok y w' ∧ R x y ∧ t.Settles t' ∧ Behind front t' w') ∨
      ∃ fault t' w', m t = .error fault t' ∧ m' w = .error fault w' ∧ t.Settles t' ∧ Behind front t' w' := by
  have hout := h t w hb
  generalize m t = a, m' w = b at hout
  cases hout with
  | ok result settles behind => exact .inl ⟨_, _, _, _, rfl, rfl, result, settles, behind⟩
  | error settles behind => exact .inr ⟨_, _, _, rfl, rfl, settles, behind⟩

/-- Results that belong together, without a step. -/
theorem parallel_pure {x y : α} (h : R x y) : Parallel front R (pure x) (pure y) :=
  fun t _ hb => .ok h (.refl t) hb

/-- The same failure on both sides. -/
theorem parallel_throw (fault : Fault) : Parallel front R (throw fault) (throw fault) :=
  fun t _ hb => .error (.refl t) hb

/-- Parallel runs followed by parallel runs are parallel, from whatever results belong together. -/
theorem Parallel.bind {m m' : WriterM α} {f f' : α → WriterM β} (h : Parallel front R m m')
    (h' : ∀ x y, R x y → Parallel front S (f x) (f' y)) : Parallel front S (m >>= f) (m' >>= f') := by
  intro t w hb
  rw [run_bind, run_bind]
  rcases h.cases hb with ⟨x, y, t', w', hm, hm', result, settles, behind⟩ | ⟨fault, t', w', hm, hm', settles, behind⟩
  · rw [hm, hm']
    exact (h' x y result t' w' behind).of_settles settles
  · rw [hm, hm']
    exact .error settles behind

/-- What was found of the writers can be used by what follows. -/
theorem parallel_get_bind {f f' : Writer → WriterM β} (h : ∀ t w, Behind front t w → Parallel front S (f t) (f' w)) :
    Parallel front S (get >>= f) (get >>= f') :=
  fun t w hb => h t w hb t w hb

/-- A choice between parallel runs is parallel. -/
theorem parallel_ite {c : Prop} [Decidable c] {m m' n n' : WriterM α} (h : Parallel front R m m') (h' : Parallel front R n n') :
    Parallel front R (if c then m else n) (if c then m' else n') := by
  split
  · exact h
  · exact h'

/-- A change of the writers that leaves one behind the other. -/
theorem parallel_modify {f f' : Writer → Writer}
    (h : ∀ t w, Behind front t w → t.Settles (f t) ∧ Behind front (f t) (f' w)) :
    Parallel front Eq (modify f : WriterM Unit) (modify f') :=
  fun t w hb => .ok rfl (h t w hb).1 (h t w hb).2

/-- An action between a change of the writer and another one that takes it back, be the action successful or not. -/
theorem Parallel.between {m m' : WriterM α} (enter enter' : Writer → Writer) (leave leave' : Writer → Writer → Writer)
    (h : Parallel front R m m') (henter : ∀ t w, Behind front t w → Behind front (enter t) (enter' w))
    (hleave : ∀ t w, Behind front t w → ∀ t' w', (enter t).Settles t' → Behind front t' w' →
      t.Settles (leave t t') ∧ Behind front (leave t t') (leave' w w')) :
    Parallel front R (fun t => afterwards (leave t) m (enter t)) (fun w => afterwards (leave' w) m' (enter' w)) := by
  intro t w hb
  unfold afterwards
  rcases h.cases (henter t w hb) with ⟨x, y, t', w', hm, hm', result, settles, behind⟩ | ⟨fault, t', w', hm, hm', settles, behind⟩
  · obtain ⟨hs, hb'⟩ := hleave t w hb t' w' settles behind
    simp only [hm, hm']
    exact .ok result hs hb'
  · obtain ⟨hs, hb'⟩ := hleave t w hb t' w' settles behind
    simp only [hm, hm']
    exact .error hs hb'

section Movable

variable {m : WriterM α}

/-- A result alone does not depend on the bits in front. -/
theorem movable_pure (x : α) : Movable (pure x) :=
  fun _ => parallel_pure rfl

/-- A failure does not depend on the bits in front. -/
theorem movable_throw (fault : Fault) : Movable (throw fault : WriterM α) :=
  fun _ => parallel_throw fault

/-- Two actions in a row do not depend on the bits in front if neither of them does. -/
theorem Movable.bind {f : α → WriterM β} (h : Movable m) (h' : ∀ x, Movable (f x)) : Movable (m >>= f) := by
  intro front
  refine (h front).bind ?_
  rintro x _ rfl
  exact h' x front

/-- A choice between actions that do not depend on the bits in front. -/
theorem movable_ite {c : Prop} [Decidable c] {m n : WriterM α} (h : Movable m) (h' : Movable n) :
    Movable (if c then m else n) :=
  fun front => parallel_ite (h front) (h' front)

end Movable

/-! ## Bits -/

/-- Bits that are appended stand behind the bits in front. -/
theorem movable_modifyBuffer {f : BitBuffer → BitBuffer} {bits : List Bool} (h : ∀ b : BitBuffer, b.Adds bits (f b)) :
    Movable (Packer.modifyBuffer f) := by
  intro front t w hb
  refine .ok rfl ⟨id, id, rfl, rfl⟩ { hb with
    bits := ?_
    clean := (h t.buffer).clean hb.clean
    clean_longer := (h w.buffer).clean hb.clean_longer }
  refine (h w.buffer).toList.trans ?_
  rw [hb.bits, List.append_assoc]
  exact congrArg (front ++ ·) (h t.buffer).toList.symm

/-- A bit is written behind any bits. -/
theorem movable_bit (value : Bool) : Movable (Packer.bit value) :=
  movable_modifyBuffer fun b => b.adds_push value

/-- A word is written behind any bits. -/
theorem movable_word (value : UInt64) (width : Nat) : Movable (Packer.word value width) := by
  obtain ⟨bits, h⟩ := BitBuffer.exists_adds_pushWord value width
  exact movable_modifyBuffer h

/-- Zeros are written behind any bits. -/
theorem movable_zeros (count : Nat) : Movable (Packer.zeros count) :=
  movable_modifyBuffer fun b => b.adds_pushZeros count

/-- A run of bits is written behind any bits. -/
theorem movable_run (src : Octets) (offset length : Nat) : Movable (Packer.run src offset length) :=
  movable_modifyBuffer fun b => b.adds_append src offset length

/-- The place of writing is further back. -/
theorem Behind.writePosition {t w : Writer} (h : Behind front t w) :
    w.buffer.writePosition = front.length + t.buffer.writePosition := by
  rw [← BitBuffer.length_toList, h.bits, List.length_append, BitBuffer.length_toList]

/-- The bits in front are followed by the same ones. -/
theorem Behind.getBit {t w : Writer} (h : Behind front t w) (q : Nat) :
    Octets.getBit w.buffer.storage (front.length + q) = Octets.getBit t.buffer.storage q := by
  rw [BitBuffer.getBit_storage h.clean_longer, BitBuffer.getBit_storage h.clean, h.bits,
    List.getD_eq_getElem?_getD, List.getD_eq_getElem?_getD, List.getElem?_append_right (Nat.le_add_right ..),
    Nat.add_sub_cancel_left]

/-- The position is further back by as many bits as stand in front. -/
theorem parallel_position : Parallel front (fun x y => y = front.length + x) Packer.position Packer.position :=
  fun t _ hb => .ok hb.writePosition (.refl t) hb

/-- A bit further back is set in the same way. -/
theorem parallel_overwrite (position : Nat) (value : Bool) :
    Parallel front Eq (Packer.overwrite position value) (Packer.overwrite (front.length + position) value) := by
  intro t w hb
  have hpos := hb.writePosition
  by_cases hlt : position < t.buffer.writePosition
  · have hlt' : front.length + position < w.buffer.writePosition := by omega
    have ht : Packer.overwrite position value t = .ok () { t with buffer := t.buffer.put position value } := if_pos hlt
    have hw : Packer.overwrite (front.length + position) value w =
        .ok () { w with buffer := w.buffer.put (front.length + position) value } := if_pos hlt'
    rw [ht, hw]
    refine .ok rfl ⟨id, id, rfl, rfl⟩ { hb with
      bits := ?_
      clean := BitBuffer.clean_put value hb.clean hlt
      clean_longer := BitBuffer.clean_put value hb.clean_longer hlt' }
    rw [BitBuffer.toList_put _ _ value hb.clean_longer, BitBuffer.toList_put _ _ value hb.clean, hb.bits,
      List.set_append_right _ _ (Nat.le_add_right ..), Nat.add_sub_cancel_left]
  · have ht : Packer.overwrite position value t = .error .endOfStream t := if_neg hlt
    have hw : Packer.overwrite (front.length + position) value w = .error .endOfStream w :=
      if_neg (show ¬ front.length + position < w.buffer.writePosition by omega)
    rw [ht, hw]
    exact .error (.refl t) hb

/-- Bits further back are dropped in the same way. -/
theorem parallel_truncate (length : Nat) :
    Parallel front Eq (Packer.modifyBuffer (·.truncate length) : WriterM Unit)
      (Packer.modifyBuffer (·.truncate (front.length + length))) := by
  intro t w hb
  refine .ok rfl ⟨id, id, rfl, rfl⟩ { hb with
    bits := ?_
    clean := hb.clean.truncate length
    clean_longer := hb.clean_longer.truncate (front.length + length) }
  refine (BitBuffer.toList_truncate_eq_take _ _).trans ?_
  rw [show (BitSink.buffer w).toList = front ++ t.buffer.toList from hb.bits, List.take_length_add_append]
  exact congrArg (front ++ ·) (BitBuffer.toList_truncate_eq_take _ _).symm

/-! ## Numbers and sized contents -/

/-- A length without bounds is written behind any bits. -/
theorem movable_packLengthFree (length : Nat) : Movable (LengthDeterminant.packFree length) :=
  movable_ite ((movable_bit _).bind fun _ => movable_word _ _) <|
    movable_ite ((movable_bit _).bind fun _ => (movable_bit _).bind fun _ => movable_word _ _)
      ((movable_bit _).bind fun _ => (movable_bit _).bind fun _ => movable_word _ _)

/-- A length is written behind any bits. -/
theorem movable_packLength (bounds : Bounds Nat) (length : Nat) : Movable (LengthDeterminant.pack bounds length) := by
  unfold LengthDeterminant.pack
  split
  · exact movable_ite (movable_throw _) ((movable_word _ _).bind fun _ => movable_pure _)
  · exact movable_ite (movable_throw _) ((movable_packLengthFree _).bind fun _ => movable_pure _)

/-- A number between two words is written behind any bits. -/
theorem movable_packWithin (lower upper value : UInt64) : Movable (WholeNumber.packWithin lower upper value) :=
  movable_ite (movable_throw _) (movable_word _ _)

/-- The magnitude of a number is written behind any bits. -/
theorem movable_packMagnitude (value : UInt64) : Movable (WholeNumber.packMagnitude value) :=
  (movable_packLengthFree _).bind fun _ => movable_word _ _

/-- A number that is normally small is written behind any bits. -/
theorem movable_packSmall (value : UInt64) : Movable (WholeNumber.packSmall value) :=
  movable_ite ((movable_bit _).bind fun _ => movable_word _ _) ((movable_bit _).bind fun _ => movable_packMagnitude _)

/-- A number without bounds is written behind any bits. -/
theorem movable_packSignedFree (value : Int64) : Movable (WholeNumber.packFree value) :=
  (movable_packLengthFree _).bind fun _ => movable_ite (movable_throw _) (movable_word _ _)

/-- A number between the bounds of a type is written behind any bits. -/
theorem movable_packIntegerRoot (bounds : Bounds Int64) (value : Int64) : Movable (WholeNumber.packRoot bounds value) := by
  unfold WholeNumber.packRoot
  split
  · exact movable_ite (movable_throw _) (movable_word _ _)
  · exact movable_ite (movable_throw _) (movable_packMagnitude _)
  · exact movable_ite (movable_throw _) (movable_packSignedFree _)
  · exact movable_packSignedFree _

/-- An integer is written behind any bits. -/
theorem movable_packInteger (bounds : Bounds Int64) (extensible : Bool) (value : Int64) :
    Movable (WholeNumber.packInteger bounds extensible value) :=
  movable_ite (movable_ite ((movable_bit _).bind fun _ => movable_packIntegerRoot _ _)
    ((movable_bit _).bind fun _ => movable_packSignedFree _)) (movable_packIntegerRoot _ _)

/-- The index of an alternative is written behind any bits. -/
theorem movable_packIndex (standard : Nat) (extensible : Bool) (index : UInt64) :
    Movable (ChoiceIndex.pack standard extensible index) :=
  movable_ite (movable_ite ((movable_bit _).bind fun _ => movable_packSmall _) (movable_throw _))
    (movable_ite ((movable_bit _).bind fun _ => movable_packWithin _ _ _) (movable_packWithin _ _ _))

section Sized

variable {emit : Nat → Nat → WriterM Unit} (hemit : ∀ offset count, Movable (emit offset count))

include hemit

/-- Chunks are written behind any bits if their units are. -/
theorem movable_packFree (offset rest : Nat) : Movable (SizedContent.packFree emit offset rest) := by
  induction rest using Nat.strongRecOn generalizing offset with
  | _ rest ih =>
    rw [SizedContent.packFree.eq_def]
    refine (movable_packLengthFree _).bind fun _ => (hemit _ _).bind fun _ => ?_
    split
    · exact movable_pure _
    · rename_i hlast
      have := LengthDeterminant.covered_bounds rest hlast
      exact ih _ (by omega) _

/-- A sized content can be moved if its chunks can. -/
theorem movable_packSized (size : Bounds Nat) (extensible : Bool) (count : Nat) :
    Movable (SizedContent.pack size extensible count emit) := by
  have hroot : Movable (SizedContent.packRoot size count emit) :=
    movable_ite (movable_pure _) (movable_ite (hemit 0 count)
      (movable_ite ((movable_packLength _ _).bind fun _ => hemit 0 count) (movable_packFree hemit 0 count)))
  exact movable_ite (movable_ite ((movable_bit _).bind fun _ => hroot) hroot)
    (movable_ite ((movable_bit _).bind fun _ => movable_packFree hemit 0 count) (movable_throw _))

end Sized

/-- An octet string is written behind any bits. -/
theorem movable_packOctets (size : Bounds Nat) (extensible : Bool) (value : Octets) :
    Movable (OctetString.pack size extensible value) :=
  movable_packSized (fun _ _ => movable_run _ _ _) _ _ _

/-- A bit string is written behind any bits. -/
theorem movable_packBits (size : Bounds Nat) (extensible : Bool) (value : BitString) :
    Movable (BitString.pack size extensible value) :=
  movable_ite (movable_throw _) (movable_packSized (fun _ _ => movable_run _ _ _) _ _ _)

/-- Some characters of a string are written behind any bits. -/
theorem movable_packCharacters (alphabet : Alphabet) (text : Octets) (index count : Nat) :
    Movable (CharacterString.packCharacters alphabet text index count) := by
  induction count generalizing index with
  | zero => exact movable_pure _
  | succ count ih => exact (movable_word _ _).bind fun _ => ih (index + 1)

/-- A character string is written behind any bits. -/
theorem movable_packText (alphabet : Alphabet) (size : Bounds Nat) (extensible : Bool) (text : Octets) :
    Movable (CharacterString.pack alphabet size extensible text) := by
  unfold CharacterString.pack
  split
  · exact movable_throw _
  · split
    · exact movable_packOctets _ _ _
    · exact movable_packSized (movable_packCharacters alphabet text) _ _ _

end Writer

end UnalignedPer
