import UnalignedPer.BitBuffer
import UnalignedPer.Proofs.Bits
import UnalignedPer.Proofs.Octets.Copy
import UnalignedPer.Proofs.Running

/-!
# What is appended to a buffer

A buffer is the list of its written bits (`BitBuffer.toList`). Every way of writing adds bits at the end of that list
(`BitBuffer.Adds`), `put` replaces one of them and `truncate` drops the last ones. All of them keep a buffer clean: nothing
is set past the written bits, so the last octet of its content is filled up with zeros.

A sink is written to through its buffer alone; `Packer.Writes` says which bits an action appends, and such statements chain.
-/

namespace UnalignedPer

namespace BitBuffer

/-- The storage holds all written bits and nothing else. -/
structure Clean (b : BitBuffer) : Prop where
  /-- The written bits lie in the storage. -/
  covered : b.writePosition ≤ b.storage.size * 8
  /-- Past the written bits nothing is set. -/
  blank : ∀ q, b.writePosition ≤ q → Octets.getBit b.storage q = false

/-- `b'` is `b` with some bits appended. -/
structure Adds (b : BitBuffer) (bits : List Bool) (b' : BitBuffer) : Prop where
  /-- The bits stand behind those that were there. -/
  toList : b'.toList = b.toList ++ bits
  /-- A clean buffer stays clean. -/
  clean : b.Clean → b'.Clean
  /-- Reading goes on from the same place. -/
  readPosition : b'.readPosition = b.readPosition

/-- A buffer has as many bits as were written. -/
@[simp] theorem length_toList (b : BitBuffer) : b.toList.length = b.writePosition :=
  Octets.length_bitsFrom _ _ _

/-- Nothing is set in an empty buffer. -/
theorem clean_empty : empty.Clean :=
  ⟨Nat.zero_le _, fun _ _ => Octets.getBit_of_le _ (Nat.zero_le _)⟩

/-- No bits are added to a buffer that stays as it is. -/
theorem Adds.refl (b : BitBuffer) : b.Adds [] b :=
  ⟨(List.append_nil _).symm, id, rfl⟩

/-- Bits that are added behind others are added with them. -/
theorem Adds.trans {b b' b'' : BitBuffer} {bits more : List Bool} (h : b.Adds bits b') (h' : b'.Adds more b'') :
    b.Adds (bits ++ more) b'' :=
  ⟨by rw [h'.toList, h.toList, List.append_assoc], fun hc => h'.clean (h.clean hc), h'.readPosition.trans h.readPosition⟩

/-- The write position moves by the number of bits appended. -/
theorem Adds.writePosition {b b' : BitBuffer} {bits : List Bool} (h : b.Adds bits b') :
    b'.writePosition = b.writePosition + bits.length := by
  rw [← length_toList, h.toList, List.length_append, length_toList]

/-! ## Appending -/

/-- Room that is made is not written. -/
@[simp] theorem writePosition_reserve (b : BitBuffer) (total : Nat) : (b.reserve total).writePosition = b.writePosition := by
  simp only [reserve]
  split <;> rfl

/-- Room that is made is not read. -/
@[simp] theorem readPosition_reserve (b : BitBuffer) (total : Nat) : (b.reserve total).readPosition = b.readPosition := by
  simp only [reserve]
  split <;> rfl

/-- Room that is made changes no bit. -/
@[simp] theorem getBit_reserve (b : BitBuffer) (total q : Nat) :
    Octets.getBit (b.reserve total).storage q = Octets.getBit b.storage q := by
  simp only [reserve]
  split
  · exact Octets.getBit_growTo _ _ _
  · rfl

/-- After `reserve` there is room for the bits asked for. -/
theorem le_size_reserve (b : BitBuffer) (total : Nat) : total ≤ (b.reserve total).storage.size * 8 := by
  simp only [reserve]
  split
  · simp only [Octets.size_growTo, Octets.countFor]
    omega
  · rename_i h
    simp only [Octets.countFor] at h
    omega

/-- Bits that are written over the front of the free storage are appended. -/
theorem adds_of_getBit {b b' : BitBuffer} (bits : List Bool) (hw : b'.writePosition = b.writePosition + bits.length)
    (hr : b'.readPosition = b.readPosition) (hroom : b'.writePosition ≤ b'.storage.size * 8)
    (hnew : ∀ i (h : i < bits.length), Octets.getBit b'.storage (b.writePosition + i) = bits[i])
    (hold : ∀ q, q < b.writePosition ∨ b'.writePosition ≤ q → Octets.getBit b'.storage q = Octets.getBit b.storage q) :
    b.Adds bits b' := by
  refine ⟨?_, fun hc => ⟨hroom, fun q hq => ?_⟩, hr⟩
  · rw [toList, hw, Octets.bitsFrom_add, Nat.zero_add]
    congr 1
    · apply Octets.bitsFrom_congr
      intro i hi
      exact hold _ (Or.inl (by omega))
    · apply List.ext_getElem (Octets.length_bitsFrom _ _ _)
      intro i h1 h2
      rw [Octets.getElem_bitsFrom]
      exact hnew i h2
  · rw [hold q (Or.inr hq)]
    exact hc.blank q (by omega)

/-- Appending a bit. -/
theorem adds_push (b : BitBuffer) (bit : Bool) : b.Adds [bit] (b.push bit) := by
  have hroom := le_size_reserve b (b.writePosition + 1)
  refine adds_of_getBit [bit] (by simp [push]) (by simp [push]) (by simpa [push] using hroom) ?_ ?_
  · intro i hi
    obtain rfl : i = 0 := by simpa using hi
    simp only [push, writePosition_reserve, Nat.add_zero, List.getElem_cons_zero]
    rw [Octets.getBit_setBit, if_pos ⟨rfl, by omega⟩]
  · intro q hq
    simp only [push, writePosition_reserve] at hq ⊢
    rw [Octets.getBit_setBit, if_neg (by omega), getBit_reserve]

/-- Appending a run of bits of some octets. -/
theorem adds_append (b : BitBuffer) (src : Octets) (offset length : Nat) :
    b.Adds (Octets.bitsFrom src offset length) (b.append src offset length) := by
  have hroom := le_size_reserve b (b.writePosition + length)
  refine adds_of_getBit _ (by simp [append]) (by simp [append]) (by simpa [append] using hroom) ?_ ?_
  · intro i hi
    rw [Octets.length_bitsFrom] at hi
    simp only [append, writePosition_reserve, Octets.getBit_copyBits, Octets.getElem_bitsFrom]
    rw [if_pos (by omega), Nat.add_sub_cancel_left]
  · intro q hq
    simp only [append, writePosition_reserve] at hq ⊢
    rw [Octets.getBit_copyBits, if_neg (by omega), getBit_reserve]

/-- Appending zero bits. -/
theorem adds_pushZeros (b : BitBuffer) (count : Nat) : b.Adds (List.replicate count false) (b.pushZeros count) := by
  induction count generalizing b with
  | zero => exact Adds.refl b
  | succ count ih => exact (adds_push b false).trans (ih (b.push false))

/-- A digit of a word, as it is singled out for writing. -/
theorem shiftRight_and_one (value : UInt64) (k : Nat) (h : k < 64) :
    ((value >>> UInt64.ofNat k) &&& 1 != 0) = value.toNat.testBit k := by
  have hk : (UInt64.ofNat k).toNat % 64 = k := by
    rw [UInt64.toNat_ofNat']
    omega
  have hn : ((value >>> UInt64.ofNat k) &&& 1).toNat = (value.toNat.testBit k).toNat := by
    rw [UInt64.toNat_and, UInt64.toNat_shiftRight, hk, Nat.toNat_testBit, Nat.shiftRight_eq_div_pow]
    exact Nat.and_one_is_mod _
  cases hb : value.toNat.testBit k with
  | false =>
    rw [hb] at hn
    rw [bne_eq_false_iff_eq, ← UInt64.toNat_inj]
    exact hn
  | true =>
    rw [hb] at hn
    rw [bne_iff_ne, ne_eq, ← UInt64.toNat_inj, hn]
    decide

/-- Appending the digits of a word. -/
theorem adds_pushWord (b : BitBuffer) (value : UInt64) (width : Nat) (h : width ≤ 64) :
    b.Adds (Bits.ofNat value.toNat width) (b.pushWord value width) := by
  induction width generalizing b with
  | zero => exact Adds.refl b
  | succ width ih =>
    rw [pushWord, Bits.ofNat, shiftRight_and_one value width (by omega)]
    exact (adds_push b _).trans (ih _ (by omega))

/-! ## Overwriting and dropping -/

/-- Overwriting a bit replaces it, whatever else the storage holds. -/
theorem toList_put_of_le {b : BitBuffer} (position : Nat) (bit : Bool) (hcov : b.writePosition ≤ b.storage.size * 8) :
    (b.put position bit).toList = b.toList.set position bit := by
  apply List.ext_getElem
  · simp [put, toList]
  · intro i h1 h2
    have hi : i < b.writePosition := by simpa [put, toList] using h1
    simp only [put, toList, Octets.getElem_bitsFrom, Octets.getBit_setBit, List.getElem_set, Nat.zero_add]
    by_cases hp : position = i
    · rw [if_pos hp, if_pos (by omega)]
    · rw [if_neg hp, if_neg (by omega)]

/-- Overwriting a bit replaces it. -/
theorem toList_put (b : BitBuffer) (position : Nat) (bit : Bool) (hc : b.Clean) :
    (b.put position bit).toList = b.toList.set position bit :=
  toList_put_of_le position bit hc.covered

/-- A written bit that is changed leaves nothing set past the written ones. -/
theorem clean_put {b : BitBuffer} {position : Nat} (bit : Bool) (hc : b.Clean) (hp : position < b.writePosition) :
    (b.put position bit).Clean := by
  refine ⟨by simpa [put] using hc.covered, fun q hq => ?_⟩
  simp only [put] at hq ⊢
  rw [Octets.getBit_setBit, if_neg (by omega)]
  exact hc.blank q hq

/-- Dropping bits leaves the front of the list, and the storage they lay in is blank. -/
theorem toList_truncate (b : BitBuffer) (length : Nat) (h : length < b.writePosition) :
    (b.truncate length).toList = b.toList.take length := by
  unfold truncate
  rw [if_pos h]
  simp only [toList]
  rw [Octets.take_bitsFrom, Nat.min_eq_left (Nat.le_of_lt h)]
  apply Octets.bitsFrom_congr
  intro i hi
  rw [Octets.getBit_clearBits, if_neg (by omega)]

/-- What is cut off is cleared. -/
theorem clean_truncate {b : BitBuffer} {length : Nat} (hc : b.Clean) (h : length < b.writePosition) :
    (b.truncate length).Clean := by
  have hcov := hc.covered
  unfold truncate
  rw [if_pos h]
  refine ⟨by simp only [Octets.size_clearBits]; omega, fun q hq => ?_⟩
  simp only at hq ⊢
  rw [Octets.getBit_clearBits]
  split
  · rfl
  · exact hc.blank q (by simp only [Octets.countFor] at *; omega)

/-- Dropping bits leaves the front of the list, also when there are none to drop. -/
theorem toList_truncate_eq_take (b : BitBuffer) (length : Nat) : (b.truncate length).toList = b.toList.take length := by
  by_cases h : length < b.writePosition
  · exact toList_truncate b length h
  · rw [truncate, if_neg h, List.take_of_length_le (by rw [length_toList]; omega)]

/-- A cut leaves nothing set past the written bits, wherever it is made. -/
theorem Clean.truncate {b : BitBuffer} (hc : b.Clean) (length : Nat) : (b.truncate length).Clean := by
  by_cases h : length < b.writePosition
  · exact clean_truncate hc h
  · rw [BitBuffer.truncate, if_neg h]
    exact hc

/-! ## The octets of a clean buffer -/

/-- The octets of a buffer are as many as its bits need. -/
theorem size_content {b : BitBuffer} (hc : b.Clean) : b.content.size = Octets.countFor b.writePosition := by
  have hcov := hc.covered
  simp only [content, Array.size_extract, Octets.countFor]
  omega

/-- The content of a clean buffer holds the written bits and nothing else. -/
theorem getBit_content {b : BitBuffer} (hc : b.Clean) (q : Nat) :
    Octets.getBit b.content q = Octets.getBit b.storage q := by
  by_cases hq : q < Octets.countFor b.writePosition * 8
  · exact Octets.getBit_extract _ _ _ hq
  · have hs : b.content.size * 8 ≤ q := by rw [size_content hc]; omega
    rw [Octets.getBit_of_le _ hs, hc.blank q (by simp only [Octets.countFor] at hq; omega)]

/-- A clean buffer holds its written bits and is blank behind them. -/
theorem getBit_storage {b : BitBuffer} (hc : b.Clean) (q : Nat) : Octets.getBit b.storage q = b.toList.getD q false := by
  rw [List.getD_eq_getElem?_getD, toList, Octets.getElem?_bitsFrom, Nat.zero_add]
  split
  · rfl
  · rename_i hq
    exact hc.blank q (by omega)

/-- What clean buffers hold is decided by their bits. -/
theorem content_congr {a b : BitBuffer} (ha : a.Clean) (hb : b.Clean) (h : a.toList = b.toList) : a.content = b.content := by
  have hlength : a.writePosition = b.writePosition := by rw [← length_toList a, ← length_toList b, h]
  refine Octets.ext_bits (by rw [size_content ha, size_content hb, hlength]) fun q _ => ?_
  rw [getBit_content ha, getBit_content hb, getBit_storage ha, getBit_storage hb, h]

/-- Taking the message out of a clean buffer gives its content. -/
theorem take_fst_eq_content {b : BitBuffer} (hc : b.Clean) : b.take.1 = b.content := by
  apply Octets.ext_bits
  · rw [size_content hc, take, Octets.size_resize]
  · intro q hq
    rw [take, Octets.size_resize] at hq
    rw [getBit_content hc, take, Octets.getBit_resize _ _ _ hq]

end BitBuffer

/-- A sink is written to through its buffer alone. -/
class LawfulBitSink (τ : Type) [BitSink τ] where
  /-- Whether two states differ in what was written and traced at most. -/
  Same : τ → τ → Prop
  /-- A state differs from itself in nothing. -/
  same_refl (s : τ) : Same s s
  /-- Small differences add up to small ones. -/
  same_trans {s s' s'' : τ} : Same s s' → Same s' s'' → Same s s''
  /-- Replacing the buffer changes what was written and nothing else. -/
  same_withBuffer (s : τ) (b : BitBuffer) : Same s (BitSink.withBuffer b s)
  /-- The buffer put in is the one found. -/
  buffer_withBuffer (b : BitBuffer) (s : τ) : BitSink.buffer (BitSink.withBuffer b s) = b

/-- A buffer is all that there is to it. -/
instance : LawfulBitSink BitBuffer where
  Same _ _ := True
  same_refl _ := trivial
  same_trans _ _ := trivial
  same_withBuffer _ _ := trivial
  buffer_withBuffer _ _ := rfl

namespace Packer

variable {τ α β : Type}

/-- From `s` on the action fails. -/
def Fails (s : τ) (action : Packer τ α) : Prop :=
  ∃ fault s', action s = .error fault s'

/-- A fault that is thrown is a failure. -/
theorem fails_throw (s : τ) (fault : Fault) : Fails s (throw fault : Packer τ α) :=
  ⟨fault, s, rfl⟩

/-- What fails first fails altogether. -/
theorem Fails.bind {s : τ} {m : Packer τ α} (h : Fails s m) (f : α → Packer τ β) : Fails s (m >>= f) := by
  obtain ⟨fault, s', hm⟩ := h
  exact ⟨fault, s', by simp only [run_bind, hm]⟩

variable [BitSink τ] [LawfulBitSink τ]

/-- `s'` is `s` with some bits appended to its buffer. -/
def Wrote (s : τ) (bits : List Bool) (s' : τ) : Prop :=
  (BitSink.buffer s).Adds bits (BitSink.buffer s') ∧ LawfulBitSink.Same s s'

/-- From `s` on the action succeeds with a result and appends some bits. -/
def Writes (s : τ) (action : Packer τ α) (bits : List Bool) (result : α) : Prop :=
  ∃ s', action s = .ok result s' ∧ Wrote s bits s'

/-- From `s` on the action succeeds under a condition, then it appends some bits, and fails otherwise. -/
def WritesIf (s : τ) (condition : Prop) (action : Packer τ α) (bits : List Bool) (result : α) : Prop :=
  (condition → Writes s action bits result) ∧ (¬condition → Fails s action)

/-- A sink that stays as it is has nothing written to it. -/
theorem Wrote.refl (s : τ) : Wrote s [] s :=
  ⟨BitBuffer.Adds.refl _, LawfulBitSink.same_refl s⟩

/-- Bits that are written behind others are written with them. -/
theorem Wrote.trans {s s' s'' : τ} {bits more : List Bool} (h : Wrote s bits s') (h' : Wrote s' more s'') :
    Wrote s (bits ++ more) s'' :=
  ⟨h.1.trans h'.1, LawfulBitSink.same_trans h.2 h'.2⟩

/-! ## How the statements chain -/

/-- A result alone writes nothing. -/
theorem writes_pure (s : τ) (x : α) : Writes s (pure x) [] x :=
  ⟨s, rfl, Wrote.refl s⟩

/-- One action after another appends the bits of both. -/
theorem Writes.bind {s : τ} {m : Packer τ α} {f : α → Packer τ β} {bits more : List Bool} {x : α} {y : β}
    (h : Writes s m bits x) (h' : ∀ s', Wrote s bits s' → Writes s' (f x) more y) : Writes s (m >>= f) (bits ++ more) y := by
  obtain ⟨s', hm, hw⟩ := h
  obtain ⟨s'', hf, hw'⟩ := h' s' hw
  refine ⟨s'', ?_, hw.trans hw'⟩
  simp only [run_bind, hm, hf]

/-- What fails in the second place fails altogether. -/
theorem Writes.bind_fails {s : τ} {m : Packer τ α} {f : α → Packer τ β} {bits : List Bool} {x : α} (h : Writes s m bits x)
    (h' : ∀ s', Wrote s bits s' → Fails s' (f x)) : Fails s (m >>= f) := by
  obtain ⟨s', hm, hw⟩ := h
  obtain ⟨fault, s'', hf⟩ := h' s' hw
  exact ⟨fault, s'', by simp only [run_bind, hm, hf]⟩

/-- What is written in any case is written under a condition that holds. -/
theorem Writes.writesIf {s : τ} {m : Packer τ α} {bits : List Bool} {x : α} {condition : Prop} (h : Writes s m bits x)
    (hc : condition) : WritesIf s condition m bits x :=
  ⟨fun _ => h, fun hn => absurd hc hn⟩

/-- What fails in any case fails under a condition that does not hold. -/
theorem Fails.writesIf {s : τ} {m : Packer τ α} {condition : Prop} (h : Fails s m) (hc : ¬condition) (bits : List Bool)
    (x : α) : WritesIf s condition m bits x :=
  ⟨fun hp => absurd hp hc, fun _ => h⟩

/-- The condition may be put in other words. -/
theorem WritesIf.congr {s : τ} {m : Packer τ α} {bits : List Bool} {x : α} {c c' : Prop} (h : WritesIf s c m bits x)
    (hc : c ↔ c') : WritesIf s c' m bits x :=
  ⟨fun h' => h.1 (hc.mpr h'), fun h' => h.2 (fun hn => h' (hc.mp hn))⟩

/-- What succeeded met its condition and appended its bits. -/
theorem WritesIf.of_ok {s s' : τ} {m : Packer τ α} {bits : List Bool} {x y : α} {c : Prop} (h : WritesIf s c m bits x)
    (hm : m s = .ok y s') : c ∧ y = x ∧ Wrote s bits s' := by
  by_cases hc : c
  · obtain ⟨s'', hm', hw⟩ := h.1 hc
    rw [hm] at hm'
    cases hm'
    exact ⟨hc, rfl, hw⟩
  · obtain ⟨fault, s'', hm'⟩ := h.2 hc
    rw [hm] at hm'
    cases hm'

/-- One action after another succeeds when both do. -/
theorem WritesIf.bind {s : τ} {m : Packer τ α} {f : α → Packer τ β} {bits more : List Bool} {x : α} {y : β} {c c' : Prop}
    (h : WritesIf s c m bits x) (h' : ∀ s', c → Wrote s bits s' → WritesIf s' c' (f x) more y) :
    WritesIf s (c ∧ c') (m >>= f) (bits ++ more) y := by
  refine ⟨fun hc => (h.1 hc.1).bind fun s' hw => (h' s' hc.1 hw).1 hc.2, fun hn => ?_⟩
  by_cases hc : c
  · exact (h.1 hc).bind_fails fun s' hw => (h' s' hc hw).2 fun hc' => hn ⟨hc, hc'⟩
  · exact (h.2 hc).bind f

/-- Behind an action that succeeds it depends on the rest. -/
theorem Writes.bind_writesIf {s : τ} {m : Packer τ α} {f : α → Packer τ β} {bits more : List Bool} {x : α} {y : β} {c : Prop}
    (h : Writes s m bits x) (h' : ∀ s', Wrote s bits s' → WritesIf s' c (f x) more y) :
    WritesIf s c (m >>= f) (bits ++ more) y :=
  ⟨fun hc => h.bind fun s' hw => (h' s' hw).1 hc, fun hn => h.bind_fails fun s' hw => (h' s' hw).2 hn⟩

/-! ## Steps of writing -/

/-- Changing the buffer by appending to it appends to the sink. -/
theorem writes_modifyBuffer (s : τ) {f : BitBuffer → BitBuffer} {bits : List Bool}
    (h : (BitSink.buffer s).Adds bits (f (BitSink.buffer s))) : Writes s (modifyBuffer f) bits () := by
  refine ⟨_, rfl, ?_, ?_⟩
  · rw [LawfulBitSink.buffer_withBuffer]
    exact h
  · exact LawfulBitSink.same_trans (LawfulBitSink.same_withBuffer s _) (LawfulBitSink.same_withBuffer _ _)

/-- A bit is written. -/
theorem writes_bit (s : τ) (value : Bool) : Writes s (bit value) [value] () :=
  writes_modifyBuffer s (BitBuffer.adds_push _ value)

/-- What follows a bit. -/
theorem writes_bit_bind {s : τ} {value : Bool} {f : Unit → Packer τ β} {more : List Bool} {y : β}
    (h : ∀ s', Wrote s [value] s' → Writes s' (f ()) more y) : Writes s (bit value >>= f) (value :: more) y :=
  (writes_bit s value).bind h

/-- The position is looked at, and nothing is written. -/
theorem writes_position (s : τ) : Writes s position [] (BitSink.buffer s).writePosition :=
  ⟨s, rfl, Wrote.refl s⟩

/-- A word of at most 64 bits is written as its digits. -/
theorem writes_word (s : τ) (value : UInt64) {width : Nat} (h : width ≤ 64) :
    Writes s (word value width) (Bits.ofNat value.toNat width) () :=
  writes_modifyBuffer s (BitBuffer.adds_pushWord _ value width h)

/-- As many zeros are written as are asked for. -/
theorem writes_zeros (s : τ) (count : Nat) : Writes s (zeros count) (List.replicate count false) () :=
  writes_modifyBuffer s (BitBuffer.adds_pushZeros _ count)

/-- The bits of a run of octets are written. -/
theorem writes_run (s : τ) (src : Octets) (offset length : Nat) :
    Writes s (run src offset length) (Octets.bitsFrom src offset length) () :=
  writes_modifyBuffer s (BitBuffer.adds_append _ src offset length)

end Packer

end UnalignedPer
