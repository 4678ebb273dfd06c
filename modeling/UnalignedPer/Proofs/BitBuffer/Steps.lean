import UnalignedPer.Proofs.BitBuffer
import UnalignedPer.Proofs.InStep

/-!
# A buffer is a list of bits with a cursor

A buffer keeps its bits in storage that grows by doubling and never shrinks, clears what it drops octet by octet, and copies long
runs octet by octet as well. None of this shows: whatever is done to a buffer (`BufferStep`), the answers are those of a list of
bits with a cursor (`BitList`), and after every step the buffer holds the bits of the list and nothing else
(`BitBuffer.Agrees`, `BufferStep.outcomes_agree`).

What a step does to the storage past the written bits is stated for buffers that may hold leftovers there
(`BitBuffer.Shows`): as long as all of them are first bits of octets, no answer depends on them, because the last octet of the
written bits has none of them in its free part.
-/

namespace UnalignedPer

/-- An operation on a buffer. Those that read lay the bits that they find over some octets. -/
inductive BufferStep where
  /-- Appends a bit. -/
  | pushBit (bit : Bool)
  /-- Appends all bits of some octets. -/
  | write (src : Octets)
  /-- Appends the bits of some octets from a position on. -/
  | writeFrom (src : Octets) (offset : UInt64)
  /-- Appends the first bits of some octets. -/
  | writeTo (src : Octets) (length : UInt64)
  /-- Appends a run of bits of some octets. -/
  | writeSlice (src : Octets) (offset length : UInt64)
  /-- Overwrites a written bit. -/
  | setBit (position : Nat) (bit : Bool)
  /-- Looks at a written bit. -/
  | bitAt (position : Nat)
  /-- Drops the bits from a position on. -/
  | truncate (length : Nat)
  /-- Drops all bits. -/
  | clear
  /-- Goes back to the first bit. -/
  | rewind
  /-- Reads the next bit. -/
  | readBit
  /-- Reads over all bits of some octets. -/
  | read (dst : Octets)
  /-- Reads over the bits of some octets from a position on. -/
  | readFrom (dst : Octets) (offset : UInt64)
  /-- Reads over the first bits of some octets. -/
  | readTo (dst : Octets) (length : UInt64)
  /-- Reads over a run of bits of some octets. -/
  | readSlice (dst : Octets) (offset length : UInt64)
  /-- Looks at the octets in which the written bits lie. -/
  | content
  /-- Takes these octets away and leaves an empty buffer. -/
  | take

/-- What an operation on a buffer gives back. -/
inductive BufferAnswer where
  /-- It was done. -/
  | done
  /-- A bit. -/
  | bit (value : Bool)
  /-- Some octets. -/
  | octets (data : Octets)
  deriving DecidableEq, Repr

/-- A list of bits with a cursor. -/
structure BitList where
  /-- The bits. -/
  bits : List Bool
  /-- The number of bits read. -/
  cursor : Nat
  deriving DecidableEq, Repr

namespace BitList

/-- Appends bits. -/
def write (more : List Bool) : EStateM Fault BitList Unit :=
  modify fun l => { l with bits := l.bits ++ more }

/-- Replaces a bit. -/
def set (position : Nat) (bit : Bool) : EStateM Fault BitList Unit := fun l =>
  if position < l.bits.length then .ok () { l with bits := l.bits.set position bit } else .error .endOfStream l

/-- Looks at a bit. -/
def bitAt (position : Nat) : EStateM Fault BitList Bool := fun l =>
  match l.bits[position]? with
  | some bit => .ok bit l
  | none => .error .endOfStream l

/-- Keeps the first bits, and the cursor among them. -/
def truncate (length : Nat) : EStateM Fault BitList Unit :=
  modify fun l => ⟨l.bits.take length, min l.cursor length⟩

/-- Reads the next bit. -/
def readBit : EStateM Fault BitList Bool := fun l =>
  match l.bits[l.cursor]? with
  | some bit => .ok bit { l with cursor := l.cursor + 1 }
  | none => .error .endOfStream l

/-- Lays the next bits over those of `dst` from `offset` on. -/
def read (dst : Octets) (offset length : Nat) : EStateM Fault BitList Octets := fun l =>
  if l.cursor + length ≤ l.bits.length then
    .ok (Octets.overlay dst offset ((l.bits.drop l.cursor).take length)) { l with cursor := l.cursor + length }
  else .error .endOfStream l

/-- An action on some octets, of which it needs `stop` bits. -/
def within {α : Type} (stop : Nat) (data : Octets) (action : EStateM Fault BitList α) : EStateM Fault BitList α :=
  if stop > data.size * 8 then throw .endOfStream else action

end BitList

namespace BufferStep

/-- What an operation does to a buffer. -/
def run : BufferStep → EStateM Fault BitBuffer BufferAnswer
  | .pushBit bit => (fun _ => .done) <$> Packer.bit bit
  | .write src => (fun _ => .done) <$> Packer.octets src
  | .writeFrom src offset => (fun _ => .done) <$> Packer.sliceFrom src offset
  | .writeTo src length => (fun _ => .done) <$> Packer.sliceTo src length
  | .writeSlice src offset length => (fun _ => .done) <$> Packer.slice src offset length
  | .setBit position bit => (fun _ => .done) <$> Packer.overwrite position bit
  | .bitAt position => fun b =>
    match b.get position with
    | .ok bit => .ok (.bit bit) b
    | .error fault => .error fault b
  | .truncate length => (fun _ => .done) <$> modify (·.truncate length)
  | .clear => (fun _ => .done) <$> modify fun _ => BitBuffer.empty
  | .rewind => (fun _ => .done) <$> modify BitBuffer.rewind
  | .readBit => .bit <$> Unpacker.bit
  | .read dst => .octets <$> Unpacker.octets dst
  | .readFrom dst offset => .octets <$> Unpacker.sliceFrom dst offset
  | .readTo dst length => .octets <$> Unpacker.sliceTo dst length
  | .readSlice dst offset length => .octets <$> Unpacker.slice dst offset length
  | .content => fun b => .ok (.octets b.content) b
  | .take => fun b => .ok (.octets b.take.1) b.take.2

/-- What an operation does to a list of bits. -/
def runList : BufferStep → EStateM Fault BitList BufferAnswer
  | .pushBit bit => (fun _ => .done) <$> BitList.write [bit]
  | .write src => (fun _ => .done) <$> BitList.write (Octets.bitsFrom src 0 (src.size * 8))
  | .writeFrom src offset => (fun _ => .done) <$>
    BitList.within offset.toNat src (BitList.write (Octets.bitsFrom src offset.toNat (src.size * 8 - offset.toNat)))
  | .writeTo src length => (fun _ => .done) <$>
    BitList.within length.toNat src (BitList.write (Octets.bitsFrom src 0 length.toNat))
  | .writeSlice src offset length => (fun _ => .done) <$>
    BitList.within (offset.toNat + length.toNat) src (BitList.write (Octets.bitsFrom src offset.toNat length.toNat))
  | .setBit position bit => (fun _ => .done) <$> BitList.set position bit
  | .bitAt position => .bit <$> BitList.bitAt position
  | .truncate length => (fun _ => .done) <$> BitList.truncate length
  | .clear => (fun _ => .done) <$> modify fun _ => ⟨[], 0⟩
  | .rewind => (fun _ => .done) <$> modify fun l => { l with cursor := 0 }
  | .readBit => .bit <$> BitList.readBit
  | .read dst => .octets <$> BitList.read dst 0 (dst.size * 8)
  | .readFrom dst offset => .octets <$>
    BitList.within offset.toNat dst (BitList.read dst offset.toNat (dst.size * 8 - offset.toNat))
  | .readTo dst length => .octets <$> BitList.within length.toNat dst (BitList.read dst 0 length.toNat)
  | .readSlice dst offset length => .octets <$>
    BitList.within (offset.toNat + length.toNat) dst (BitList.read dst offset.toNat length.toNat)
  | .content => fun l => .ok (.octets (Octets.ofBits l.bits)) l
  | .take => fun l => .ok (.octets (Octets.ofBits l.bits)) ⟨[], 0⟩

/-- The end of a slice is a word. -/
def Fits : BufferStep → Prop
  | .writeSlice _ offset length | .readSlice _ offset length => offset.toNat + length.toNat < UInt64.size
  | _ => True

/-- What an operation does to a list of bits, where slices end at the sum of two words. -/
def runWords : BufferStep → EStateM Fault BitList BufferAnswer
  | .writeSlice src offset length => (fun _ => .done) <$>
    BitList.within (offset + length).toNat src (BitList.write (Octets.bitsFrom src offset.toNat length.toNat))
  | .readSlice dst offset length => .octets <$>
    BitList.within (offset + length).toNat dst (BitList.read dst offset.toNat length.toNat)
  | step => step.runList

/-- Where the end of a slice is a word, the sum of the two words is the end. -/
theorem runWords_eq {step : BufferStep} (h : step.Fits) : step.runWords = step.runList := by
  cases step with
  | writeSlice src offset length =>
    simp only [Fits] at h
    simp only [runWords, runList, UInt64.toNat_add, Nat.mod_eq_of_lt h]
  | readSlice dst offset length =>
    simp only [Fits] at h
    simp only [runWords, runList, UInt64.toNat_add, Nat.mod_eq_of_lt h]
  | _ => rfl

end BufferStep

/-! ## What the storage holds past the written bits -/

namespace BitBuffer

/-- The buffer holds the bits of a list, with the cursor at the same place. Past them, only bits at positions of the kind `stale`
may be set. -/
structure Shows (stale : Nat → Prop) (b : BitBuffer) (l : BitList) : Prop where
  /-- The written bits are those of the list. -/
  bits : b.toList = l.bits
  /-- As many bits are read. -/
  cursor : b.readPosition = l.cursor
  /-- No more bits are read than were written. -/
  read_le : b.readPosition ≤ b.writePosition
  /-- The written bits lie in the storage. -/
  covered : b.writePosition ≤ b.storage.size * 8
  /-- Leftovers are of the kind. -/
  blank : ∀ q, b.writePosition ≤ q → ¬stale q → Octets.getBit b.storage q = false

/-- What a bit that is appended leaves as it was. -/
theorem getBit_push_of_lt (b : BitBuffer) (bit : Bool) {q : Nat} (h : b.writePosition < q) :
    Octets.getBit (b.push bit).storage q = Octets.getBit b.storage q := by
  simp only [push, writePosition_reserve]
  rw [Octets.getBit_setBit, if_neg (by omega), getBit_reserve]

/-- A bit that is appended lies in the storage. -/
theorem covered_push (b : BitBuffer) (bit : Bool) : (b.push bit).writePosition ≤ (b.push bit).storage.size * 8 := by
  simpa [push] using le_size_reserve b (b.writePosition + 1)

/-- What a run that is appended leaves as it was. -/
theorem getBit_append_of_le (b : BitBuffer) (src : Octets) (offset length : Nat) {q : Nat}
    (h : b.writePosition + length ≤ q) :
    Octets.getBit (b.append src offset length).storage q = Octets.getBit b.storage q := by
  simp only [append, writePosition_reserve]
  rw [Octets.getBit_copyBits, if_neg (by omega), getBit_reserve]

/-- Bits that are appended lie in the storage. -/
theorem covered_append (b : BitBuffer) (src : Octets) (offset length : Nat) :
    (b.append src offset length).writePosition ≤ (b.append src offset length).storage.size * 8 := by
  simpa [append] using le_size_reserve b (b.writePosition + length)

variable {stale : Nat → Prop} {b b' : BitBuffer} {l : BitList}

namespace Shows

/-- A buffer without bits shows the list without bits. -/
theorem empty : BitBuffer.empty.Shows stale ⟨[], 0⟩ :=
  ⟨rfl, rfl, Nat.le_refl _, Nat.zero_le _, fun q _ _ => clean_empty.blank q (Nat.zero_le q)⟩

/-- The list is as long as the buffer is written. -/
theorem length_bits (h : b.Shows stale l) : l.bits.length = b.writePosition := by
  rw [← h.bits, length_toList]

/-- The bits of the list are bits of the storage. -/
theorem getElem?_bits (h : b.Shows stale l) (i : Nat) :
    l.bits[i]? = if i < b.writePosition then some (Octets.getBit b.storage i) else none := by
  rw [← h.bits, toList, Octets.getElem?_bitsFrom, Nat.zero_add]

/-- Bits that are appended, where the storage behind them stays as it was. -/
theorem adds {bits : List Bool} (h : b.Shows stale l) (ha : b.Adds bits b')
    (hcovered : b'.writePosition ≤ b'.storage.size * 8)
    (hkept : ∀ q, b'.writePosition ≤ q → Octets.getBit b'.storage q = Octets.getBit b.storage q) :
    b'.Shows stale { l with bits := l.bits ++ bits } where
  bits := by rw [ha.toList, h.bits]
  cursor := ha.readPosition.trans h.cursor
  read_le := by
    rw [ha.readPosition, ha.writePosition]
    exact Nat.le_add_right_of_le h.read_le
  covered := hcovered
  blank q hq hs := by
    rw [hkept q hq]
    rw [ha.writePosition] at hq
    exact h.blank q (Nat.le_of_add_right_le hq) hs

/-- A bit is appended to both. -/
theorem push (h : b.Shows stale l) (bit : Bool) : (b.push bit).Shows stale { l with bits := l.bits ++ [bit] } := by
  refine h.adds (adds_push b bit) (covered_push b bit) fun q hq => getBit_push_of_lt b bit ?_
  rwa [(adds_push b bit).writePosition] at hq

/-- Bits are appended to both. -/
theorem append (h : b.Shows stale l) (src : Octets) (offset length : Nat) :
    (b.append src offset length).Shows stale { l with bits := l.bits ++ Octets.bitsFrom src offset length } := by
  refine h.adds (adds_append b src offset length) (covered_append b src offset length) fun q hq =>
    getBit_append_of_le b src offset length ?_
  rwa [(adds_append b src offset length).writePosition, Octets.length_bitsFrom] at hq

/-- A written bit is changed in both. -/
theorem put (h : b.Shows stale l) {position : Nat} (hp : position < b.writePosition) (bit : Bool) :
    (b.put position bit).Shows stale { l with bits := l.bits.set position bit } where
  bits := by rw [toList_put_of_le position bit h.covered, h.bits]
  cursor := h.cursor
  read_le := h.read_le
  covered := by simpa [BitBuffer.put] using h.covered
  blank q hq hs := by
    simp only [BitBuffer.put] at hq ⊢
    rw [Octets.getBit_setBit, if_neg (by omega)]
    exact h.blank q hq hs

/-- Dropping bits clears the octets in which they lay and nothing behind. -/
theorem truncate (h : b.Shows stale l) (length : Nat) :
    (b.truncate length).Shows stale ⟨l.bits.take length, min l.cursor length⟩ := by
  have hbits := (toList_truncate_eq_take b length).trans (congrArg (·.take length) h.bits)
  have hread := h.read_le
  have hcursor := h.cursor
  have hcovered := h.covered
  by_cases hl : length < b.writePosition
  · rw [BitBuffer.truncate, if_pos hl] at hbits ⊢
    refine ⟨hbits, congrArg (min · length) hcursor, Nat.min_le_right _ _, ?_, fun q hq hs => ?_⟩
    · rw [Octets.size_clearBits]
      exact Nat.le_trans (Nat.le_of_lt hl) hcovered
    · rw [Octets.getBit_clearBits]
      split
      · rfl
      · exact h.blank q (by simp only [Octets.countFor] at *; omega) hs
  · rw [BitBuffer.truncate, if_neg hl] at hbits ⊢
    refine ⟨hbits, ?_, hread, hcovered, h.blank⟩
    show b.readPosition = min l.cursor length
    omega

/-- Both are read from the start again. -/
theorem rewind (h : b.Shows stale l) : b.rewind.Shows stale { l with cursor := 0 } :=
  ⟨h.bits, rfl, Nat.zero_le _, h.covered, h.blank⟩

/-- The cursor moves over bits that are ahead. -/
theorem advance (h : b.Shows stale l) {length : Nat} (hl : b.readPosition + length ≤ b.writePosition) :
    ({ b with readPosition := b.readPosition + length } : BitBuffer).Shows stale { l with cursor := l.cursor + length } :=
  ⟨h.bits, congrArg (· + length) h.cursor, hl, h.covered, h.blank⟩

/-- A run of the storage is a part of the list. -/
theorem bitsFrom_storage (h : b.Shows stale l) {length : Nat} (hl : b.readPosition + length ≤ b.writePosition) :
    Octets.bitsFrom b.storage b.readPosition length = (l.bits.drop l.cursor).take length := by
  rw [← h.bits, ← h.cursor, toList, Octets.drop_bitsFrom, Octets.take_bitsFrom, Nat.zero_add, Nat.min_eq_left (by omega)]

/-- Octets that hold the storage as far as it is written hold the bits of the list and nothing else. No position past the written
bits is the first of an octet there. -/
theorem eq_ofBits (h : b.Shows stale l) (hs : ∀ q, stale q → q % 8 = 0) {data : Octets}
    (hsize : data.size = Octets.countFor b.writePosition)
    (hbits : ∀ q, q < data.size * 8 → Octets.getBit data q = Octets.getBit b.storage q) : data = Octets.ofBits l.bits := by
  refine Octets.ext_bits (by rw [hsize, Octets.size_ofBits, h.length_bits]) fun q hq => ?_
  rw [hbits q hq, Octets.getBit_ofBits, List.getD_eq_getElem?_getD, h.getElem?_bits]
  split
  · rfl
  · refine h.blank q (by omega) fun hstale => ?_
    have := hs q hstale
    simp only [hsize, Octets.countFor] at hq
    omega

/-- The octets of the buffer are those of the bits, if leftovers can stand at the start of an octet only. -/
theorem content (h : b.Shows stale l) (hs : ∀ q, stale q → q % 8 = 0) : b.content = Octets.ofBits l.bits := by
  have hcovered := h.covered
  have hsize : b.content.size = Octets.countFor b.writePosition := by
    simp only [BitBuffer.content, Array.size_extract, Octets.countFor]
    omega
  exact h.eq_ofBits hs hsize fun q hq => Octets.getBit_extract _ _ _ (by omega)

/-- The octets that are taken away are those of the bits, if leftovers can stand at the start of an octet only. -/
theorem take (h : b.Shows stale l) (hs : ∀ q, stale q → q % 8 = 0) : b.take.1 = Octets.ofBits l.bits := by
  refine h.eq_ofBits hs (Octets.size_resize _ _) fun q hq => Octets.getBit_resize _ _ _ ?_
  rwa [BitBuffer.take, Octets.size_resize] at hq

end Shows

end BitBuffer

/-! ## Every step goes as on the list -/

namespace BitBuffer

variable {stale : Nat → Prop}

/-- A change that is made whatever is there. -/
theorem inStep_modify {σ τ : Type} {R : σ → τ → Prop} {f : σ → σ} {g : τ → τ} (h : ∀ s t, R s t → R (f s) (g t)) :
    InStep R (modify f : EStateM Fault σ Unit) (modify g) :=
  fun s t hr => ⟨rfl, h s t hr⟩

/-- A bit is appended in step. -/
theorem inStep_push (bit : Bool) : InStep (Shows stale) (Packer.bit bit : Packer BitBuffer Unit) (BitList.write [bit]) :=
  inStep_modify fun _ _ h => h.push bit

/-- A run of bits is appended in step. -/
theorem inStep_append (src : Octets) (offset length : Nat) :
    InStep (Shows stale) (Packer.run src offset length : Packer BitBuffer Unit)
      (BitList.write (Octets.bitsFrom src offset length)) :=
  inStep_modify fun _ _ h => h.append src offset length

/-- A slice without bits is not copied at all. -/
theorem inStep_slice (src : Octets) (offset length : UInt64) :
    InStep (Shows stale) (Packer.slice src offset length : Packer BitBuffer Unit)
      (BitList.within (offset + length).toNat src (BitList.write (Octets.bitsFrom src offset.toNat length.toNat))) := by
  refine inStep_ite (inStep_throw _) ?_
  split
  · rename_i hzero
    rw [hzero]
    intro b l h
    refine ⟨rfl, ?_⟩
    show b.Shows stale { l with bits := l.bits ++ [] }
    rw [List.append_nil]
    exact h
  · exact inStep_append src offset.toNat length.toNat

/-- A slice from the start of some octets is appended in step. -/
theorem inStep_sliceTo (src : Octets) (length : UInt64) :
    InStep (Shows stale) (Packer.sliceTo src length : Packer BitBuffer Unit)
      (BitList.within length.toNat src (BitList.write (Octets.bitsFrom src 0 length.toNat))) := by
  have h := @inStep_slice stale src 0 length
  rwa [UInt64.zero_add] at h

/-- A written bit is changed in step, and one that was not written is refused. -/
theorem inStep_overwrite (position : Nat) (bit : Bool) :
    InStep (Shows stale) (Packer.overwrite position bit : Packer BitBuffer Unit) (BitList.set position bit) := by
  intro b l h
  by_cases hp : position < b.writePosition
  · exact inStep_ok (if_pos hp) (if_pos (h.length_bits ▸ hp)) (h.put hp bit)
  · exact inStep_error (if_neg hp) (if_neg (h.length_bits ▸ hp)) h

/-- A bit is read in step. -/
theorem inStep_readBit :
    InStep (Shows stale) (Unpacker.bit : Unpacker BitBuffer Bool) BitList.readBit := by
  intro b l h
  have hbit := h.getElem?_bits l.cursor
  by_cases hr : b.readPosition < b.writePosition
  · rw [← h.cursor, if_pos hr, h.cursor] at hbit
    refine inStep_ok (x := Octets.getBit b.storage b.readPosition) (if_pos hr) ?_ (h.advance hr)
    simp only [BitList.readBit, hbit, h.cursor]
  · rw [← h.cursor, if_neg hr, h.cursor] at hbit
    exact inStep_error (if_neg hr) (by simp only [BitList.readBit, hbit]) h

/-- A run of bits is read in step. -/
theorem inStep_read (dst : Octets) (offset length : Nat) :
    InStep (Shows stale) (Unpacker.run dst offset length : Unpacker BitBuffer Octets) (BitList.read dst offset length) := by
  intro b l h
  have hread := h.read_le
  have hlength := h.length_bits
  have hcursor := h.cursor
  by_cases hr : length > b.remaining
  · exact inStep_error (if_pos hr) (if_neg (by simp only [remaining] at hr; omega)) h
  · have hl : b.readPosition + length ≤ b.writePosition := by
      simp only [remaining] at hr
      omega
    refine inStep_ok (x := Octets.overlay dst offset ((l.bits.drop l.cursor).take length)) ?_ (if_pos (by omega))
      (h.advance hl)
    rw [← h.bitsFrom_storage hl, ← Octets.copyBits_eq_overlay]
    exact if_neg hr

/-- A slice is read in step, with its end as the sum of the two words. -/
theorem inStep_readSlice (dst : Octets) (offset length : UInt64) :
    InStep (Shows stale) (Unpacker.slice dst offset length : Unpacker BitBuffer Octets)
      (BitList.within (offset + length).toNat dst (BitList.read dst offset.toNat length.toNat)) :=
  inStep_ite (inStep_throw _) (inStep_read dst offset.toNat length.toNat)

/-- A slice to the start of some octets is read in step. -/
theorem inStep_readTo (dst : Octets) (length : UInt64) :
    InStep (Shows stale) (Unpacker.sliceTo dst length : Unpacker BitBuffer Octets)
      (BitList.within length.toNat dst (BitList.read dst 0 length.toNat)) := by
  have h := @inStep_readSlice stale dst 0 length
  rwa [UInt64.zero_add] at h

/-- A bit is looked at in step, and one that was not written is refused. -/
theorem inStep_bitAt (position : Nat) : InStep (Shows stale) (BufferStep.bitAt position).run (BufferStep.bitAt position).runList := by
  intro b l h
  have hbit := h.getElem?_bits position
  by_cases hp : position < b.writePosition
  · rw [if_pos hp] at hbit
    have hrun : (BufferStep.bitAt position).run b = .ok (.bit (Octets.getBit b.storage position)) b := by
      simp only [BufferStep.run, get, if_pos hp]
    exact inStep_ok hrun (by simp only [BufferStep.runList, run_map, BitList.bitAt, hbit]) h
  · rw [if_neg hp] at hbit
    have hrun : (BufferStep.bitAt position).run b = .error .endOfStream b := by
      simp only [BufferStep.run, get, if_neg hp]
    exact inStep_error hrun (by simp only [BufferStep.runList, run_map, BitList.bitAt, hbit]) h

end BitBuffer

namespace BufferStep

open BitBuffer

/-- Every operation goes as on the list of bits, whatever leftovers stand at first bits of octets. -/
theorem inStep_runWords {stale : Nat → Prop} (hs : ∀ q, stale q → q % 8 = 0) (step : BufferStep) :
    InStep (Shows stale) step.run step.runWords := by
  cases step with
  | pushBit bit => exact (inStep_push bit).map _
  | write src => exact (inStep_append src 0 _).map _
  | writeFrom src offset => exact (inStep_ite (inStep_throw _) (inStep_append src _ _)).map _
  | writeTo src length => exact (inStep_sliceTo src length).map _
  | writeSlice src offset length => exact (inStep_slice src offset length).map _
  | setBit position bit => exact (inStep_overwrite position bit).map _
  | bitAt position => exact inStep_bitAt position
  | truncate length => exact (inStep_modify fun _ _ h => h.truncate length).map _
  | clear => exact (inStep_modify fun _ _ _ => .empty).map _
  | rewind => exact (inStep_modify fun _ _ h => h.rewind).map _
  | readBit => exact inStep_readBit.map _
  | read dst => exact (inStep_read dst 0 _).map _
  | readFrom dst offset => exact (inStep_ite (inStep_throw _) (inStep_read dst _ _)).map _
  | readTo dst length => exact (inStep_readTo dst length).map _
  | readSlice dst offset length => exact (inStep_readSlice dst offset length).map _
  | content => exact fun b l h => ⟨congrArg (Except.ok ∘ BufferAnswer.octets) (h.content hs), h⟩
  | take => exact fun b l h => ⟨congrArg (Except.ok ∘ BufferAnswer.octets) (h.take hs), .empty⟩

end BufferStep

/-! ## A buffer that was empty -/

namespace BitBuffer

/-- The buffer holds the bits of the list and nothing else, with the cursor at the same place. -/
structure Agrees (b : BitBuffer) (l : BitList) : Prop where
  /-- The written bits are those of the list. -/
  bits : b.toList = l.bits
  /-- As many bits are read. -/
  cursor : b.readPosition = l.cursor
  /-- No more bits are read than were written. -/
  read_le : b.readPosition ≤ b.writePosition
  /-- No more bits were written than there is room for. -/
  write_le : b.writePosition ≤ b.capacity
  /-- The octets of the buffer are the bits of the list, filled up with zeros. -/
  content : b.content = Octets.ofBits l.bits
  /-- Past the written bits nothing is set. -/
  blank : ∀ q, b.writePosition ≤ q → Octets.getBit b.storage q = false

/-- A buffer without leftovers agrees with the list that it shows. -/
theorem Shows.agrees {b : BitBuffer} {l : BitList} (h : b.Shows (fun _ => False) l) : b.Agrees l :=
  ⟨h.bits, h.cursor, h.read_le, h.covered, h.content fun _ => False.elim, fun q hq => h.blank q hq id⟩

end BitBuffer

namespace BufferStep

/-- Whatever is done to a buffer that was empty: every answer is that of the list of bits, and after every step the buffer holds
the bits of the list and nothing else. -/
theorem outcomes_agree (steps : List BufferStep) (h : ∀ step ∈ steps, step.Fits) :
    BitBuffer.empty.Agrees ⟨[], 0⟩ ∧
      List.Forall₂ (fun x y => x.1 = y.1 ∧ x.2.Agrees y.2) (outcomes (steps.map run) .empty)
        (outcomes (steps.map runList) ⟨[], 0⟩) := by
  have hsteps : ∀ step ∈ steps, InStep (BitBuffer.Shows fun _ => False) step.run step.runList := fun step hm => by
    rw [← runWords_eq (h step hm)]
    exact step.inStep_runWords fun _ => False.elim
  exact ⟨BitBuffer.Shows.empty.agrees,
    (InStep.outcomes hsteps BitBuffer.Shows.empty).imp fun x y hxy => ⟨hxy.1, hxy.2.agrees⟩⟩

/-- Bits are dropped and others are written over them, unaligned and in octets: what was there before does not come back, neither in
what is read nor in the free part of the last octet. -/
theorem outcomes_agree_rewritten :
    let steps : List BufferStep := [.write #[0xFF, 0xFF, 0xFF], .readBit, .truncate 5,
      .writeSlice #[0x00, 0x0F, 0xF0] 4 18, .truncate 18, .content, .readSlice #[0xAA, 0xAA] 3 9, .readFrom #[0xAA] 9, .take]
    (∀ step ∈ steps, step.Fits) ∧
      (outcomes (steps.map run) .empty).map Prod.fst =
        [.ok .done, .ok (.bit true), .ok .done, .ok .done, .ok .done, .ok (.octets #[0xF8, 0x07, 0xC0]),
          .ok (.octets #[0xBE, 0x0A]), .error .endOfStream, .ok (.octets #[0xF8, 0x07, 0xC0])] ∧
      BitBuffer.empty.Agrees ⟨[], 0⟩ ∧
      List.Forall₂ (fun x y => x.1 = y.1 ∧ x.2.Agrees y.2) (outcomes (steps.map run) .empty)
        (outcomes (steps.map runList) ⟨[], 0⟩) := by
  intro steps
  have hfits : ∀ step ∈ steps, step.Fits := by simp [steps, Fits, UInt64.size]
  exact ⟨hfits, by decide +kernel, outcomes_agree steps hfits⟩

end BufferStep

end UnalignedPer
