import UnalignedPer.Proofs.BitBuffer.Steps

/-!
# Octets that are taken over

A buffer made of some octets (`BitBuffer.ofOctets`) keeps them as they are, with whatever is set past the bits that count. A buffer
into which these bits were written one by one has nothing there. Whether the two can be told apart is decided by those leftovers
alone (`BitBuffer.ofOctets_interchangeable_iff`): growing does not change them, and writing covers them, but each of them lies in
the free part of the last octet as soon as the written bits end right before it, unless it is the first bit of an octet.
-/

namespace UnalignedPer

namespace BitBuffer

/-- A buffer into which some bits were written one by one. -/
def written (bits : List Bool) : BitBuffer :=
  bits.foldl push empty

/-- Nothing that can be seen of two buffers differs, and the last octet is filled up with zeros. -/
structure LooksLike (a b : BitBuffer) : Prop where
  /-- As many bits are written. -/
  writePosition : a.writePosition = b.writePosition
  /-- As many bits are read. -/
  readPosition : a.readPosition = b.readPosition
  /-- The octets of the buffers are the same. -/
  content : a.content = b.content
  /-- Past the written bits no bit of these octets is set. -/
  padded : ∀ q, a.writePosition ≤ q → Octets.getBit a.content q = false

/-- Whatever is done to two buffers, the answers are the same, and the buffers look the same before it and after every step. -/
def Interchangeable (a b : BitBuffer) : Prop :=
  a.LooksLike b ∧
    ∀ steps : List BufferStep, List.Forall₂ (fun x y => x.1 = y.1 ∧ x.2.LooksLike y.2) (outcomes (steps.map BufferStep.run) a)
      (outcomes (steps.map BufferStep.run) b)

/-! ## Leftovers at first bits of octets do not show -/

section

variable {stale : Nat → Prop} {a b : BitBuffer} {l : BitList}

/-- Bits that are written one by one stand behind those that were there. -/
theorem Shows.foldl_push (h : b.Shows stale l) (bits : List Bool) :
    (bits.foldl BitBuffer.push b).Shows stale { l with bits := l.bits ++ bits } := by
  induction bits generalizing b l with
  | nil =>
    rw [List.append_nil]
    exact h
  | cons bit rest ih =>
    have hrest := ih (h.push bit)
    rwa [List.append_assoc] at hrest

theorem shows_written (bits : List Bool) : (written bits).Shows stale ⟨bits, 0⟩ :=
  Shows.empty.foldl_push bits

/-- Octets are taken over as they are, if they hold as many bits as count. -/
theorem eq_of_ofOctets {data : Octets} {length : Nat} (h : ofOctets data length = .ok a) :
    length ≤ data.size * 8 ∧ a = ⟨data, length, 0⟩ := by
  unfold ofOctets at h
  split at h
  · nomatch h
  · rename_i hroom
    exact ⟨Nat.le_of_not_lt hroom, (Except.ok.inj h).symm⟩

/-- Octets that are taken over show their bits, with all that is set past them as leftovers. -/
theorem shows_ofOctets {data : Octets} {length : Nat} (h : ofOctets data length = .ok a)
    (hblank : ∀ q, length ≤ q → ¬stale q → Octets.getBit data q = false) :
    a.Shows stale ⟨Octets.bitsFrom data 0 length, 0⟩ := by
  obtain ⟨hroom, rfl⟩ := eq_of_ofOctets h
  exact ⟨rfl, rfl, Nat.zero_le _, hroom, hblank⟩

/-- Buffers that show the same list look the same. -/
theorem Shows.looksLike (hs : ∀ q, stale q → q % 8 = 0) (ha : a.Shows stale l) (hb : b.Shows stale l) : a.LooksLike b where
  writePosition := ha.length_bits.symm.trans hb.length_bits
  readPosition := ha.cursor.trans hb.cursor.symm
  content := (ha.content hs).trans (hb.content hs).symm
  padded q hq := by
    rw [ha.content hs, Octets.getBit_ofBits, List.getD_eq_getElem?_getD, ha.getElem?_bits, if_neg (Nat.not_lt.mpr hq)]
    rfl

/-- Both buffers go in step with the list, so they go in step with each other. -/
theorem Shows.interchangeable (hs : ∀ q, stale q → q % 8 = 0) (ha : a.Shows stale l) (hb : b.Shows stale l) :
    a.Interchangeable b := by
  refine ⟨ha.looksLike hs hb, fun steps => ?_⟩
  have hstep : ∀ step ∈ steps, InStep (fun a b => ∃ l, Shows stale a l ∧ Shows stale b l) step.run step.run := fun step _ =>
    (step.inStep_runWords hs).through (step.inStep_runWords hs)
  exact (InStep.outcomes hstep ⟨l, ha, hb⟩).imp fun _ _ ⟨heq, _, hx, hy⟩ => ⟨heq, hx.looksLike hs hy⟩

end

/-! ## All others do -/

theorem Interchangeable.push {a b : BitBuffer} (h : a.Interchangeable b) (bit : Bool) :
    (a.push bit).Interchangeable (b.push bit) := by
  refine ⟨?_, fun steps => ?_⟩
  · exact (List.forall₂_cons.mp (h.2 [.pushBit bit])).1.2
  · exact (List.forall₂_cons.mp (h.2 (.pushBit bit :: steps))).2

theorem Interchangeable.pushZeros {a b : BitBuffer} (h : a.Interchangeable b) (count : Nat) :
    (a.pushZeros count).Interchangeable (b.pushZeros count) := by
  induction count generalizing a b with
  | zero => exact h
  | succ count ih => exact ih (h.push false)

/-- What zero bits that are appended leave as it was. -/
theorem getBit_pushZeros_of_le (b : BitBuffer) (count : Nat) {q : Nat} (h : b.writePosition + count ≤ q) :
    Octets.getBit (b.pushZeros count).storage q = Octets.getBit b.storage q := by
  induction count generalizing b with
  | zero => rfl
  | succ count ih =>
    have hpush : (b.push false).writePosition = b.writePosition + 1 := (adds_push b false).writePosition
    rw [BitBuffer.pushZeros, ih (b.push false) (by omega), getBit_push_of_lt b false (by omega)]

/-- Taken over and written bit by bit is the same exactly when nothing is set past the bits that count, other than first bits of
octets. -/
theorem ofOctets_interchangeable_iff {data : Octets} {length : Nat} {a : BitBuffer} (h : ofOctets data length = .ok a) :
    a.Interchangeable (written (Octets.bitsFrom data 0 length)) ↔
      ∀ q, length ≤ q → q % 8 ≠ 0 → Octets.getBit data q = false := by
  constructor
  · -- Zeros are written up to the bit, so that it is the first one that does not count.
    intro hsame q hq hhead
    obtain ⟨-, ha⟩ := eq_of_ofOctets h
    have hwrite : (a.pushZeros (q - length)).writePosition = q := by
      rw [(adds_pushZeros a _).writePosition, List.length_replicate, ha]
      exact Nat.add_sub_cancel' hq
    have hkept : Octets.getBit (a.pushZeros (q - length)).storage q = Octets.getBit data q := by
      rw [getBit_pushZeros_of_le a _ (by rw [ha]; exact Nat.le_of_eq (Nat.add_sub_cancel' hq)), ha]
    have hpadded := (hsame.pushZeros (q - length)).1.padded q (Nat.le_of_eq hwrite)
    rwa [content, hwrite, Octets.getBit_extract _ _ _ (by simp only [Octets.countFor]; omega), hkept] at hpadded
  · intro hblank
    exact (shows_ofOctets h hblank).interchangeable (fun _ => id) (shows_written _)

/-- A leftover at the first bit of an octet does not show, whatever is done to the buffer. -/
theorem ofOctets_interchangeable_iff_head :
    ofOctets #[0xA0, 0x80] 3 = .ok ⟨#[0xA0, 0x80], 3, 0⟩ ∧
      (⟨#[0xA0, 0x80], 3, 0⟩ : BitBuffer).Interchangeable (written (Octets.bitsFrom #[0xA0, 0x80] 0 3)) := by
  refine ⟨rfl, (ofOctets_interchangeable_iff rfl).mpr fun q hq hhead => ?_⟩
  by_cases hroom : q < 16
  · have hbits : ∀ q < 16, 3 ≤ q → q % 8 ≠ 0 → Octets.getBit #[0xA0, 0x80] q = false := by decide +kernel
    exact hbits q hroom hq hhead
  · exact Octets.getBit_of_le _ (Nat.le_of_not_lt hroom)

/-- One bit of an octet of which all are set: the other seven show in the content at once. -/
theorem ofOctets_not_interchangeable :
    ∃ a, ofOctets #[0xFF] 1 = .ok a ∧ a.content = #[0xFF] ∧ (written (Octets.bitsFrom #[0xFF] 0 1)).content = #[0x80] ∧
      ¬a.Interchangeable (written (Octets.bitsFrom #[0xFF] 0 1)) :=
  ⟨⟨#[0xFF], 1, 0⟩, rfl, by decide, by decide +kernel, fun h => absurd h.1.content (by decide +kernel)⟩

end BitBuffer

end UnalignedPer
