import UnalignedPer.Proofs.SizedContent.Recovery
import UnalignedPer.Proofs.WholeNumber

/-!
# Words within bounds

A word with a bound is read as its offset from the lower one, and the offset is compared with the range of the bounds. The range is
a difference of words: bounds that cross have one as well, and a wide one. So reading keeps to the bounds, and takes the bits that
the word is written as, exactly where the bounds do not cross (`WholeNumber.staysWithin_iff`). A missing bound counts as zero or as
the greatest signed number; a lower bound alone crosses that number if it is above it.
-/

namespace UnalignedPer

namespace WholeNumber

open Unpacker (Takes Parses)

section Unpack

variable {σ : Type} [BitSource σ] [LawfulBitSource σ]

/-- A word that is read between bounds that do not cross lies between them, and the bits it was read from are its offset. -/
theorem parses_unpackWithin (s : σ) {lower upper : UInt64} (h : lower ≤ upper) :
    Parses s (unpackWithin lower upper) fun value bits =>
      (lower ≤ value ∧ value ≤ upper) ∧ bits = Bits.offset lower.toNat upper.toNat value.toNat := by
  refine (Unpacker.parses_word s (Width.ofWord_le _)).bind fun offset s1 bits hread _ => ?_
  obtain ⟨hlength, hoffset⟩ := hread
  by_cases ho : offset > upper - lower
  · rw [if_pos ho]
    exact Unpacker.parses_throw _
  · rw [if_neg ho]
    have hwithin := within_of_offset h (UInt64.not_lt.mp ho)
    refine Unpacker.parses_pure ⟨hwithin, ?_⟩
    have hback : lower + offset - lower = offset := by rw [UInt64.add_comm, UInt64.add_sub_cancel]
    have hshort : bits.length ≤ 64 := hlength ▸ Width.ofWord_le _
    have hfits : Bits.toNat bits < UInt64.size :=
      Nat.lt_of_lt_of_le (Bits.toNat_lt bits) (Nat.pow_le_pow_right (by decide) hshort)
    have hnumber : offset.toNat = Bits.toNat bits := by rw [hoffset, UInt64.toNat_ofNat_of_lt' hfits]
    rw [List.append_nil, offset_toNat hwithin.1 hwithin.2, hback, hnumber, ← hlength, Bits.ofNat_toNat]

/-- Whatever the bounds, the lower one is read from zeros. -/
theorem takes_unpackWithin_lower (s : σ) (lower upper : UInt64) :
    Takes s (unpackWithin lower upper) (Bits.ofNat 0 (Width.ofWord (upper - lower))) lower := by
  rw [← List.append_nil (Bits.ofNat _ _)]
  refine (Unpacker.takes_word_ofNat s (Nat.two_pow_pos _) (Width.ofWord_le _)).bind fun s1 _ => ?_
  have hzero : ¬UInt64.ofNat 0 > upper - lower := UInt64.not_lt.mpr UInt64.zero_le
  rw [if_neg hzero, show lower + UInt64.ofNat 0 = lower from UInt64.add_zero lower]
  exact Unpacker.takes_pure s1 lower

end Unpack

/-- Reading keeps to the bounds: a word that is read lies within them, and is written as the bits that it was read from. -/
def StaysWithin (bounds : Bounds UInt64) : Prop :=
  ∀ (σ : Type) [BitSource σ] [LawfulBitSource σ] (s : σ),
    Parses s (unpackUnsigned bounds) fun value bits =>
      (bounds.lower.getD 0 ≤ value ∧ value ≤ bounds.upper.getD greatest) ∧
        ∀ (τ : Type) [BitSink τ] [LawfulBitSink τ] (t : τ), Packer.Writes t (packUnsigned bounds value) bits ()

/-- What does not cross is kept to. -/
theorem staysWithin_of_le {bounds : Bounds UInt64} (hbounded : bounds.isBounded = true)
    (h : bounds.lower.getD 0 ≤ bounds.upper.getD greatest) : StaysWithin bounds := by
  intro σ _ _ s
  rw [unpackUnsigned, if_pos hbounded]
  refine (parses_unpackWithin s h).weaken ?_
  rintro value bits ⟨hwithin, rfl⟩
  refine ⟨hwithin, fun τ _ _ t => ?_⟩
  rw [packUnsigned, if_pos hbounded]
  exact (writesIf_packWithin t _ _ value).1 hwithin

/-- Reading that keeps to the bounds reads the lower one, which is then no greater than the upper one. -/
theorem le_of_staysWithin {bounds : Bounds UInt64} (hbounded : bounds.isBounded = true) (h : StaysWithin bounds) :
    bounds.lower.getD 0 ≤ bounds.upper.getD greatest := by
  have htakes := fun v : BitView => takes_unpackWithin_lower v (bounds.lower.getD 0) (bounds.upper.getD greatest)
  obtain ⟨v, v', -, hread⟩ := Unpacker.exists_of_takes htakes
  have hrun : unpackUnsigned bounds v = .ok (bounds.lower.getD 0) v' := by rw [unpackUnsigned, if_pos hbounded, hread]
  obtain ⟨bits, ⟨⟨-, hle⟩, -⟩, -⟩ := h BitView v hrun
  exact hle

/-- Reading a word with one bound or two keeps to the bounds exactly if they do not cross. -/
theorem staysWithin_iff (bounds : Bounds UInt64) (hbounded : bounds.isBounded = true) :
    StaysWithin bounds ↔ bounds.lower.getD 0 ≤ bounds.upper.getD greatest :=
  ⟨le_of_staysWithin hbounded, staysWithin_of_le hbounded⟩

/-- A day of the month and, of lower bounds alone, the greatest signed number are kept to; the days in the wrong order and a lower
bound that is greater by one are not. -/
theorem staysWithin_iff_day :
    StaysWithin ⟨some 1, some 31⟩ ∧ StaysWithin ⟨some greatest, none⟩ ∧
      ¬StaysWithin ⟨some 31, some 1⟩ ∧ ¬StaysWithin ⟨some (greatest + 1), none⟩ :=
  ⟨(staysWithin_iff _ rfl).mpr (by decide), (staysWithin_iff _ rfl).mpr (by decide),
    fun h => absurd ((staysWithin_iff _ rfl).mp h) (by decide), fun h => absurd ((staysWithin_iff _ rfl).mp h) (by decide)⟩

/-- Five is read between five and three, and cannot be written between them. -/
theorem not_staysWithin_crossed :
    (∃ v', unpackUnsigned ⟨some 5, some 3⟩ (BitView.ofOctets #[0, 0, 0, 0, 0, 0, 0, 0] 64) = .ok 5 v') ∧
      packUnsigned ⟨some 5, some 3⟩ 5 BitBuffer.empty = .error (.valueNotInRange 5 5 3) BitBuffer.empty ∧
      ¬StaysWithin ⟨some 5, some 3⟩ := by
  have hread : ∃ v', unpackUnsigned ⟨some 5, some 3⟩ (BitView.ofOctets #[0, 0, 0, 0, 0, 0, 0, 0] 64) = .ok 5 v' := by
    obtain ⟨v', hv, -⟩ := takes_unpackWithin_lower (BitView.ofOctets #[0, 0, 0, 0, 0, 0, 0, 0] 64) 5 3 (by decide +kernel)
    exact ⟨v', hv⟩
  refine ⟨hread, rfl, fun h => ?_⟩
  obtain ⟨v', hv⟩ := hread
  obtain ⟨bits, ⟨⟨-, hle⟩, -⟩, -⟩ := h BitView _ hv
  exact absurd hle (by decide)

end WholeNumber

end UnalignedPer
