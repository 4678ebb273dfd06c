import UnalignedPer.Proofs.ChoiceIndex

/-!
# Operands come back

A pair of actions restores an operand (`Restores`) when what the one writes is what the other one reads it from: behind whatever
a sink already holds, wherever the bits stand in a source, and whatever follows them there. Every pair of actions on a single
word does so, over all bounds and all operands of 64 bits (`word_actions_restore`). Only a number that is cut to fewer bits
comes back changed: it is the number in the range of those bits that differs from the operand by a multiple of the range.
-/

namespace UnalignedPer

namespace WholeNumber

/-- The first action writes some bits behind those of a sink, if the condition holds, and fails otherwise. The second one reads
the operand wherever these bits are in front, and moves over them and no further. -/
def Restores {α : Type} (condition : Prop) (pack : ∀ (τ : Type) [BitSink τ], Packer τ Unit)
    (unpack : ∀ (σ : Type) [BitSource σ], Unpacker σ α) (operand : α) : Prop :=
  ∃ bits : List Bool,
    (∀ (τ : Type) [BitSink τ] [LawfulBitSink τ] (t : τ), Packer.WritesIf t condition (pack τ) bits ()) ∧
      (condition → ∀ (σ : Type) [BitSource σ] [LawfulBitSource σ] (s : σ), Unpacker.Takes s (unpack σ) bits operand)

/-- A number between two bounds is written exactly within them, and read back. -/
theorem restores_constrained (lower upper value : Int64) :
    Restores (lower ≤ value ∧ value ≤ upper) (fun _ _ => packConstrained lower upper value)
      (fun _ _ => unpackConstrained lower upper) value := by
  refine ⟨_, fun τ _ _ t => writesIf_packConstrained t lower upper value, ?_⟩
  rintro ⟨hlo, hhi⟩ σ _ _ s
  exact takes_unpackConstrained s hlo hhi

/-- A number with a lower bound is written exactly from there on, and read back. -/
theorem restores_semiConstrained (lower value : Int64) :
    Restores (lower ≤ value) (fun _ _ => packSemiConstrained lower value) (fun _ _ => unpackSemiConstrained lower) value := by
  refine ⟨magnitudeForm (value.toInt - lower.toInt).toNat, fun τ _ _ t => ?_, fun h σ _ _ s => takes_unpackSemiConstrained s h⟩
  have hroot := writesIf_packRoot t ⟨some lower, none⟩ value
  exact hroot.congr (by simp [Bounds.contains])

/-- A word is restored with its bounds, and without any. -/
theorem restores_unsigned (bounds : Bounds UInt64) (value : UInt64) :
    Restores (bounds.isBounded = true → bounds.lower.getD 0 ≤ value ∧ value ≤ bounds.upper.getD greatest)
      (fun _ _ => packUnsigned bounds value) (fun _ _ => unpackUnsigned bounds) value := by
  unfold packUnsigned unpackUnsigned
  by_cases h : bounds.isBounded = true
  · simp only [if_pos h]
    refine ⟨_, fun τ _ _ t => ?_, fun hc σ _ _ s => takes_unpackWithin s (hc h).1 (hc h).2⟩
    exact (writesIf_packWithin t _ _ value).congr ⟨fun hc _ => hc, fun hc => hc h⟩
  · simp only [if_neg h]
    refine ⟨_, fun τ _ _ t => (writes_packMagnitude t value).writesIf fun hb => absurd hb h, fun _ σ _ _ s => ?_⟩
    have htakes := takes_unpackMagnitude s value.toNat_lt
    rwa [UInt64.ofNat_toNat] at htakes

/-- A number that is normally small is written in any case, and read back. -/
theorem restores_small (value : UInt64) :
    Restores True (fun _ _ => packSmall value) (fun _ _ => unpackSmall) value := by
  refine ⟨_, fun τ _ _ t => (writes_packSmall t value).writesIf trivial, fun _ σ _ _ s => ?_⟩
  have htakes := takes_unpackSmall s value.toNat_lt
  rwa [UInt64.ofNat_toNat] at htakes

/-- An index is written when it belongs to the root or the type is extensible, and read back. -/
theorem restores_choiceIndex (standard index : UInt64) (extensible : Bool) :
    Restores (extensible = true ∨ index < standard) (fun _ _ => ChoiceIndex.pack standard.toNat extensible index)
      (fun _ _ => ChoiceIndex.unpack standard.toNat extensible) index := by
  have hs : standard.toNat ≤ 2 ^ 64 := Nat.le_of_lt standard.toNat_lt
  have hlt : index < standard ↔ index.toNat < standard.toNat := UInt64.lt_iff_toNat_lt
  rw [hlt]
  exact ⟨_, fun τ _ _ t => ChoiceIndex.writesIf_pack t hs extensible index, fun h σ _ _ s => ChoiceIndex.takes_unpack s hs h⟩

/-- A number is written in a width of up to 64 digits. -/
theorem writesIf_packSigned {τ : Type} [BitSink τ] [LawfulBitSink τ] (t : τ) (value : Int64) (width : Nat) :
    Packer.WritesIf t (width ≤ 64) (packSigned value width) (Bits.ofNat value.toUInt64.toNat width) () := by
  unfold packSigned
  by_cases h : width > 64
  · rw [if_pos h]
    exact (Packer.fails_throw t _).writesIf (Nat.not_le.mpr h) _ _
  · rw [if_neg h]
    exact (Packer.writes_word t value.toUInt64 (Nat.not_lt.mp h)).writesIf (Nat.not_lt.mp h)

/-- From the digits of a number its low bits are read, with their sign. -/
theorem takes_unpackSigned {σ : Type} [BitSource σ] [LawfulBitSource σ] (s : σ) (number : Nat) {width : Nat} (h : width ≤ 64) :
    Unpacker.Takes s (unpackSigned width) (Bits.ofNat number width)
      (Width.signExtend (UInt64.ofNat (number % 2 ^ width)) width) := by
  rw [← List.append_nil (Bits.ofNat _ _)]
  refine (Unpacker.takes_word s (Bits.length_ofNat _ _) h).bind fun s1 _ => ?_
  rw [Bits.toNat, Bits.below_ofNat, Nat.zero_mul, Nat.zero_add]
  exact Unpacker.takes_pure s1 _

/-- A number that is cut to some bits comes back as the one in their range that is the same modulo that range. -/
theorem restores_signed (value : Int64) (width : Nat) :
    ∃ low : Int64,
      Restores (width ≤ 64) (fun _ _ => packSigned value width) (fun _ _ => unpackSigned width) low ∧
        (width ≤ 64 → low.toInt % 2 ^ width = value.toInt % 2 ^ width ∧ -2 ^ width ≤ 2 * low.toInt ∧ 2 * low.toInt < 2 ^ width) := by
  refine ⟨Width.signExtend (UInt64.ofNat (value.toUInt64.toNat % 2 ^ width)) width,
    ⟨_, fun τ _ _ t => writesIf_packSigned t value width, fun h σ _ _ s => takes_unpackSigned s _ h⟩, fun h => ?_⟩
  have hpos := Nat.two_pow_pos width
  have hlt : value.toUInt64.toNat % 2 ^ width < 2 ^ width := Nat.mod_lt _ hpos
  have hword : (UInt64.ofNat (value.toUInt64.toNat % 2 ^ width)).toNat = value.toUInt64.toNat % 2 ^ width :=
    UInt64.toNat_ofNat_of_lt' (Nat.lt_of_lt_of_le hlt (Nat.pow_le_pow_right (by decide) h))
  rw [Width.toInt_signExtend _ h (by rw [hword]; exact hlt), hword, Width.toNat_low value h, ← Width.natCast_two_pow,
    Int.bmod_emod, Int.emod_emod_of_dvd _ (Int.dvd_refl _)]
  have hlo := Int.le_bmod (x := value.toInt % (2 ^ width : Nat)) hpos
  have hhi := Int.bmod_lt (x := value.toInt % (2 ^ width : Nat)) hpos
  exact ⟨rfl, by omega, by omega⟩

/-- Every action on a word has one that restores its operand: unsigned numbers with any bounds or none, normally small numbers,
indices of alternatives, numbers with one bound or two, and the low bits of a number. -/
theorem word_actions_restore :
    (∀ (bounds : Bounds UInt64) (value : UInt64),
        Restores (bounds.isBounded = true → bounds.lower.getD 0 ≤ value ∧ value ≤ bounds.upper.getD greatest)
          (fun _ _ => packUnsigned bounds value) (fun _ _ => unpackUnsigned bounds) value) ∧
      (∀ value : UInt64, Restores True (fun _ _ => packSmall value) (fun _ _ => unpackSmall) value) ∧
      (∀ (standard index : UInt64) (extensible : Bool),
        Restores (extensible = true ∨ index < standard) (fun _ _ => ChoiceIndex.pack standard.toNat extensible index)
          (fun _ _ => ChoiceIndex.unpack standard.toNat extensible) index) ∧
      (∀ lower upper value : Int64,
        Restores (lower ≤ value ∧ value ≤ upper) (fun _ _ => packConstrained lower upper value)
          (fun _ _ => unpackConstrained lower upper) value) ∧
      (∀ lower value : Int64,
        Restores (lower ≤ value) (fun _ _ => packSemiConstrained lower value) (fun _ _ => unpackSemiConstrained lower) value) ∧
      ∀ (value : Int64) (width : Nat), ∃ low : Int64,
        Restores (width ≤ 64) (fun _ _ => packSigned value width) (fun _ _ => unpackSigned width) low ∧
          (width ≤ 64 →
            low.toInt % 2 ^ width = value.toInt % 2 ^ width ∧ -2 ^ width ≤ 2 * low.toInt ∧ 2 * low.toInt < 2 ^ width) :=
  ⟨restores_unsigned, restores_small, restores_choiceIndex, restores_constrained, restores_semiConstrained, restores_signed⟩

end WholeNumber

end UnalignedPer
