import UnalignedPer.Proofs.LengthDeterminant
import UnalignedPer.WholeNumber

/-!
# Whole numbers are read back

The bits of a number in each of its forms, and that a reader finds the number in them. The forms are numbers of digits taken
from the value and the bounds as integers; that words wrap around does not show in them.

A number that is read from any bits at all lies within its bounds, with one exception: bounds that are open below are written
and read in the form of a free number, and their upper end is checked only when a number is written.
-/

namespace UnalignedPer

namespace WholeNumber

open LengthDeterminant

/-! ## The forms -/

/-- The octets of a natural number, at least one. -/
def octetsOf (value : Nat) : Nat :=
  max 1 (Octets.countFor (Width.ofNat value))

/-- The length and the octets of a natural number. -/
def magnitudeForm (value : Nat) : List Bool :=
  freeForm (octetsOf value) ++ Bits.ofNat value (octetsOf value * 8)

/-- The length and the octets of a number in two's complement. -/
def signedForm (value : Int64) : List Bool :=
  freeForm (Width.signedOctets value) ++ Bits.ofNat value.toUInt64.toNat (Width.signedOctets value * 8)

/-- The form of a number that is small in most messages. -/
def smallForm (value : Nat) : List Bool :=
  if value ≤ 63 then false :: Bits.ofNat value 6 else true :: magnitudeForm value

/-- The form of a number of the root of an INTEGER. -/
def rootForm (bounds : Bounds Int64) (value : Int64) : List Bool :=
  match bounds.lower, bounds.upper with
  | some lower, some upper => Bits.offset lower.toInt upper.toInt value.toInt
  | some lower, none => magnitudeForm (value.toInt - lower.toInt).toNat
  | none, _ => signedForm value

/-- The form of an INTEGER. -/
def integerForm (bounds : Bounds Int64) (extensible : Bool) (value : Int64) : List Bool :=
  if extensible then
    if bounds.contains value then false :: rootForm bounds value else true :: signedForm value
  else rootForm bounds value

/-! ## Words and the numbers they stand for -/

/-- The difference of two signed numbers in words is their difference. -/
theorem toNat_sub_toUInt64 {lower value : Int64} (h : lower ≤ value) :
    (value.toUInt64 - lower.toUInt64).toNat = (value.toInt - lower.toInt).toNat := by
  have hle := Int64.le_iff_toInt_le.mp h
  have hv := Width.toNat_toUInt64 value
  have hl := Width.toNat_toUInt64 lower
  have h1 := value.toInt_lt
  have h2 := lower.le_toInt
  rw [UInt64.toNat_sub]
  split at hv <;> split at hl <;> omega

/-- The offset between signed bounds in words. -/
theorem offset_toInt {lower upper value : Int64} (hlo : lower ≤ value) (hhi : value ≤ upper) :
    Bits.offset lower.toInt upper.toInt value.toInt =
      Bits.ofNat (value.toUInt64 - lower.toUInt64).toNat (Width.ofWord (upper.toUInt64 - lower.toUInt64)) := by
  rw [Bits.offset, ← toNat_sub_toUInt64 hlo, ← toNat_sub_toUInt64 (Int64.le_trans hlo hhi)]
  rfl

/-- The offset between unsigned bounds in words. -/
theorem offset_toNat {lower upper value : UInt64} (hlo : lower ≤ value) (hhi : value ≤ upper) :
    Bits.offset lower.toNat upper.toNat value.toNat = Bits.ofNat (value - lower).toNat (Width.ofWord (upper - lower)) := by
  rw [Bits.offset, Int.toNat_sub, Int.toNat_sub, ← UInt64.toNat_sub_of_le _ _ hlo,
    ← UInt64.toNat_sub_of_le _ _ (UInt64.le_trans hlo hhi)]
  rfl

/-- An offset in the range of two bounds that do not cross leads to a word between them. -/
theorem within_of_offset {lower upper offset : UInt64} (h : lower ≤ upper) (ho : offset ≤ upper - lower) :
    lower ≤ lower + offset ∧ lower + offset ≤ upper := by
  have hle := UInt64.le_iff_toNat_le.mp ho
  have hl := UInt64.le_iff_toNat_le.mp h
  rw [UInt64.toNat_sub_of_le _ _ h] at hle
  have hsum : (lower + offset).toNat = lower.toNat + offset.toNat := by
    rw [UInt64.toNat_add]
    have := upper.toNat_lt
    omega
  constructor
  · rw [UInt64.le_iff_toNat_le]
    omega
  · rw [UInt64.le_iff_toNat_le]
    omega

/-- An offset in words that stays below the greatest signed number is added as an integer. -/
theorem toInt_add_offset (lower : Int64) (offset : UInt64) (h : lower.toInt + offset.toNat < 2 ^ 63) :
    (lower.toUInt64 + offset).toInt64.toInt = lower.toInt + offset.toNat := by
  have hb : (lower.toUInt64 + offset).toInt64.toInt = Int.bmod (lower.toUInt64 + offset).toNat (2 ^ 64) :=
    BitVec.toInt_eq_toNat_bmod _
  have hl := Width.toNat_toUInt64 lower
  have h1 := lower.le_toInt
  rw [hb, UInt64.toNat_add, Int.bmod_def]
  split at hl <;> split <;> omega

/-- The offset of a number from a lower one leads back to it. -/
theorem add_ofNat_offset {lower value : Int64} (h : lower ≤ value) :
    (lower.toUInt64 + UInt64.ofNat (value.toInt - lower.toInt).toNat).toInt64 = value := by
  have hle := Int64.le_iff_toInt_le.mp h
  have h1 := value.toInt_lt
  have h2 := lower.le_toInt
  have hn : (UInt64.ofNat (value.toInt - lower.toInt).toNat).toNat = (value.toInt - lower.toInt).toNat := by
    rw [UInt64.toNat_ofNat']
    omega
  rw [← Int64.toInt_inj, toInt_add_offset _ _ (by rw [hn]; omega), hn]
  omega

/-- The octets of a magnitude are counted alike for words and for numbers. -/
theorem octetsOf_toNat (value : UInt64) : Width.magnitudeOctets value = octetsOf value.toNat := rfl

/-- A natural number fits into its octets. -/
theorem lt_octetsOf (value : Nat) : value < 2 ^ (octetsOf value * 8) := by
  refine Nat.lt_of_lt_of_le (Width.lt_two_pow_ofNat value) (Nat.pow_le_pow_right (by decide) ?_)
  simp only [octetsOf, Octets.countFor]
  omega

/-- A number below the number of words takes one to eight octets. -/
theorem octetsOf_bounds {value : Nat} (h : value < 2 ^ 64) : 1 ≤ octetsOf value ∧ octetsOf value ≤ 8 := by
  have hw := Width.ofNat_le h
  simp only [octetsOf, Octets.countFor]
  omega

section Pack

variable {τ : Type} [BitSink τ] [LawfulBitSink τ]

/-- A number within two bounds is written as its offset, and no other number is. -/
theorem writesIf_packConstrained (s : τ) (lower upper value : Int64) :
    Packer.WritesIf s (lower ≤ value ∧ value ≤ upper) (packConstrained lower upper value)
      (Bits.offset lower.toInt upper.toInt value.toInt) () := by
  unfold packConstrained
  by_cases h : value < lower ∨ value > upper
  · rw [if_pos h]
    refine (Packer.fails_throw s _).writesIf ?_ _ _
    rintro ⟨hlo, hhi⟩
    rcases h with h | h
    · exact Int64.not_lt.mpr hlo h
    · exact Int64.not_lt.mpr hhi h
  · rw [if_neg h]
    have hlo : lower ≤ value := Int64.not_lt.mp fun hn => h (Or.inl hn)
    have hhi : value ≤ upper := Int64.not_lt.mp fun hn => h (Or.inr hn)
    rw [offset_toInt hlo hhi]
    exact (Packer.writes_word s _ (Width.ofWord_le _)).writesIf ⟨hlo, hhi⟩

/-- A word within two bounds is written as its offset, and no other word is. -/
theorem writesIf_packWithin (s : τ) (lower upper value : UInt64) :
    Packer.WritesIf s (lower ≤ value ∧ value ≤ upper) (packWithin lower upper value)
      (Bits.offset lower.toNat upper.toNat value.toNat) () := by
  unfold packWithin
  by_cases h : value < lower ∨ value > upper
  · rw [if_pos h]
    refine (Packer.fails_throw s _).writesIf ?_ _ _
    rintro ⟨hlo, hhi⟩
    rcases h with h | h
    · exact UInt64.not_lt.mpr hlo h
    · exact UInt64.not_lt.mpr hhi h
  · rw [if_neg h]
    have hlo : lower ≤ value := UInt64.not_lt.mp fun hn => h (Or.inl hn)
    have hhi : value ≤ upper := UInt64.not_lt.mp fun hn => h (Or.inr hn)
    rw [offset_toNat hlo hhi]
    exact (Packer.writes_word s _ (Width.ofWord_le _)).writesIf ⟨hlo, hhi⟩

/-- The magnitude of a number is written with the number of its octets in front. -/
theorem writes_packMagnitude (s : τ) (value : UInt64) :
    Packer.Writes s (packMagnitude value) (magnitudeForm value.toNat) () := by
  simp only [packMagnitude, octetsOf_toNat]
  have hb := octetsOf_bounds value.toNat_lt
  exact (writes_packFree s _).bind fun s' _ => Packer.writes_word s' value (by omega)

/-- A number without bounds is written in its signed form. -/
theorem writes_packFree_signed (s : τ) (value : Int64) : Packer.Writes s (packFree value) (signedForm value) () := by
  have hb := Width.signedOctets_bounds value
  simp only [packFree]
  refine (writes_packFree s _).bind fun s' _ => ?_
  rw [packSigned, if_neg (by omega)]
  exact Packer.writes_word s' value.toUInt64 (by omega)

/-- A number that is normally small is written in its small form. -/
theorem writes_packSmall (s : τ) (value : UInt64) : Packer.Writes s (packSmall value) (smallForm value.toNat) () := by
  have hl : value ≤ smallLimit ↔ value.toNat ≤ 63 := UInt64.le_iff_toNat_le
  unfold packSmall smallForm
  by_cases h : value.toNat ≤ 63
  · rw [if_pos h, if_pos (hl.mpr h)]
    exact Packer.writes_bit_bind fun s' _ => Packer.writes_word s' value (by omega)
  · rw [if_neg h, if_neg (fun hn => h (hl.mp hn))]
    exact Packer.writes_bit_bind fun s' _ => writes_packMagnitude s' value

/-- A number of the root is written in the form that its bounds call for, and a number outside them is not. -/
theorem writesIf_packRoot (s : τ) (bounds : Bounds Int64) (value : Int64) :
    Packer.WritesIf s (bounds.contains value = true) (packRoot bounds value) (rootForm bounds value) () := by
  obtain ⟨lower, upper⟩ := bounds
  cases lower with
  | some lower =>
    cases upper with
    | some upper =>
      refine (writesIf_packConstrained s lower upper value).congr ?_
      simp [Bounds.contains]
    | none =>
      have hc : (⟨some lower, none⟩ : Bounds Int64).contains value = true ↔ lower ≤ value := by simp [Bounds.contains]
      simp only [packRoot, rootForm, packSemiConstrained, hc]
      by_cases h : value < lower
      · rw [if_pos h]
        exact (Packer.fails_throw s _).writesIf (fun hle => Int64.not_lt.mpr hle h) _ _
      · rw [if_neg h]
        have hle := Int64.not_lt.mp h
        have hw := writes_packMagnitude s (value.toUInt64 - lower.toUInt64)
        rw [toNat_sub_toUInt64 hle] at hw
        exact hw.writesIf hle
  | none =>
    cases upper with
    | some upper =>
      have hc : (⟨none, some upper⟩ : Bounds Int64).contains value = true ↔ value ≤ upper := by simp [Bounds.contains]
      simp only [packRoot, rootForm, hc]
      by_cases h : value > upper
      · rw [if_pos h]
        exact (Packer.fails_throw s _).writesIf (fun hle => Int64.not_lt.mpr hle h) _ _
      · rw [if_neg h]
        exact (writes_packFree_signed s value).writesIf (Int64.not_lt.mp h)
    | none => exact (writes_packFree_signed s value).writesIf rfl

/-- An INTEGER is written when it lies within its bounds or the type is extensible. -/
theorem writesIf_packInteger (s : τ) (bounds : Bounds Int64) (extensible : Bool) (value : Int64) :
    Packer.WritesIf s (extensible = true ∨ bounds.contains value = true) (packInteger bounds extensible value)
      (integerForm bounds extensible value) () := by
  unfold packInteger integerForm
  cases extensible with
  | false =>
    rw [if_neg Bool.false_ne_true, if_neg Bool.false_ne_true]
    exact (writesIf_packRoot s bounds value).congr ⟨Or.inr, fun h => h.resolve_left Bool.false_ne_true⟩
  | true =>
    rw [if_pos rfl, if_pos rfl]
    refine Packer.Writes.writesIf ?_ (Or.inl rfl)
    by_cases h : bounds.contains value = true
    · rw [if_pos h, if_pos h]
      exact Packer.writes_bit_bind fun s' _ => (writesIf_packRoot s' bounds value).1 h
    · rw [if_neg h, if_neg h]
      exact Packer.writes_bit_bind fun s' _ => writes_packFree_signed s' value

end Pack

section Unpack

variable {σ : Type} [BitSource σ] [LawfulBitSource σ]

/-- The number of octets is read, from one to eight. -/
theorem takes_unpackOctetCount (s : σ) {octets : Nat} (h : 1 ≤ octets ∧ octets ≤ 8) :
    Unpacker.Takes s unpackOctetCount (freeForm octets) octets := by
  have hs : octets < fragmentUnit := by simp only [fragmentUnit]; omega
  have hc : chunkOf octets = ⟨octets, false⟩ := by
    rw [chunkOf, covered_of_lt hs, decide_eq_false (by omega)]
  rw [← List.append_nil (freeForm octets)]
  refine (takes_unpackFree s octets).bind fun s1 _ => ?_
  rw [hc, if_neg (by simp only [Bool.false_eq_true, false_or]; omega)]
  simp only []
  rw [if_neg (by omega)]
  exact Unpacker.takes_pure s1 octets

/-- A number of octets that is read is at most eight. -/
theorem gives_unpackOctetCount (s : σ) : Unpacker.Gives s unpackOctetCount fun octets => octets ≤ 8 := by
  refine (gives_unpackFree s).bind fun chunk s1 _ _ _ => ?_
  by_cases h : chunk.isFragment = true ∨ chunk.units > 8
  · rw [if_pos h]
    exact Unpacker.gives_throw s1 _ _
  · rw [if_neg h]
    refine Unpacker.gives_ite (fun _ => Unpacker.gives_throw s1 _ _) fun _ => Unpacker.gives_pure s1 ?_
    exact Nat.not_lt.mp fun hn => h (Or.inr hn)

/-- The magnitude of a number is read from its form. -/
theorem takes_unpackMagnitude (s : σ) {value : Nat} (h : value < 2 ^ 64) :
    Unpacker.Takes s unpackMagnitude (magnitudeForm value) (UInt64.ofNat value) := by
  have hb := octetsOf_bounds h
  refine (takes_unpackOctetCount s hb).bind fun s1 _ => ?_
  exact Unpacker.takes_word_ofNat s1 (lt_octetsOf value) (by omega)

/-- Reading a magnitude goes forward, whatever the bits are. -/
theorem gives_unpackMagnitude (s : σ) : Unpacker.Gives s unpackMagnitude fun _ => True :=
  (gives_unpackOctetCount s).bind fun _ s1 _ _ _ => (Unpacker.gives_word s1 _).weaken fun _ _ => trivial

/-- A number between two words is read from its offset. -/
theorem takes_unpackWithin (s : σ) {lower upper value : UInt64} (hlo : lower ≤ value) (hhi : value ≤ upper) :
    Unpacker.Takes s (unpackWithin lower upper) (Bits.offset lower.toNat upper.toNat value.toNat) value := by
  have hl := UInt64.le_iff_toNat_le.mp hlo
  have hu := UInt64.le_iff_toNat_le.mp hhi
  have hv := UInt64.toNat_sub_of_le _ _ hlo
  have hr := UInt64.toNat_sub_of_le _ _ (UInt64.le_trans hlo hhi)
  have hlt : (value - lower).toNat < 2 ^ Width.ofWord (upper - lower) :=
    Nat.lt_of_le_of_lt (by omega) (Width.lt_two_pow_ofNat (upper - lower).toNat)
  rw [offset_toNat hlo hhi, ← List.append_nil (Bits.ofNat _ _)]
  refine (Unpacker.takes_word_ofNat s hlt (Width.ofWord_le _)).bind fun s1 _ => ?_
  rw [UInt64.ofNat_toNat, if_neg (UInt64.not_lt.mpr (UInt64.le_iff_toNat_le.mpr (by omega)))]
  have hsum : lower + (value - lower) = value := by
    rw [← UInt64.toNat_inj, UInt64.toNat_add, hv]
    have := value.toNat_lt
    omega
  rw [hsum]
  exact Unpacker.takes_pure s1 value

/-- A number that is read between two words lies between them. -/
theorem gives_unpackWithin (s : σ) {lower upper : UInt64} (h : lower ≤ upper) :
    Unpacker.Gives s (unpackWithin lower upper) fun value => lower ≤ value ∧ value ≤ upper := by
  refine (Unpacker.gives_word s _).bind fun offset s1 _ _ _ => ?_
  by_cases ho : offset > upper - lower
  · rw [if_pos ho]
    exact Unpacker.gives_throw s1 _ _
  · rw [if_neg ho]
    exact Unpacker.gives_pure s1 (within_of_offset h (UInt64.not_lt.mp ho))

/-- A number between two bounds is read from its offset. -/
theorem takes_unpackConstrained (s : σ) {lower upper value : Int64} (hlo : lower ≤ value) (hhi : value ≤ upper) :
    Unpacker.Takes s (unpackConstrained lower upper) (Bits.offset lower.toInt upper.toInt value.toInt) value := by
  have hlu := Int64.le_trans hlo hhi
  have hl := Int64.le_iff_toInt_le.mp hlo
  have hu := Int64.le_iff_toInt_le.mp hhi
  have hr := toNat_sub_toUInt64 hlu
  have h1 := upper.toInt_lt
  have h2 := lower.le_toInt
  unfold unpackConstrained
  rw [if_neg (Int64.not_lt.mpr hlu), ← List.append_nil (Bits.offset _ _ _)]
  have hw : Width.ofWord (upper.toUInt64 - lower.toUInt64) = Width.ofNat (upper.toInt - lower.toInt).toNat :=
    congrArg Width.ofNat hr
  simp only [hw]
  refine (Unpacker.takes_word_ofNat s (Bits.offset_lt hu) (Bits.width_offset_le (by omega))).bind fun s1 _ => ?_
  rw [add_ofNat_offset hlo, if_neg (UInt64.not_lt.mpr (UInt64.le_iff_toNat_le.mpr (by rw [hr, UInt64.toNat_ofNat']; omega)))]
  exact Unpacker.takes_pure s1 value

/-- A number that is read between two bounds lies between them. -/
theorem gives_unpackConstrained (s : σ) (lower upper : Int64) :
    Unpacker.Gives s (unpackConstrained lower upper) fun value => lower ≤ value ∧ value ≤ upper := by
  unfold unpackConstrained
  refine Unpacker.gives_ite (fun _ => Unpacker.gives_throw s _ _) fun hlu => ?_
  have hle := Int64.not_lt.mp hlu
  have hr := toNat_sub_toUInt64 hle
  refine (Unpacker.gives_word s _).bind fun offset s1 _ _ _ => ?_
  by_cases ho : offset > upper.toUInt64 - lower.toUInt64
  · rw [if_pos ho]
    exact Unpacker.gives_throw s1 _ _
  · rw [if_neg ho]
    have hoff := UInt64.le_iff_toNat_le.mp (UInt64.not_lt.mp ho)
    have h1 := upper.toInt_lt
    have h2 := Int64.le_iff_toInt_le.mp hle
    have hsum := toInt_add_offset lower offset (by omega)
    refine Unpacker.gives_pure s1 ⟨Int64.le_iff_toInt_le.mpr ?_, Int64.le_iff_toInt_le.mpr ?_⟩ <;> omega

/-- The room above a lower bound in words. -/
theorem toNat_greatest_sub (lower : Int64) : ((greatest - lower.toUInt64).toNat : Int) = 2 ^ 63 - 1 - lower.toInt := by
  have hl := Width.toNat_toUInt64 lower
  have h1 := lower.toInt_lt
  have h2 := lower.le_toInt
  have hg : greatest.toNat = 2 ^ 63 - 1 := by decide
  rw [UInt64.toNat_sub, hg]
  split at hl <;> omega

/-- A number with a lower bound is read from the magnitude of its offset. -/
theorem takes_unpackSemiConstrained (s : σ) {lower value : Int64} (h : lower ≤ value) :
    Unpacker.Takes s (unpackSemiConstrained lower) (magnitudeForm (value.toInt - lower.toInt).toNat) value := by
  have hle := Int64.le_iff_toInt_le.mp h
  have h1 := value.toInt_lt
  have h2 := lower.le_toInt
  have hg := toNat_greatest_sub lower
  rw [← List.append_nil (magnitudeForm _)]
  refine (takes_unpackMagnitude s (by omega)).bind fun s1 _ => ?_
  rw [if_neg (UInt64.not_lt.mpr (UInt64.le_iff_toNat_le.mpr (by rw [UInt64.toNat_ofNat']; omega))), add_ofNat_offset h]
  exact Unpacker.takes_pure s1 value

/-- A number that is read with a lower bound is not below it. -/
theorem gives_unpackSemiConstrained (s : σ) (lower : Int64) :
    Unpacker.Gives s (unpackSemiConstrained lower) fun value => lower ≤ value := by
  refine (gives_unpackMagnitude s).bind fun offset s1 _ _ _ => ?_
  by_cases ho : offset > greatest - lower.toUInt64
  · rw [if_pos ho]
    exact Unpacker.gives_throw s1 _ _
  · rw [if_neg ho]
    have hoff := UInt64.le_iff_toNat_le.mp (UInt64.not_lt.mp ho)
    have hg := toNat_greatest_sub lower
    have hsum := toInt_add_offset lower offset (by omega)
    exact Unpacker.gives_pure s1 (Int64.le_iff_toInt_le.mpr (by omega))

/-- A number without bounds is read from its signed form. -/
theorem takes_unpackFree_signed (s : σ) (value : Int64) : Unpacker.Takes s unpackFree (signedForm value) value := by
  have hb := Width.signedOctets_bounds value
  have hf := Width.signedOctets_fits value
  refine (takes_unpackOctetCount s hb).bind fun s1 _ => ?_
  rw [unpackSigned, ← List.append_nil (Bits.ofNat _ _)]
  refine (Unpacker.takes_word s1 (Bits.length_ofNat _ _) (by omega)).bind fun s2 _ => ?_
  rw [Bits.toNat, Bits.below_ofNat, Nat.zero_mul, Nat.zero_add,
    Width.signExtend_low value (by omega) (by omega) hf.1 hf.2]
  exact Unpacker.takes_pure s2 value

/-- Reading a number without bounds goes forward, whatever the bits are. -/
theorem gives_unpackFree_signed (s : σ) : Unpacker.Gives s unpackFree fun _ => True := by
  refine (gives_unpackOctetCount s).bind fun octets s1 _ _ _ => ?_
  exact (Unpacker.gives_word s1 _).bind fun word s2 _ _ _ => Unpacker.gives_pure s2 trivial

/-- A number that is normally small is read from its small form. -/
theorem takes_unpackSmall (s : σ) {value : Nat} (h : value < 2 ^ 64) :
    Unpacker.Takes s unpackSmall (smallForm value) (UInt64.ofNat value) := by
  unfold smallForm
  split
  · refine Unpacker.takes_bit_bind fun s1 _ => ?_
    rw [if_neg Bool.false_ne_true]
    exact Unpacker.takes_word_ofNat s1 (by omega) (by omega)
  · refine Unpacker.takes_bit_bind fun s1 _ => ?_
    rw [if_pos rfl]
    exact takes_unpackMagnitude s1 h

/-- Reading a number that is normally small goes forward, whatever the bits are. -/
theorem gives_unpackSmall (s : σ) : Unpacker.Gives s unpackSmall fun _ => True := by
  refine (Unpacker.gives_bit s).bind fun isLarge s1 _ _ _ => ?_
  exact Unpacker.gives_ite (fun _ => gives_unpackMagnitude s1)
    fun _ => (Unpacker.gives_word s1 6).weaken fun _ _ => trivial

/-- A number of the root is read back. -/
theorem takes_unpackRoot (s : σ) {bounds : Bounds Int64} {value : Int64} (h : bounds.contains value = true) :
    Unpacker.Takes s (unpackRoot bounds) (rootForm bounds value) value := by
  obtain ⟨lower, upper⟩ := bounds
  cases lower with
  | some lower =>
    cases upper with
    | some upper =>
      obtain ⟨hlo, hhi⟩ : lower ≤ value ∧ value ≤ upper := by simpa [Bounds.contains] using h
      exact takes_unpackConstrained s hlo hhi
    | none => exact takes_unpackSemiConstrained s (by simpa [Bounds.contains] using h)
  | none => cases upper <;> exact takes_unpackFree_signed s value

/-- A number of the root that is read lies within the bounds, unless they are open below and closed above. -/
theorem gives_unpackRoot (s : σ) (bounds : Bounds Int64) :
    Unpacker.Gives s (unpackRoot bounds)
      fun value => bounds.lower.isSome = true ∨ bounds.upper = none → bounds.contains value = true := by
  obtain ⟨lower, upper⟩ := bounds
  cases lower with
  | some lower =>
    cases upper with
    | some upper => exact (gives_unpackConstrained s lower upper).weaken fun value hv _ => by simpa [Bounds.contains] using hv
    | none => exact (gives_unpackSemiConstrained s lower).weaken fun value hv _ => by simpa [Bounds.contains] using hv
  | none =>
    refine (gives_unpackFree_signed s).weaken fun value _ h => ?_
    obtain rfl : upper = none := h.resolve_left Bool.false_ne_true
    rfl

/-- An INTEGER is read back. -/
theorem takes_unpackInteger (s : σ) {bounds : Bounds Int64} {extensible : Bool} {value : Int64}
    (h : extensible = true ∨ bounds.contains value = true) :
    Unpacker.Takes s (unpackInteger bounds extensible) (integerForm bounds extensible value) value := by
  unfold unpackInteger integerForm
  cases extensible with
  | false =>
    rw [if_neg Bool.false_ne_true, if_neg Bool.false_ne_true]
    exact takes_unpackRoot s (h.resolve_left Bool.false_ne_true)
  | true =>
    rw [if_pos rfl, if_pos rfl]
    by_cases hc : bounds.contains value = true
    · rw [if_pos hc]
      refine Unpacker.takes_bit_bind fun s1 _ => ?_
      rw [if_neg Bool.false_ne_true]
      exact takes_unpackRoot s1 hc
    · rw [if_neg hc]
      refine Unpacker.takes_bit_bind fun s1 _ => ?_
      rw [if_pos rfl]
      exact takes_unpackFree_signed s1 value

/-- An INTEGER that is read lies within its bounds or is of an extensible type, unless the bounds are open below only. -/
theorem gives_unpackInteger (s : σ) (bounds : Bounds Int64) (extensible : Bool) :
    Unpacker.Gives s (unpackInteger bounds extensible) fun value =>
      extensible = true ∨ bounds.lower.isSome = true ∨ bounds.upper = none →
        extensible = true ∨ bounds.contains value = true := by
  unfold unpackInteger
  cases extensible with
  | false =>
    rw [if_neg Bool.false_ne_true]
    exact (gives_unpackRoot s bounds).weaken fun value hv h => Or.inr (hv (h.resolve_left Bool.false_ne_true))
  | true =>
    rw [if_pos rfl]
    refine (Unpacker.gives_bit s).bind fun outside s1 _ _ _ => ?_
    exact Unpacker.gives_ite (fun _ => (gives_unpackFree_signed s1).weaken fun _ _ _ => Or.inl rfl)
      fun _ => (gives_unpackRoot s1 bounds).weaken fun _ _ _ => Or.inl rfl

end Unpack

/-! ## What is read can be written -/

/-- Reading checks what writing checks: what is read as an INTEGER can be written as it, and it lies within the bounds or the first
bit read says that it does not. -/
def Rechecks (bounds : Bounds Int64) (extensible : Bool) : Prop :=
  ∀ {σ : Type} [BitSource σ] [LawfulBitSource σ] (s s' : σ) (value : Int64),
    unpackInteger bounds extensible s = .ok value s' →
      (∀ {τ : Type} [BitSink τ] [LawfulBitSink τ] (t : τ), ∃ t', packInteger bounds extensible value t = .ok () t') ∧
        (bounds.contains value = true ∨ extensible = true ∧ (LawfulBitSource.ahead s).head? = some true)

/-- Bounds that are open below leave nothing to check when they are open above or end at the greatest number. -/
theorem contains_of_open {bounds : Bounds Int64} (hlower : bounds.lower.isSome = false)
    (hupper : bounds.upper = none ∨ bounds.upper = some Int64.maxValue) (value : Int64) : bounds.contains value = true := by
  obtain ⟨lower, upper⟩ := bounds
  cases lower with
  | some lower => cases hlower
  | none =>
    rcases hupper with rfl | rfl
    · rfl
    · simp [Bounds.contains, Int64.le_maxValue]

/-- A number of the root that is read lies within the bounds, if they are closed below or not closed above. -/
theorem contains_of_unpackRoot {σ : Type} [BitSource σ] [LawfulBitSource σ] {bounds : Bounds Int64} {s s' : σ} {value : Int64}
    (h : bounds.lower.isSome = true ∨ bounds.upper = none ∨ bounds.upper = some Int64.maxValue)
    (hread : unpackRoot bounds s = .ok value s') : bounds.contains value = true := by
  cases hlower : bounds.lower.isSome with
  | true => exact (gives_unpackRoot s bounds hread).1 (.inl hlower)
  | false => exact contains_of_open hlower (h.resolve_left (by rw [hlower]; exact Bool.false_ne_true)) value

/-- A number that is read lies within the bounds, or the bit in front of it says that it does not. -/
theorem contains_of_unpackInteger {σ : Type} [BitSource σ] [LawfulBitSource σ] {bounds : Bounds Int64} {extensible : Bool}
    {s s' : σ} {value : Int64}
    (h : bounds.lower.isSome = true ∨ bounds.upper = none ∨ bounds.upper = some Int64.maxValue)
    (hread : unpackInteger bounds extensible s = .ok value s') :
    bounds.contains value = true ∨ extensible = true ∧ (LawfulBitSource.ahead s).head? = some true := by
  unfold unpackInteger at hread
  cases extensible with
  | false =>
    rw [if_neg Bool.false_ne_true] at hread
    exact .inl (contains_of_unpackRoot h hread)
  | true =>
    rw [if_pos rfl, run_bind, Unpacker.bit] at hread
    cases hahead : LawfulBitSource.ahead s with
    | nil =>
      rw [LawfulBitSource.readBit_nil hahead] at hread
      cases hread
    | cons outside rest =>
      obtain ⟨s1, hbit, -⟩ := LawfulBitSource.readBit_cons hahead
      rw [hbit] at hread
      cases outside with
      | true => exact .inr ⟨rfl, rfl⟩
      | false => exact .inl (contains_of_unpackRoot h hread)

/-- With bounds that are open below, the greatest number is read from its bits, whatever the upper bound. -/
theorem takes_unpackInteger_greatest (v : BitView) {bounds : Bounds Int64} (hlower : bounds.lower = none) (extensible : Bool) :
    Unpacker.Takes v (unpackInteger bounds extensible)
      ((if extensible then [false] else []) ++ signedForm Int64.maxValue) Int64.maxValue := by
  have hroot : ∀ v : BitView, Unpacker.Takes v (unpackRoot bounds) (signedForm Int64.maxValue) Int64.maxValue := fun v => by
    rw [unpackRoot, hlower]
    exact takes_unpackFree_signed v Int64.maxValue
  unfold unpackInteger
  cases extensible with
  | false => exact hroot v
  | true => exact Unpacker.takes_bit_bind fun v1 _ => hroot v1

/-- So there is a view on which it is read, with the bit in front unset that tells whether it is within the bounds. -/
theorem exists_unpackInteger_greatest {bounds : Bounds Int64} (hlower : bounds.lower = none) (extensible : Bool) :
    ∃ v v' : BitView, unpackInteger bounds extensible v = .ok Int64.maxValue v' ∧
      (extensible = true → v.toList.head? = some false) := by
  obtain ⟨v, v', hlist, hread⟩ := Unpacker.exists_of_takes fun v => takes_unpackInteger_greatest v hlower extensible
  refine ⟨v, v', hread, ?_⟩
  rintro rfl
  rw [hlist]
  rfl

/-- Reading an INTEGER checks what writing it checks exactly when its bounds are closed below or not closed above. -/
theorem rechecks_iff (bounds : Bounds Int64) (extensible : Bool) :
    Rechecks bounds extensible ↔
      bounds.lower.isSome = true ∨ bounds.upper = none ∨ bounds.upper = some Int64.maxValue := by
  constructor
  · -- The greatest number is read, and it is within the bounds only if they end with it.
    intro h
    by_cases hlower : bounds.lower.isSome = true
    · exact .inl hlower
    · have hnone : bounds.lower = none := Option.not_isSome_iff_eq_none.mp hlower
      obtain ⟨v, v', hread, hunset⟩ := exists_unpackInteger_greatest hnone extensible
      rcases (h v v' _ hread).2 with hc | ⟨he, hflag⟩
      · refine .inr ?_
        cases hupper : bounds.upper with
        | none => exact .inl rfl
        | some upper =>
          simp only [Bounds.contains, hnone, hupper, Option.all_none, Option.all_some, Bool.true_and, decide_eq_true_eq] at hc
          exact .inr (congrArg some (Int64.le_antisymm (Int64.le_maxValue upper) hc))
      · cases (hunset he).symm.trans hflag
  · intro h σ _ _ s s' value hread
    have hwithin := contains_of_unpackInteger h hread
    refine ⟨fun t => ?_, hwithin⟩
    obtain ⟨t', hwrite, -⟩ := (writesIf_packInteger t bounds extensible value).1 (hwithin.symm.imp_left And.left)
    exact ⟨t', hwrite⟩

/-- Eleven is read under an upper bound of ten, and cannot be written under it. -/
theorem not_rechecks_above_upper :
    (∃ v', unpackInteger ⟨none, some 10⟩ false (BitView.ofOctets #[0x01, 0x0B] 16) = .ok 11 v') ∧
      packInteger ⟨none, some 10⟩ false 11 BitBuffer.empty =
        .error (.valueNotInRange 11 Int64.minValue 10) BitBuffer.empty ∧
      ¬Rechecks ⟨none, some 10⟩ false := by
  have hread : ∃ v', unpackInteger ⟨none, some 10⟩ false (BitView.ofOctets #[0x01, 0x0B] 16) = .ok 11 v' := by
    obtain ⟨v', hv, -⟩ := takes_unpackFree_signed (BitView.ofOctets #[0x01, 0x0B] 16) 11 (by decide +kernel)
    exact ⟨v', hv⟩
  refine ⟨hread, rfl, fun h => ?_⟩
  obtain ⟨v', hv⟩ := hread
  obtain ⟨b, hb⟩ := (h _ v' 11 hv).1 BitBuffer.empty
  cases hb

end WholeNumber

end UnalignedPer
