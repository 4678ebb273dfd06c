import UnalignedPer.LengthDeterminant
import UnalignedPer.Proofs.BitBuffer
import UnalignedPer.Proofs.BitSource
import UnalignedPer.Proofs.Width

/-!
# Length determinants are read back

The bits of a length determinant (`LengthDeterminant.freeForm`, or `Bits.offset` between bounds) are what is written and what
is read again: a reader finds the number of units that the determinant covers, and whether more follow.
-/

namespace UnalignedPer

/-- A number of a fixed width is written as its digits, whatever word carries it. -/
theorem Packer.writes_word_ofNat {τ : Type} [BitSink τ] [LawfulBitSink τ] (s : τ) {value width : Nat}
    (hv : value < 2 ^ width) (h : width ≤ 64) :
    Packer.Writes s (Packer.word (UInt64.ofNat value) width) (Bits.ofNat value width) () := by
  have hw := Packer.writes_word s (UInt64.ofNat value) h
  have hlt : value < 2 ^ 64 := Nat.lt_of_lt_of_le hv (Nat.pow_le_pow_right (by decide) h)
  rw [UInt64.toNat_ofNat', Nat.mod_eq_of_lt hlt] at hw
  exact hw

namespace LengthDeterminant

/-- The determinant of a content of free length, as far as one determinant reaches. -/
def freeForm (length : Nat) : List Bool :=
  if length ≤ shortLimit then false :: Bits.ofNat length 7
  else if length < fragmentUnit then true :: false :: Bits.ofNat length 14
  else true :: true :: Bits.ofNat (headerUnits length) 6

/-- The determinant that covers the front of a content of free length. -/
def chunkOf (length : Nat) : Chunk :=
  ⟨covered length, decide (fragmentUnit ≤ length)⟩

/-- The first chunk of a length is a fragment from a fragment's length on. -/
theorem isFragment_chunkOf (length : Nat) : (chunkOf length).isFragment = true ↔ fragmentUnit ≤ length :=
  decide_eq_true_iff

/-- A length below a fragment is covered at once. -/
theorem covered_of_lt {length : Nat} (h : length < fragmentUnit) : covered length = length :=
  if_pos h

/-- A determinant covers no more than there is. -/
theorem covered_le (length : Nat) : covered length ≤ length := by
  by_cases h : length < fragmentUnit
  · exact Nat.le_of_eq (covered_of_lt h)
  · exact (covered_bounds length h).2

/-- A fragment header announces one to four units. -/
theorem headerUnits_bounds {length : Nat} (h : ¬length < fragmentUnit) :
    1 ≤ headerUnits length ∧ headerUnits length ≤ maxFragmentUnits := by
  simp only [headerUnits, fragmentUnit, maxFragmentUnits] at h ⊢
  omega

/-- A determinant takes at least one octet. -/
theorem length_freeForm (length : Nat) : 8 ≤ (freeForm length).length := by
  unfold freeForm
  split
  · simp
  · split <;> simp

/-- An upper bound counts as one if it is below the limit. -/
theorem boundedUpper_eq_some {bounds : Bounds Nat} {upper : Nat} (h : boundedUpper bounds = some upper) :
    bounds.upper = some upper ∧ upper < boundedLimit := by
  unfold boundedUpper at h
  rw [Option.filter_eq_some_iff] at h
  exact ⟨h.1, of_decide_eq_true h.2⟩

section Pack

variable {τ : Type} [BitSink τ] [LawfulBitSink τ]

/-- The free form of a length is written, for as much as one chunk covers. -/
theorem writes_packFree (s : τ) (length : Nat) : Packer.Writes s (packFree length) (freeForm length) () := by
  unfold packFree freeForm
  split
  · rename_i h
    simp only [shortLimit] at h
    refine Packer.writes_bit_bind fun s1 _ => ?_
    exact Packer.writes_word_ofNat s1 (by omega) (by omega)
  · split
    · rename_i h
      simp only [fragmentUnit] at h
      refine Packer.writes_bit_bind fun s1 _ => Packer.writes_bit_bind fun s2 _ => ?_
      exact Packer.writes_word_ofNat s2 (by omega) (by omega)
    · rename_i h
      have hu := (headerUnits_bounds h).2
      simp only [maxFragmentUnits] at hu
      refine Packer.writes_bit_bind fun s1 _ => Packer.writes_bit_bind fun s2 _ => ?_
      exact Packer.writes_word_ofNat s2 (by omega) (by omega)

/-- A length within bounds below the limit is written as its offset. -/
theorem writes_pack (s : τ) {bounds : Bounds Nat} {upper length : Nat} (hb : boundedUpper bounds = some upper)
    (hlo : bounds.lower.getD 0 ≤ length) (hhi : length ≤ upper) :
    Packer.Writes s (pack bounds length) (Bits.offset (bounds.lower.getD 0 : Nat) upper length) length := by
  have hlt := (boundedUpper_eq_some hb).2
  simp only [boundedLimit] at hlt
  simp only [pack, hb, Bits.offset]
  rw [if_neg (by omega), Int.toNat_sub, Int.toNat_sub, ← List.append_nil (Bits.ofNat _ _)]
  have hv : length - bounds.lower.getD 0 < 2 ^ Width.ofNat (upper - bounds.lower.getD 0) :=
    Nat.lt_of_le_of_lt (by omega) (Width.lt_two_pow_ofNat (upper - bounds.lower.getD 0))
  exact (Packer.writes_word_ofNat s hv (Width.ofNat_le (by omega))).bind fun s' _ => Packer.writes_pure s' length

end Pack

section Unpack

variable {σ : Type} [BitSource σ] [LawfulBitSource σ]

/-- A length of a fixed width is read from its digits. -/
theorem takes_unpackWidth (s : σ) {value width : Nat} (hv : value < 2 ^ width) (h : width ≤ 64) :
    Unpacker.Takes s (unpackWidth width) (Bits.ofNat value width) value := by
  have ht := (Unpacker.takes_word_ofNat s hv h).map UInt64.toNat
  have hlt : value < 2 ^ 64 := Nat.lt_of_lt_of_le hv (Nat.pow_le_pow_right (by decide) h)
  rw [UInt64.toNat_ofNat', Nat.mod_eq_of_lt hlt] at ht
  exact ht

/-- Reading a length of a fixed width goes forward, whatever the bits are. -/
theorem gives_unpackWidth (s : σ) (width : Nat) : Unpacker.Gives s (unpackWidth width) fun _ => True :=
  (Unpacker.gives_word s width).map _ fun _ _ => trivial

/-- The determinant of a content of free length is read back. -/
theorem takes_unpackFree (s : σ) (length : Nat) : Unpacker.Takes s unpackFree (freeForm length) (chunkOf length) := by
  unfold unpackFree freeForm chunkOf
  by_cases h7 : length ≤ shortLimit
  · rw [if_pos h7]
    have hs : length < fragmentUnit := by simp only [shortLimit, fragmentUnit] at *; omega
    have hn : decide (fragmentUnit ≤ length) = false := decide_eq_false (by omega)
    simp only [shortLimit] at h7
    rw [covered_of_lt hs, hn]
    refine Unpacker.takes_bit_bind fun s1 _ => ?_
    rw [if_pos Bool.not_false]
    exact (takes_unpackWidth s1 (by omega) (by omega)).map fun n => (⟨n, false⟩ : Chunk)
  rw [if_neg h7]
  by_cases hs : length < fragmentUnit
  · rw [if_pos hs]
    have hn : decide (fragmentUnit ≤ length) = false := decide_eq_false (by omega)
    rw [covered_of_lt hs, hn]
    simp only [fragmentUnit] at hs
    refine Unpacker.takes_bit_bind fun s1 _ => ?_
    rw [if_neg (by decide)]
    refine Unpacker.takes_bit_bind fun s2 _ => ?_
    rw [if_pos Bool.not_false]
    exact (takes_unpackWidth s2 (by omega) (by omega)).map fun n => (⟨n, false⟩ : Chunk)
  · rw [if_neg hs]
    have hn : decide (fragmentUnit ≤ length) = true := decide_eq_true (by omega)
    have hu := headerUnits_bounds hs
    rw [covered, if_neg hs, hn]
    refine Unpacker.takes_bit_bind fun s1 _ => ?_
    rw [if_neg (by decide)]
    refine Unpacker.takes_bit_bind fun s2 _ => ?_
    rw [if_neg (by decide), ← List.append_nil (Bits.ofNat _ _)]
    simp only [maxFragmentUnits] at hu
    refine Unpacker.Takes.bind (takes_unpackWidth s2 (by omega) (by omega)) fun s3 _ => ?_
    rw [if_neg (by simp only [maxFragmentUnits]; omega)]
    exact Unpacker.takes_pure s3 _

/-- Reading a length without bounds goes forward, whatever the bits are. -/
theorem gives_unpackFree (s : σ) : Unpacker.Gives s unpackFree fun _ => True := by
  unfold unpackFree
  refine (Unpacker.gives_bit s).bind fun isLong s1 _ _ _ => ?_
  refine Unpacker.gives_ite (fun _ => (gives_unpackWidth s1 7).map _ fun _ _ => trivial) fun _ => ?_
  refine (Unpacker.gives_bit s1).bind fun isFragment s2 _ _ _ => ?_
  refine Unpacker.gives_ite (fun _ => (gives_unpackWidth s2 14).map _ fun _ _ => trivial) fun _ => ?_
  refine (gives_unpackWidth s2 6).bind fun units s3 _ _ _ => ?_
  exact Unpacker.gives_ite (fun _ => Unpacker.gives_throw s3 _ _) fun _ => Unpacker.gives_pure s3 trivial

/-- A length within bounds below the limit is read back from its offset. -/
theorem takes_unpack (s : σ) {bounds : Bounds Nat} {upper length : Nat} (hb : boundedUpper bounds = some upper)
    (hlo : bounds.lower.getD 0 ≤ length) (hhi : length ≤ upper) :
    Unpacker.Takes s (unpack bounds) (Bits.offset (bounds.lower.getD 0 : Nat) upper length) ⟨length, false⟩ := by
  have hlt := (boundedUpper_eq_some hb).2
  simp only [boundedLimit] at hlt
  simp only [unpack, hb, Bits.offset]
  rw [if_neg (by omega), Int.toNat_sub, Int.toNat_sub, ← List.append_nil (Bits.ofNat _ _)]
  have hv : length - bounds.lower.getD 0 < 2 ^ Width.ofNat (upper - bounds.lower.getD 0) :=
    Nat.lt_of_le_of_lt (by omega) (Width.lt_two_pow_ofNat (upper - bounds.lower.getD 0))
  refine (takes_unpackWidth s hv (Width.ofNat_le (by omega))).bind fun s1 _ => ?_
  rw [Nat.add_sub_cancel' hlo, if_neg (by omega)]
  exact Unpacker.takes_pure s1 _

/-- Only a length of free form is followed by another one. -/
theorem gives_unpack (s : σ) (bounds : Bounds Nat) :
    Unpacker.Gives s (unpack bounds) fun chunk => chunk.isFragment = true → boundedUpper bounds = none := by
  unfold unpack
  split
  · refine Unpacker.gives_ite (fun _ => Unpacker.gives_throw s _ _) fun _ => ?_
    refine (gives_unpackWidth s _).bind fun offset s1 _ _ _ => ?_
    exact Unpacker.gives_ite (fun _ => Unpacker.gives_throw s1 _ _) fun _ => Unpacker.gives_pure s1 Bool.noConfusion
  · rename_i hb
    exact (gives_unpackFree s).weaken fun _ _ _ => hb

end Unpack

end LengthDeterminant

end UnalignedPer
