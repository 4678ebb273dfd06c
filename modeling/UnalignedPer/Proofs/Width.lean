import UnalignedPer.Proofs.Bits
import UnalignedPer.Width

/-!
# Numbers fit into their widths

A number fits into as many digits as `Width.ofNat` says, and a word or a signed number into as many octets as its packed form
takes. A number between two bounds is the digits of its offset (`Bits.offset`).
-/

namespace UnalignedPer

namespace Width

/-- A number has no more digits than its width says. -/
theorem lt_two_pow_ofNat (value : Nat) : value < 2 ^ ofNat value := by
  unfold ofNat
  split
  · rename_i h
    rw [h]
    decide
  · exact Nat.lt_log2_self

/-- A number below a power of two is no wider than its exponent. -/
theorem ofNat_le {value width : Nat} (h : value < 2 ^ width) : ofNat value ≤ width := by
  unfold ofNat
  split
  · exact Nat.zero_le _
  · rename_i h0
    exact (Nat.log2_lt h0).mpr h

theorem ofWord_le (value : UInt64) : ofWord value ≤ 64 :=
  ofNat_le value.toNat_lt

/-! ## Two's complement -/

/-- A power of two is the same natural number and integer. -/
theorem natCast_two_pow (n : Nat) : ((2 ^ n : Nat) : Int) = 2 ^ n := by
  rw [Int.natCast_pow]
  rfl

/-- The word of a signed number. -/
theorem toNat_toUInt64 (value : Int64) :
    (value.toUInt64.toNat : Int) = if value.toInt < 0 then value.toInt + 2 ^ 64 else value.toInt := by
  have h : value.toInt = Int.bmod value.toUInt64.toNat (2 ^ 64) := BitVec.toInt_eq_toNat_bmod _
  have hlt := value.toUInt64.toNat_lt
  rw [Int.bmod_def] at h
  split <;> omega

/-- The digits that count for a number's octets: its own, or those of its complement when it is negative. -/
theorem toNat_magnitude (value : Int64) :
    ((if value < 0 then ~~~value.toUInt64 else value.toUInt64).toNat : Int) =
      if value.toInt < 0 then -value.toInt - 1 else value.toInt := by
  have hn := toNat_toUInt64 value
  have hlt : value < 0 ↔ value.toInt < 0 := Int64.lt_iff_toInt_lt
  by_cases hv : value.toInt < 0
  · rw [if_pos hv] at hn ⊢
    rw [if_pos (hlt.mpr hv), UInt64.toNat_not]
    have := value.toUInt64.toNat_lt
    simp only [UInt64.size]
    omega
  · rw [if_neg hv] at hn ⊢
    rw [if_neg (fun h => hv (hlt.mp h))]
    exact hn

/-- The magnitude of a signed number leaves a bit of a word for the sign. -/
theorem magnitude_lt (value : Int64) : (if value < 0 then ~~~value.toUInt64 else value.toUInt64).toNat < 2 ^ 63 := by
  have h := toNat_magnitude value
  have h1 := value.toInt_lt
  have h2 := value.le_toInt
  by_cases hv : value.toInt < 0
  · rw [if_pos hv] at h
    omega
  · rw [if_neg hv] at h
    omega

/-- A signed number takes one to eight octets. -/
theorem signedOctets_bounds (value : Int64) : 1 ≤ signedOctets value ∧ signedOctets value ≤ 8 := by
  have h : ofWord (if value < 0 then ~~~value.toUInt64 else value.toUInt64) ≤ 63 := ofNat_le (magnitude_lt value)
  simp only [signedOctets]
  omega

/-- A signed number fits into its octets with a bit for the sign. -/
theorem signedOctets_fits (value : Int64) :
    -2 ^ (signedOctets value * 8 - 1) ≤ value.toInt ∧ value.toInt < 2 ^ (signedOctets value * 8 - 1) := by
  have h := toNat_magnitude value
  have hw : (if value < 0 then ~~~value.toUInt64 else value.toUInt64).toNat < 2 ^ (signedOctets value * 8 - 1) := by
    refine Nat.lt_of_lt_of_le (lt_two_pow_ofNat _) (Nat.pow_le_pow_right (by decide) ?_)
    simp only [signedOctets, ofWord]
    omega
  rw [← natCast_two_pow]
  by_cases hv : value.toInt < 0
  · rw [if_pos hv] at h
    omega
  · rw [if_neg hv] at h
    omega

/-- The low bits of a signed number are the number modulo their range, whichever sign it has. -/
theorem toNat_low (value : Int64) {width : Nat} (h64 : width ≤ 64) :
    ((value.toUInt64.toNat % 2 ^ width : Nat) : Int) = value.toInt % 2 ^ width := by
  have hpow : (2 : Int) ^ width * 2 ^ (64 - width) = 2 ^ 64 := by rw [← Int.pow_add]; congr 1; omega
  rw [Int.natCast_emod, natCast_two_pow, toNat_toUInt64]
  split
  · rw [← hpow, Int.add_mul_emod_self_left]
  · rfl

/-- A number that fits into some bits is the sign extension of its low bits. -/
theorem signExtend_low (value : Int64) {width : Nat} (h1 : 1 ≤ width) (h64 : width ≤ 64)
    (hlo : -2 ^ (width - 1) ≤ value.toInt) (hhi : value.toInt < 2 ^ (width - 1)) :
    signExtend (UInt64.ofNat (value.toUInt64.toNat % 2 ^ width)) width = value := by
  obtain ⟨k, hk⟩ : ∃ k, k = 64 - width := ⟨_, rfl⟩
  have hpow : (2 : Int) ^ width * 2 ^ k = 2 ^ 64 := by rw [← Int.pow_add]; congr 1; omega
  have hpos : (0 : Int) < 2 ^ k := Int.pow_pos (by decide)
  have hlt : value.toUInt64.toNat % 2 ^ width < 2 ^ 64 :=
    Nat.lt_of_le_of_lt (Nat.mod_le _ _) value.toUInt64.toNat_lt
  have hscaled : Int.bmod (((value.toUInt64.toNat % 2 ^ width : Nat) : Int) * 2 ^ k) (2 ^ 64) = value.toInt * 2 ^ k := by
    have he : ((value.toUInt64.toNat % 2 ^ width : Nat) : Int) * 2 ^ k = value.toInt * 2 ^ k % ((2 ^ 64 : Nat) : Int) := by
      rw [toNat_low value h64, Int.mul_comm, ← Int.mul_emod_mul_of_pos _ _ hpos, Int.mul_comm (2 ^ k) value.toInt,
        Int.mul_comm (2 ^ k) (2 ^ width), hpow]
      rfl
    have hhalf : (2 : Int) ^ (width - 1) * 2 ^ k = 2 ^ 63 := by rw [← Int.pow_add]; congr 1; omega
    have hle : -2 ^ 63 ≤ value.toInt * 2 ^ k := by
      rw [← hhalf, ← Int.neg_mul]
      exact Int.mul_le_mul_of_nonneg_right hlo (Int.le_of_lt hpos)
    have hge : value.toInt * 2 ^ k < 2 ^ 63 := by
      rw [← hhalf]
      exact Int.mul_lt_mul_of_pos_right hhi hpos
    rw [he, Int.emod_bmod, Int.bmod_eq_of_le (by omega) (by omega)]
  have hshift : ((UInt64.ofNat (value.toUInt64.toNat % 2 ^ width) <<< UInt64.ofNat k).toInt64).toInt = value.toInt * 2 ^ k := by
    have hkv : (UInt64.ofNat k).toBitVec % 64 = BitVec.ofNat 64 k := by
      apply BitVec.eq_of_toNat_eq
      rw [BitVec.toNat_umod, BitVec.toNat_ofNat, UInt64.toNat_toBitVec, UInt64.toNat_ofNat',
        show (64 : BitVec 64).toNat = 64 from rfl]
      omega
    rw [← hscaled]
    refine (congrArg BitVec.toInt (UInt64.toBitVec_shiftLeft _ _)).trans ?_
    rw [hkv, BitVec.shiftLeft_eq', BitVec.toInt_shiftLeft, UInt64.toNat_toBitVec, UInt64.toNat_ofNat', BitVec.toNat_ofNat,
      Nat.mod_eq_of_lt hlt, show k % 2 ^ 64 = k by omega, Nat.shiftLeft_eq, Int.natCast_mul, natCast_two_pow]
  have hback : (Int64.ofNat k).toBitVec.smod 64 = BitVec.ofNat 64 k := by
    have key : ∀ m : Fin 64, (Int64.ofNat m.val).toBitVec.smod 64 = BitVec.ofNat 64 m.val := by decide
    exact key ⟨k, by omega⟩
  apply Int64.toInt.inj
  rw [signExtend, if_neg (by omega), ← hk]
  refine (congrArg BitVec.toInt (Int64.toBitVec_shiftRight _ _)).trans ?_
  rw [hback, BitVec.sshiftRight_eq', BitVec.toInt_sshiftRight, BitVec.toNat_ofNat, show k % 2 ^ 64 = k by omega,
    Int.shiftRight_eq_div_pow]
  refine (congrArg (· / (((2 ^ k : Nat) : Int))) hshift).trans ?_
  rw [natCast_two_pow]
  exact Int.mul_ediv_cancel _ (Int.ne_of_gt hpos)

/-- A number modulo the range of some bits lies in that range, and it is the number itself if that does. -/
theorem bmod_two_pow (value : Int) {width : Nat} (h1 : 1 ≤ width) :
    (-2 ^ (width - 1) ≤ Int.bmod value (2 ^ width) ∧ Int.bmod value (2 ^ width) < 2 ^ (width - 1)) ∧
      (-2 ^ (width - 1) ≤ value → value < 2 ^ (width - 1) → Int.bmod value (2 ^ width) = value) := by
  obtain ⟨half, hhalf⟩ : ∃ half, half = 2 ^ (width - 1) := ⟨_, rfl⟩
  have hrange : 2 ^ width = 2 * half := by rw [hhalf, ← Nat.pow_succ', Nat.succ_eq_add_one, Nat.sub_add_cancel h1]
  have hpos : 0 < 2 * half := hrange ▸ Nat.two_pow_pos width
  have hlo := Int.le_bmod (x := value) hpos
  have hhi := Int.bmod_lt (x := value) hpos
  rw [← natCast_two_pow, ← hhalf, hrange]
  exact ⟨by omega, fun h h' => Int.bmod_eq_of_le (by omega) (by omega)⟩

/-- The sign extension of a word is the number in two's complement that the word is modulo its range. -/
theorem toInt_signExtend (word : UInt64) {width : Nat} (h64 : width ≤ 64) (hw : word.toNat < 2 ^ width) :
    (signExtend word width).toInt = Int.bmod word.toNat (2 ^ width) := by
  rcases Nat.eq_zero_or_pos width with rfl | h1
  · rw [show word.toNat = 0 by omega]
    rfl
  · obtain ⟨value, hvalue⟩ : ∃ value, value = Int64.ofInt (Int.bmod word.toNat (2 ^ width)) := ⟨_, rfl⟩
    have hbounds := (bmod_two_pow word.toNat h1).1
    have hint : value.toInt = Int.bmod word.toNat (2 ^ width) := by
      have hle : ((2 ^ (width - 1) : Nat) : Int) ≤ (2 ^ 63 : Nat) :=
        Int.ofNat_le.mpr (Nat.pow_le_pow_right (by decide) (by omega))
      rw [← natCast_two_pow] at hbounds
      rw [hvalue]
      exact Int64.toInt_ofInt_of_le (by omega) (by omega)
    have hlow : value.toUInt64.toNat % 2 ^ width = word.toNat := by
      have hmod := toNat_low value h64
      rw [hint, ← natCast_two_pow, Int.bmod_emod, ← Int.natCast_emod, Nat.mod_eq_of_lt hw] at hmod
      exact Int.ofNat_inj.mp hmod
    have hext := signExtend_low value h1 h64 (hint ▸ hbounds.1) (hint ▸ hbounds.2)
    rw [hlow, UInt64.ofNat_toNat] at hext
    rw [hext, hint]

end Width

namespace Bits

/-- The digits of a number between two bounds: its offset from the lower one, in the width of the range. -/
def offset (lower upper value : Int) : List Bool :=
  ofNat (value - lower).toNat (Width.ofNat (upper - lower).toNat)

/-- An offset fits into the width of its range. -/
theorem offset_lt {lower upper value : Int} (h : value ≤ upper) :
    (value - lower).toNat < 2 ^ Width.ofNat (upper - lower).toNat :=
  Nat.lt_of_le_of_lt (by omega) (Width.lt_two_pow_ofNat (upper - lower).toNat)

/-- A range below the number of words has offsets of at most 64 digits. -/
theorem width_offset_le {lower upper : Int} (h : upper - lower < 2 ^ 64) : Width.ofNat (upper - lower).toNat ≤ 64 :=
  Width.ofNat_le (by omega)

end Bits

end UnalignedPer
