import UnalignedPer.Octets.Copy
import UnalignedPer.Proofs.Octets.Bits

/-!
# Copying bits, bit by bit

Whatever path a copy takes, it is the same as copying one bit at a time (`Octets.copyBits_eq`): the bits of the destination
that the run covers become those of the source, and all others stay (`Octets.getBit_copyBits`).
-/

namespace UnalignedPer

namespace Octets

/-- Copying bit by bit changes no size. -/
@[simp] theorem size_copyEach (dst : Octets) (d : Nat) (src : Octets) (s count : Nat) :
    (copyEach dst d src s count).size = dst.size := by
  induction count generalizing dst d s with
  | zero => rfl
  | succ count ih => rw [copyEach, ih, size_setBit]

/-- Copying one bit at a time covers a run of the destination and nothing else. -/
theorem getBit_copyEach (dst : Octets) (d : Nat) (src : Octets) (s count q : Nat) :
    getBit (copyEach dst d src s count) q =
      if d ≤ q ∧ q < d + count ∧ q < dst.size * 8 then getBit src (s + (q - d)) else getBit dst q := by
  induction count generalizing dst d s with
  | zero => rw [copyEach, if_neg (by omega)]
  | succ count ih =>
    rw [copyEach, ih, size_setBit, getBit_setBit]
    by_cases hin : d + 1 ≤ q ∧ q < d + 1 + count ∧ q < dst.size * 8
    · rw [if_pos hin, if_pos (by omega), show s + 1 + (q - (d + 1)) = s + (q - d) by omega]
    · rw [if_neg hin]
      by_cases hq : q = d ∧ d < dst.size * 8
      · rw [if_pos hq, if_pos (by omega), hq.1, Nat.sub_self, Nat.add_zero]
      · rw [if_neg hq, if_neg (by omega)]

/-- The bits of an octet that is joined from two neighbours are the eight bits from the shift on. -/
theorem getLsbD_joinedOctet (src : Octets) (i shift j : Nat) (hs : shift < 8) (hj : j < 8) :
    (joinedOctet src i shift).toBitVec.getLsbD (7 - j) = getBit src (i * 8 + shift + j) := by
  -- The two octets are arbitrary, so only the eight shifts and the eight places are told apart.
  have key : ∀ (m n : Fin 8) (a b : BitVec 8), m.val ≠ 0 →
      ((UInt8.ofBitVec a <<< UInt8.ofNat m.val) ||| (UInt8.ofBitVec b >>> UInt8.ofNat (8 - m.val))).toBitVec.getLsbD (7 - n.val)
        = if m.val + n.val < 8 then a.getLsbD (7 - (m.val + n.val)) else b.getLsbD (15 - (m.val + n.val)) := by
    intro m n a b
    revert m n
    simp only [UInt8.toBitVec_or, UInt8.toBitVec_shiftLeft, UInt8.toBitVec_shiftRight, BitVec.getLsbD_or]
    have hm : ∀ m : Fin 8, (UInt8.ofNat m.val).toBitVec % 8 = BitVec.ofNat 8 m.val := by decide
    have hm' : ∀ m : Fin 8, m.val ≠ 0 → (UInt8.ofNat (8 - m.val)).toBitVec % 8 = BitVec.ofNat 8 (8 - m.val) := by decide
    intro m n hne
    rw [hm, hm' m hne, BitVec.shiftLeft_eq', BitVec.ushiftRight_eq', BitVec.getLsbD_shiftLeft, BitVec.getLsbD_ushiftRight]
    have hmv := m.isLt
    have hnv := n.isLt
    rw [BitVec.toNat_ofNat, BitVec.toNat_ofNat, Nat.mod_eq_of_lt (by omega), Nat.mod_eq_of_lt (by omega)]
    by_cases h : m.val + n.val < 8
    · rw [if_pos h, show 7 - n.val - m.val = 7 - (m.val + n.val) by omega]
      have hb : b.getLsbD (8 - m.val + (7 - n.val)) = false := BitVec.getLsbD_of_ge b _ (by omega)
      rw [hb]
      simp
      omega
    · rw [if_neg h, show 8 - m.val + (7 - n.val) = 15 - (m.val + n.val) by omega]
      have hl : decide (7 - n.val < m.val) = true := decide_eq_true (by omega)
      rw [hl]
      simp
  unfold joinedOctet
  by_cases h0 : shift = 0
  · rw [if_pos h0, h0, getBit_eq, show (i * 8 + 0 + j) / 8 = i by omega, show (i * 8 + 0 + j) % 8 = j by omega]
  · rw [if_neg h0, getBit_eq]
    refine (key ⟨shift, hs⟩ ⟨j, hj⟩ (octetAt src i).toBitVec (octetAt src (i + 1)).toBitVec h0).trans ?_
    by_cases h : shift + j < 8
    · rw [if_pos h, show (i * 8 + shift + j) / 8 = i by omega, show (i * 8 + shift + j) % 8 = shift + j by omega]
    · rw [if_neg h, show (i * 8 + shift + j) / 8 = i + 1 by omega,
        show 7 - (i * 8 + shift + j) % 8 = 15 - (shift + j) by omega]

/-- Copying octet by octet changes no size. -/
@[simp] theorem size_copyOctets (dst : Octets) (d : Nat) (src : Octets) (s shift count : Nat) :
    (copyOctets dst d src s shift count).size = dst.size := by
  induction count generalizing dst d s with
  | zero => rfl
  | succ count ih => rw [copyOctets, ih, Array.size_setIfInBounds]

/-- The bits after one octet was replaced. -/
theorem getBit_setIfInBounds (dst : Octets) (d : Nat) (octet : UInt8) (q : Nat) :
    getBit (dst.setIfInBounds d octet) q =
      if q / 8 = d ∧ q < dst.size * 8 then octet.toBitVec.getLsbD (7 - q % 8) else getBit dst q := by
  rw [getBit_eq, getBit_eq]
  unfold octetAt
  simp only [Array.getD_eq_getD_getElem?, Array.getElem?_setIfInBounds]
  by_cases hq : d = q / 8
  · rw [if_pos hq]
    by_cases hs : d < dst.size
    · rw [if_pos hs, if_pos (by omega : q / 8 = d ∧ q < dst.size * 8)]
      rfl
    · rw [if_neg hs, if_neg (by omega : ¬(q / 8 = d ∧ q < dst.size * 8)), Array.getElem?_eq_none (by omega)]
  · rw [if_neg hq, if_neg (by omega : ¬(q / 8 = d ∧ q < dst.size * 8))]

/-- Copying whole octets covers a run of octets of the destination and nothing else. -/
theorem getBit_copyOctets (dst : Octets) (d : Nat) (src : Octets) (s shift count q : Nat) (hs : shift < 8) :
    getBit (copyOctets dst d src s shift count) q =
      if d * 8 ≤ q ∧ q < (d + count) * 8 ∧ q < dst.size * 8 then getBit src (s * 8 + shift + (q - d * 8))
      else getBit dst q := by
  induction count generalizing dst d s with
  | zero => rw [copyOctets, if_neg (by omega)]
  | succ count ih =>
    rw [copyOctets, ih, Array.size_setIfInBounds, getBit_setIfInBounds]
    by_cases hin : (d + 1) * 8 ≤ q ∧ q < (d + 1 + count) * 8 ∧ q < dst.size * 8
    · rw [if_pos hin, if_pos (by omega), show (s + 1) * 8 + shift + (q - (d + 1) * 8) = s * 8 + shift + (q - d * 8) by omega]
    · rw [if_neg hin]
      by_cases hq : q / 8 = d ∧ q < dst.size * 8
      · rw [if_pos hq, if_pos (by omega), getLsbD_joinedOctet src s shift (q % 8) hs (Nat.mod_lt _ (by omega)),
          show q - d * 8 = q % 8 by omega]
      · rw [if_neg hq, if_neg (by omega)]

/-- Copying from a whole octet on changes no size. -/
@[simp] theorem size_copyAligned (dst : Octets) (d : Nat) (src : Octets) (s length : Nat) :
    (copyAligned dst d src s length).size = dst.size := by
  simp only [copyAligned, size_copyEach, size_copyOctets]

/-- Copying to an aligned place covers the run and nothing else. -/
theorem getBit_copyAligned (dst : Octets) (d : Nat) (src : Octets) (s length q : Nat) (hd : d % 8 = 0) :
    getBit (copyAligned dst d src s length) q =
      if d ≤ q ∧ q < d + length ∧ q < dst.size * 8 then getBit src (s + (q - d)) else getBit dst q := by
  unfold copyAligned
  simp only [getBit_copyEach, size_copyOctets, getBit_copyOctets _ _ _ _ _ _ _ (Nat.mod_lt s (by omega : 8 > 0))]
  by_cases hin : d ≤ q ∧ q < d + length ∧ q < dst.size * 8
  · rw [if_pos hin]
    by_cases ht : d + length / 8 * 8 ≤ q
    · rw [if_pos (by omega), show s + length / 8 * 8 + (q - (d + length / 8 * 8)) = s + (q - d) by omega]
    · rw [if_neg (by omega), if_pos (by omega), show s / 8 * 8 + s % 8 + (q - d / 8 * 8) = s + (q - d) by omega]
  · rw [if_neg hin, if_neg (by omega), if_neg (by omega)]

/-- Copying bits changes no size. -/
@[simp] theorem size_copyBits (dst : Octets) (d : Nat) (src : Octets) (s length : Nat) :
    (copyBits dst d src s length).size = dst.size := by
  unfold copyBits
  split
  · exact size_copyEach dst d src s length
  · rw [size_copyAligned, size_copyEach]

/-- A copy covers the run and nothing else, on every path. -/
theorem getBit_copyBits (dst : Octets) (d : Nat) (src : Octets) (s length q : Nat) :
    getBit (copyBits dst d src s length) q =
      if d ≤ q ∧ q < d + length ∧ q < dst.size * 8 then getBit src (s + (q - d)) else getBit dst q := by
  unfold copyBits
  split
  · exact getBit_copyEach dst d src s length q
  · rename_i hlen
    have hl : 16 < length := by simp only [bulkThreshold] at hlen; omega
    simp only [getBit_copyAligned _ (d + (8 - d % 8) % 8) src _ _ q (by omega), size_copyEach, getBit_copyEach]
    by_cases hin : d ≤ q ∧ q < d + length ∧ q < dst.size * 8
    · rw [if_pos hin]
      by_cases hh : d + (8 - d % 8) % 8 ≤ q
      · rw [if_pos (by omega), show s + (8 - d % 8) % 8 + (q - (d + (8 - d % 8) % 8)) = s + (q - d) by omega]
      · rw [if_neg (by omega), if_pos (by omega)]
    · rw [if_neg hin, if_neg (by omega), if_neg (by omega)]

/-- The octets with some bits in place of theirs from a position on. -/
def overlay (dst : Octets) (offset : Nat) : List Bool → Octets
  | [] => dst
  | bit :: rest => overlay (setBit dst offset bit) (offset + 1) rest

/-- Copying one bit at a time lays the bits of the source over those of the destination. -/
theorem copyEach_eq_overlay (dst : Octets) (d : Nat) (src : Octets) (s count : Nat) :
    copyEach dst d src s count = overlay dst d (bitsFrom src s count) := by
  induction count generalizing dst d s with
  | zero => rfl
  | succ count ih => rw [copyEach, ih, Nat.add_comm count 1, bitsFrom_add, bitsFrom_one, List.singleton_append, overlay]

/-- Every copy is a copy of one bit at a time. -/
theorem copyBits_eq (dst : Octets) (d : Nat) (src : Octets) (s length : Nat) :
    copyBits dst d src s length = copyEach dst d src s length := by
  apply ext_bits (by rw [size_copyBits, size_copyEach])
  intro q _
  rw [getBit_copyBits, getBit_copyEach]

/-- Copying bits is laying them over the target. -/
theorem copyBits_eq_overlay (dst : Octets) (d : Nat) (src : Octets) (s length : Nat) :
    copyBits dst d src s length = overlay dst d (bitsFrom src s length) := by
  rw [copyBits_eq, copyEach_eq_overlay]

/-- Bits laid over octets change no size. -/
@[simp] theorem size_overlay (dst : Octets) (offset : Nat) (bits : List Bool) :
    (overlay dst offset bits).size = dst.size := by
  induction bits generalizing dst offset with
  | nil => rfl
  | cons bit rest ih => rw [overlay, ih, size_setBit]

/-- The bits after some were laid over them. -/
theorem getBit_overlay (dst : Octets) (offset : Nat) (bits : List Bool) (q : Nat) :
    getBit (overlay dst offset bits) q =
      if offset ≤ q ∧ q < offset + bits.length ∧ q < dst.size * 8 then bits.getD (q - offset) false else getBit dst q := by
  induction bits generalizing dst offset with
  | nil => rw [overlay, if_neg (by simp only [List.length_nil]; omega)]
  | cons bit rest ih =>
    rw [overlay, ih, size_setBit, getBit_setBit, List.length_cons]
    by_cases hin : offset + 1 ≤ q ∧ q < offset + 1 + rest.length ∧ q < dst.size * 8
    · rw [if_pos hin, if_pos (by omega), show q - offset = q - (offset + 1) + 1 by omega, List.getD_cons_succ]
    · rw [if_neg hin]
      by_cases hq : q = offset ∧ offset < dst.size * 8
      · rw [if_pos hq, if_pos (by omega), hq.1, Nat.sub_self, List.getD_cons_zero]
      · rw [if_neg hq, if_neg (by omega)]

/-! ## The octets of some bits -/

/-- The octets that hold some bits and nothing else. -/
def ofBits (bits : List Bool) : Octets :=
  overlay (Array.replicate (countFor bits.length) 0) 0 bits

/-- No bits need no octets. -/
@[simp] theorem ofBits_nil : ofBits [] = #[] := rfl

/-- Bits take as many octets as they need. -/
@[simp] theorem size_ofBits (bits : List Bool) : (ofBits bits).size = countFor bits.length := by
  rw [ofBits, size_overlay, Array.size_replicate]

/-- The bits of the octets are the bits, and zeros behind them. -/
@[simp] theorem getBit_ofBits (bits : List Bool) (q : Nat) : getBit (ofBits bits) q = bits.getD q false := by
  rw [ofBits, getBit_overlay, Array.size_replicate, Nat.sub_zero]
  by_cases h : q < bits.length
  · rw [if_pos (by simp only [countFor]; omega)]
  · rw [if_neg (by omega), List.getD_eq_getElem?_getD, List.getElem?_eq_none (by omega), getBit_eq]
    unfold octetAt
    rw [Array.getD_eq_getD_getElem?, Array.getElem?_replicate]
    split <;> simp

/-- The bits of the octets of some bits. -/
theorem bitsFrom_ofBits (bits : List Bool) (start count : Nat) (h : start + count ≤ bits.length) :
    bitsFrom (ofBits bits) start count = (bits.drop start).take count := by
  apply List.ext_getElem
  · rw [length_bitsFrom, List.length_take, List.length_drop]
    omega
  · intro i h1 h2
    rw [length_bitsFrom] at h1
    rw [getElem_bitsFrom, getBit_ofBits, List.getElem_take, List.getElem_drop, List.getD_eq_getElem?_getD,
      List.getElem?_eq_getElem (by omega), Option.getD_some]

/-- Octets are the octets of their bits. -/
theorem ofBits_bitsFrom (data : Octets) : ofBits (bitsFrom data 0 (data.size * 8)) = data := by
  apply ext_bits
  · rw [size_ofBits, length_bitsFrom, countFor]
    omega
  · intro q hq
    rw [size_ofBits, length_bitsFrom, countFor] at hq
    rw [getBit_ofBits, List.getD_eq_getElem?_getD, getElem?_bitsFrom, if_pos (by omega), Nat.zero_add, Option.getD_some]

/-- Bits that are laid behind others in octets with room for both. -/
theorem overlay_ofBits (front back : List Bool) :
    overlay (growTo (ofBits front) (countFor (front.length + back.length))) front.length back = ofBits (front ++ back) := by
  apply ext_bits
  · rw [size_overlay, size_growTo, size_ofBits, size_ofBits, List.length_append]
    simp only [countFor]
    omega
  · intro q hq
    rw [size_overlay, size_growTo, size_ofBits] at hq
    rw [getBit_overlay, getBit_growTo, getBit_ofBits, getBit_ofBits, size_growTo, size_ofBits]
    simp only [List.getD_eq_getElem?_getD]
    by_cases hf : q < front.length
    · rw [if_neg (by omega), List.getElem?_append_left hf]
    · by_cases hb : q < front.length + back.length
      · rw [if_pos (by simp only [countFor] at hq ⊢; omega), List.getElem?_append_right (by omega)]
      · rw [if_neg (by omega), List.getElem?_eq_none (by omega), List.getElem?_append_right (by omega),
          List.getElem?_eq_none (by omega)]

end Octets

end UnalignedPer
