import UnalignedPer.Octets

/-!
# The bits of octets

What setting, clearing and growing do to the single bits of some octets, and the run of bits that starts at a position.
Octets are determined by their number and their bits (`Octets.ext_bits`), so every statement about an operation on octets
is a statement about `Octets.getBit`.
-/

namespace UnalignedPer

namespace Octets

/-! ## Single bits -/

/-- A bit of some octets is a binary digit of one of them. -/
theorem getBit_eq (data : Octets) (q : Nat) : getBit data q = (octetAt data (q / 8)).toBitVec.getLsbD (7 - q % 8) := by
  have key : ∀ (i : Fin 8) (o : BitVec 8),
      (UInt8.ofBitVec o &&& 0x80 >>> UInt8.ofNat i.val != 0) = o.getLsbD (7 - i.val) := by decide +kernel
  exact key ⟨q % 8, Nat.mod_lt _ (by omega)⟩ (octetAt data (q / 8)).toBitVec

/-- A bit outside the storage reads as zero. -/
theorem getBit_of_le (data : Octets) {q : Nat} (h : data.size * 8 ≤ q) : getBit data q = false := by
  have ho : octetAt data (q / 8) = 0 := by
    unfold octetAt
    rw [Array.getD_eq_getD_getElem?, Array.getElem?_eq_none (by omega)]
    rfl
  rw [getBit_eq, ho]
  simp

/-- The digits of a mask: one of them is set. -/
theorem getLsbD_bitMask (p j : Nat) (hj : j < 8) : (bitMask p).toBitVec.getLsbD (7 - j) = decide (p % 8 = j) := by
  have key : ∀ i j : Fin 8, ((0x80 : UInt8) >>> UInt8.ofNat i.val).toBitVec.getLsbD (7 - j.val) = decide (i.val = j.val) := by
    decide
  exact key ⟨p % 8, Nat.mod_lt _ (by omega)⟩ ⟨j, hj⟩

@[simp] theorem size_setBit (data : Octets) (p : Nat) (v : Bool) : (setBit data p v).size = data.size := by
  simp [setBit]

/-- The octets after a bit was set: one of them changes, if it is there. -/
theorem octetAt_setBit (data : Octets) (p : Nat) (v : Bool) (i : Nat) :
    octetAt (setBit data p v) i =
      if i = p / 8 ∧ i < data.size then
        (if v then octetAt data i ||| bitMask p else octetAt data i &&& ~~~bitMask p)
      else octetAt data i := by
  unfold octetAt setBit
  simp only [Array.getD_eq_getD_getElem?, Array.getElem?_modify]
  by_cases hp : p / 8 = i
  · by_cases hi : i < data.size
    · rw [if_pos hp, if_pos ⟨hp.symm, hi⟩, Array.getElem?_eq_getElem hi]
      rfl
    · rw [if_pos hp, if_neg (fun h => hi h.2), Array.getElem?_eq_none (by omega)]
      rfl
  · rw [if_neg hp, if_neg (fun h => hp h.1.symm)]

/-- Setting a bit of the storage changes that bit and no other. -/
theorem getBit_setBit (data : Octets) (p : Nat) (v : Bool) (q : Nat) :
    getBit (setBit data p v) q = if q = p ∧ p < data.size * 8 then v else getBit data q := by
  rw [getBit_eq, getBit_eq, octetAt_setBit]
  have hd := getLsbD_bitMask p (q % 8) (Nat.mod_lt _ (by omega))
  by_cases ho : q / 8 = p / 8 ∧ q / 8 < data.size
  · rw [if_pos ho]
    by_cases hq : q = p
    · rw [if_pos (⟨hq, by omega⟩ : q = p ∧ p < data.size * 8)]
      subst hq
      cases v <;> simp [hd]
    · have hne : ¬p % 8 = q % 8 := by omega
      rw [if_neg (fun h => hq h.1 : ¬(q = p ∧ p < data.size * 8))]
      cases v <;> simp [hd, hne]
      omega
  · rw [if_neg ho, if_neg (by omega)]

/-- Octets with the same number and the same bits are the same. -/
theorem ext_bits {a b : Octets} (hs : a.size = b.size) (h : ∀ q, q < a.size * 8 → getBit a q = getBit b q) : a = b := by
  apply Array.ext hs
  intro i ha hb
  have hoct : ∀ (data : Octets) (hi : i < data.size), octetAt data i = data[i] := by
    intro data hi
    unfold octetAt
    rw [Array.getD_eq_getD_getElem?, Array.getElem?_eq_getElem hi]
    rfl
  rw [← UInt8.toBitVec_inj]
  apply BitVec.eq_of_getLsbD_eq
  intro j hj
  have hq := h (i * 8 + (7 - j)) (by omega)
  rw [getBit_eq, getBit_eq, show (i * 8 + (7 - j)) / 8 = i by omega, show 7 - (i * 8 + (7 - j)) % 8 = j by omega,
    hoct a ha, hoct b hb] at hq
  exact hq

/-! ## Clearing, growing and cutting -/

@[simp] theorem size_clearBits (data : Octets) (start count : Nat) : (clearBits data start count).size = data.size := by
  induction count generalizing data start with
  | zero => rfl
  | succ count ih => rw [clearBits, ih, size_setBit]

/-- Clearing leaves the bits outside the run alone. -/
theorem getBit_clearBits (data : Octets) (start count q : Nat) :
    getBit (clearBits data start count) q = if start ≤ q ∧ q < start + count then false else getBit data q := by
  induction count generalizing data start with
  | zero => rw [clearBits, if_neg (by omega)]
  | succ count ih =>
    rw [clearBits, ih, getBit_setBit]
    by_cases hr : start + 1 ≤ q ∧ q < start + 1 + count
    · rw [if_pos hr, if_pos (by omega)]
    · rw [if_neg hr]
      by_cases hq : q = start
      · rw [if_pos (by omega : start ≤ q ∧ q < start + (count + 1))]
        by_cases hs : start < data.size * 8
        · rw [if_pos ⟨hq, hs⟩]
        · rw [if_neg (fun h => hs h.2), getBit_of_le _ (by omega)]
      · rw [if_neg (fun h => hq h.1), if_neg (by omega)]

/-- Growing gives at least the size asked for and never drops an octet. -/
@[simp] theorem size_growTo (data : Octets) (size : Nat) : (growTo data size).size = max data.size size := by
  unfold growTo
  split
  · simp only [Array.size_append, Array.size_replicate]
    omega
  · omega

/-- Growing fills up with zeros, which is what a bit outside the storage reads as. -/
@[simp] theorem getBit_growTo (data : Octets) (size q : Nat) : getBit (growTo data size) q = getBit data q := by
  unfold growTo
  split
  · by_cases hq : q / 8 < data.size
    · rw [getBit_eq, getBit_eq]
      unfold octetAt
      rw [Array.getD_eq_getD_getElem?, Array.getD_eq_getD_getElem?, Array.getElem?_append_left hq]
    · rw [getBit_of_le data (by omega), getBit_eq]
      unfold octetAt
      rw [Array.getD_eq_getD_getElem?, Array.getElem?_append_right (by omega), Array.getElem?_replicate]
      split <;> simp
  · rfl

/-- The first octets hold the first bits. -/
theorem getBit_extract (data : Octets) (size q : Nat) (h : q < size * 8) :
    getBit (data.extract 0 size) q = getBit data q := by
  rw [getBit_eq, getBit_eq]
  unfold octetAt
  rw [Array.getD_eq_getD_getElem?, Array.getD_eq_getD_getElem?, Array.getElem?_extract]
  by_cases hs : q / 8 < data.size
  · rw [if_pos (by omega), Nat.zero_add]
  · rw [if_neg (by omega), Array.getElem?_eq_none (by omega)]

/-- Resizing gives exactly the size asked for. -/
@[simp] theorem size_resize (data : Octets) (size : Nat) : (resize data size).size = size := by
  unfold resize
  split
  · simp only [Array.size_extract]
    omega
  · rw [size_growTo]
    omega

/-- Resizing keeps the bits of the octets that stay. -/
theorem getBit_resize (data : Octets) (size q : Nat) (h : q < size * 8) : getBit (resize data size) q = getBit data q := by
  unfold resize
  split
  · exact getBit_extract data size q h
  · exact getBit_growTo data size q

/-! ## Runs of bits -/

@[simp] theorem length_bitsFrom (data : Octets) (start count : Nat) : (bitsFrom data start count).length = count := by
  simp [bitsFrom]

/-- The bits of a run by their place. -/
theorem getElem_bitsFrom (data : Octets) (start count i : Nat) (h : i < (bitsFrom data start count).length) :
    (bitsFrom data start count)[i] = getBit data (start + i) := by
  simp [bitsFrom]

theorem getElem?_bitsFrom (data : Octets) (start count i : Nat) :
    (bitsFrom data start count)[i]? = if i < count then some (getBit data (start + i)) else none := by
  by_cases h : i < count
  · rw [if_pos h, List.getElem?_eq_getElem (by simpa using h), getElem_bitsFrom]
  · rw [if_neg h, List.getElem?_eq_none (by simpa using h)]

@[simp] theorem bitsFrom_zero (data : Octets) (start : Nat) : bitsFrom data start 0 = [] := rfl

/-- Two runs are the same when their bits are. -/
theorem bitsFrom_congr {a b : Octets} {s t count : Nat} (h : ∀ i, i < count → getBit a (s + i) = getBit b (t + i)) :
    bitsFrom a s count = bitsFrom b t count := by
  unfold bitsFrom
  apply List.map_congr_left
  intro i hi
  exact h i (List.mem_range.mp hi)

/-- A run is a shorter run and the one behind it. -/
theorem bitsFrom_add (data : Octets) (start m n : Nat) :
    bitsFrom data start (m + n) = bitsFrom data start m ++ bitsFrom data (start + m) n := by
  unfold bitsFrom
  rw [List.range_add, List.map_append, List.map_map]
  congr 1
  apply List.map_congr_left
  intro i _
  rw [Function.comp_apply, Nat.add_assoc]

theorem bitsFrom_one (data : Octets) (start : Nat) : bitsFrom data start 1 = [getBit data start] := rfl

/-- A run without its front. -/
theorem drop_bitsFrom (data : Octets) (start count n : Nat) :
    (bitsFrom data start count).drop n = bitsFrom data (start + n) (count - n) := by
  by_cases h : n ≤ count
  · obtain ⟨m, rfl⟩ := Nat.le.dest h
    rw [bitsFrom_add, List.drop_left' (length_bitsFrom data start n), Nat.add_sub_cancel_left]
  · rw [List.drop_eq_nil_of_le (by rw [length_bitsFrom]; omega), Nat.sub_eq_zero_of_le (by omega), bitsFrom_zero]

/-- The front of a run. -/
theorem take_bitsFrom (data : Octets) (start count n : Nat) :
    (bitsFrom data start count).take n = bitsFrom data start (min n count) := by
  by_cases h : n ≤ count
  · obtain ⟨m, rfl⟩ := Nat.le.dest h
    rw [bitsFrom_add, List.take_left' (length_bitsFrom data start n), Nat.min_eq_left h]
  · rw [List.take_of_length_le (by rw [length_bitsFrom]; omega), Nat.min_eq_right (by omega)]

/-- Whether any bit of a run is set. -/
theorem anyBit_eq (data : Octets) (start count : Nat) : anyBit data start count = (bitsFrom data start count).any id := by
  induction count generalizing start with
  | zero => rfl
  | succ count ih =>
    rw [anyBit, ih, Nat.add_comm count 1, bitsFrom_add, bitsFrom_one]
    rfl

/-- Two stores agree on a run exactly when the runs are the same. -/
theorem agreeOn_eq (a b : Octets) (start count : Nat) :
    agreeOn a b start count = decide (bitsFrom a start count = bitsFrom b start count) := by
  induction count generalizing start with
  | zero => simp [agreeOn]
  | succ count ih =>
    rw [agreeOn, ih, Nat.add_comm count 1, bitsFrom_add, bitsFrom_add, bitsFrom_one, bitsFrom_one]
    by_cases h : getBit a start = getBit b start <;> simp [h]

end Octets

end UnalignedPer
