import Mathlib.Algebra.Group.Int.Defs
import Mathlib.Algebra.Group.Nat.Defs
import UnalignedPer.Octets

/-!
# Numbers as bits

A number of a fixed width is its binary digits, the most significant first. `Bits.ofNat` gives the digits, `Bits.toNat` the
number of some digits, and each undoes the other on numbers that fit (`Bits.toNat_ofNat`). A run of bits falls into octets
(`Bits.octets`) or into single bits (`Bits.singles`).
-/

namespace UnalignedPer

namespace Bits

/-- The low `width` binary digits of a number, the most significant first. -/
def ofNat (value : Nat) : Nat → List Bool
  | 0 => []
  | width + 1 => value.testBit width :: ofNat value width

/-- The number whose binary digits follow those of `high`. -/
def below (high : Nat) : List Bool → Nat
  | [] => high
  | bit :: rest => below (2 * high + bit.toNat) rest

/-- The number of some binary digits. -/
def toNat (bits : List Bool) : Nat :=
  below 0 bits

/-- A number has as many digits as it is given. -/
@[simp] theorem length_ofNat (value width : Nat) : (ofNat value width).length = width := by
  induction width with
  | zero => rfl
  | succ width ih => rw [ofNat, List.length_cons, ih]

/-- The digits of a number behind those of another one. -/
theorem below_ofNat (high value width : Nat) : below high (ofNat value width) = high * 2 ^ width + value % 2 ^ width := by
  induction width generalizing high with
  | zero => simp [ofNat, below, Nat.mod_one]
  | succ width ih =>
    rw [ofNat, below, ih, Nat.mod_pow_succ, Nat.testBit_eq_decide_div_mod_eq, Nat.pow_succ]
    have hd : (decide (value / 2 ^ width % 2 = 1)).toNat = value / 2 ^ width % 2 := by
      rcases Nat.mod_two_eq_zero_or_one (value / 2 ^ width) with h | h <;> simp [h]
    rw [hd, Nat.add_mul, Nat.mul_comm (2 ^ width) (value / 2 ^ width % 2)]
    have hc : high * (2 ^ width * 2) = 2 * high * 2 ^ width := by rw [Nat.mul_comm 2 high, Nat.mul_assoc, Nat.mul_comm 2]
    omega

/-- A number that fits into some digits is the number of these digits. -/
theorem toNat_ofNat {value width : Nat} (h : value < 2 ^ width) : toNat (ofNat value width) = value := by
  rw [toNat, below_ofNat, Nat.zero_mul, Nat.zero_add, Nat.mod_eq_of_lt h]

/-! ## Runs in parts -/

/-- The octets of a run of bits. What is left behind the last whole one is dropped. -/
def octets (bits : List Bool) : List (List Bool) :=
  (List.range (bits.length / 8)).map fun i => (bits.drop (i * 8)).take 8

/-- The bits of a run, each for itself. -/
def singles (bits : List Bool) : List (List Bool) :=
  bits.map fun bit => [bit]

/-- A run of bits has an octet for each eight of them. -/
@[simp] theorem length_octets (bits : List Bool) : (octets bits).length = bits.length / 8 := by
  simp [octets]

/-- There are as many single bits as bits. -/
@[simp] theorem length_singles (bits : List Bool) : (singles bits).length = bits.length :=
  List.length_map _

/-- An octet of a run has the eight bits at its place. -/
theorem getElem_octets (bits : List Bool) (i : Nat) (h : i < (octets bits).length) :
    (octets bits)[i] = (bits.drop (i * 8)).take 8 := by
  simp [octets]

/-- Every octet of a run has eight bits. -/
theorem length_of_mem_octets {bits octet : List Bool} (h : octet ∈ octets bits) : octet.length = 8 := by
  obtain ⟨i, hi, rfl⟩ := List.mem_map.mp h
  rw [List.mem_range] at hi
  rw [List.length_take, List.length_drop]
  omega

/-- Some octets in a row are the bits from the first to the last of them. -/
theorem flatten_octets (bits : List Bool) (offset count : Nat) (h : offset + count ≤ bits.length / 8) :
    (((octets bits).drop offset).take count).flatten = (bits.drop (offset * 8)).take (count * 8) := by
  induction count generalizing offset with
  | zero => simp
  | succ count ih =>
    have hlt : offset < (octets bits).length := by rw [length_octets]; omega
    rw [List.drop_eq_getElem_cons hlt, List.take_succ_cons, List.flatten_cons, ih (offset + 1) (by omega), getElem_octets,
      show (count + 1) * 8 = 8 + count * 8 by omega, List.take_add, List.drop_drop,
      show offset * 8 + 8 = (offset + 1) * 8 by omega]

/-- Some single bits in a row are the bits from the first to the last of them. -/
theorem flatten_singles (bits : List Bool) (offset count : Nat) :
    (((singles bits).drop offset).take count).flatten = (bits.drop offset).take count := by
  rw [singles, ← List.map_drop, ← List.map_take, ← List.flatMap_def]
  exact List.flatMap_singleton' _

end Bits

end UnalignedPer
