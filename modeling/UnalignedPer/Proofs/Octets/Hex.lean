import UnalignedPer.Octets.Hex

/-!
# Octets are read back from their digits

The digits of an octet are those of its two halves, so the pairs of digits that `Octets.toHex` writes spell the octets again.
-/

namespace UnalignedPer

namespace Octets

/-- The value of a digit. -/
theorem nibble?_digitChar : ∀ n < 16, nibble? (Nat.digitChar n) = some (UInt8.ofNat n) := by
  decide

/-- An octet is put together from its halves. -/
theorem join_halves (octet : UInt8) :
    UInt8.ofNat (octet.toNat / 16) <<< 4 ||| UInt8.ofNat (octet.toNat % 16) = octet := by
  have hlt : octet.toNat < 256 := octet.toNat_lt
  refine UInt8.toNat_inj.mp ?_
  have hhigh : (UInt8.ofNat (octet.toNat / 16) <<< 4).toNat = (octet.toNat / 16) <<< 4 := by
    rw [UInt8.toNat_shiftLeft, UInt8.toNat_ofNat', Nat.shiftLeft_eq, Nat.shiftLeft_eq]
    show octet.toNat / 16 % 256 * 2 ^ 4 % 256 = octet.toNat / 16 * 2 ^ 4
    omega
  have hlow : (UInt8.ofNat (octet.toNat % 16)).toNat = octet.toNat % 16 := by
    rw [UInt8.toNat_ofNat']
    omega
  rw [UInt8.toNat_or, hhigh, hlow, ← Nat.shiftLeft_add_eq_or_of_lt (by omega), Nat.shiftLeft_eq]
  omega

/-- The digits of some octets spell them, after those read so far. -/
theorem ofHexList?_hexPairs (sofar : Octets) (data : List UInt8) :
    ofHexList? sofar (data.flatMap hexPair) = some (sofar ++ data.toArray) := by
  induction data generalizing sofar with
  | nil => simp [ofHexList?]
  | cons octet data ih =>
    have hlt : octet.toNat < 256 := octet.toNat_lt
    have hhigh := nibble?_digitChar (octet.toNat / 16) (by omega)
    have hlow := nibble?_digitChar (octet.toNat % 16) (by omega)
    rw [List.flatMap_cons, hexPair, List.cons_append, List.cons_append, List.nil_append, ofHexList?, hhigh, hlow]
    simp only [join_halves, ih]
    simp

/-- Octets are read back from their digits. -/
@[simp] theorem ofHex?_toHex (data : Octets) : ofHex? (toHex data) = some data := by
  rw [ofHex?, toHex, String.toList_ofList, ofHexList?_hexPairs]
  simp

/-- Only no octets have no digits. -/
theorem toHex_eq_empty_iff (data : Octets) : toHex data = "" ↔ data = #[] := by
  constructor
  · intro h
    have hread := ofHex?_toHex data
    rw [h] at hread
    exact (Option.some.inj hread).symm
  · rintro rfl
    rfl

end Octets

end UnalignedPer
