/-!
# Octets and their bits

Storage is an array of octets. Bits are numbered from zero with the most significant bit of the first octet first. A bit
outside the storage reads as zero, and setting it changes nothing.
-/

namespace UnalignedPer

/-- A run of octets. -/
abbrev Octets := Array UInt8

namespace Octets

/-- The number of octets that hold `bits` bits. -/
def countFor (bits : Nat) : Nat :=
  (bits + 7) / 8

/-- The octet at an index, zero outside the storage. -/
def octetAt (data : Octets) (index : Nat) : UInt8 :=
  data.getD index 0

/-- The mask of a bit within its octet. -/
def bitMask (bit : Nat) : UInt8 :=
  0x80 >>> UInt8.ofNat (bit % 8)

/-- The bit at a position. -/
def getBit (data : Octets) (bit : Nat) : Bool :=
  octetAt data (bit / 8) &&& bitMask bit != 0

/-- Sets the bit at a position and leaves the other bits of its octet alone. -/
def setBit (data : Octets) (bit : Nat) (value : Bool) : Octets :=
  data.modify (bit / 8) fun octet => if value then octet ||| bitMask bit else octet &&& ~~~bitMask bit

/-- Clears `count` bits from a position on. -/
def clearBits (data : Octets) (start : Nat) : Nat → Octets
  | 0 => data
  | count + 1 => clearBits (setBit data start false) (start + 1) count

/-- Whether any of `count` bits from a position on is set. -/
def anyBit (data : Octets) (start : Nat) : Nat → Bool
  | 0 => false
  | count + 1 => getBit data start || anyBit data (start + 1) count

/-- Whether two runs of octets agree on `count` bits from a position on. -/
def agreeOn (a b : Octets) (start : Nat) : Nat → Bool
  | 0 => true
  | count + 1 => if getBit a start == getBit b start then agreeOn a b (start + 1) count else false

/-- The same octets, filled up with zeros to at least `size`. -/
def growTo (data : Octets) (size : Nat) : Octets :=
  if data.size < size then data ++ Array.replicate (size - data.size) 0 else data

/-- Exactly `size` octets: the first ones of `data`, filled up with zeros. -/
def resize (data : Octets) (size : Nat) : Octets :=
  if size < data.size then data.extract 0 size else growTo data size

/-- The `count` bits from a position on, as a list. -/
def bitsFrom (data : Octets) (start count : Nat) : List Bool :=
  (List.range count).map fun i => getBit data (start + i)

end Octets

end UnalignedPer
