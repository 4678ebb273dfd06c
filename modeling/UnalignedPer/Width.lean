/-!
# How wide a number is

The packed forms of a number depend on how many bits or octets it takes: the bits of the largest offset in a range, the
octets of a magnitude, and the octets of a number in two's complement.
-/

namespace UnalignedPer

namespace Width

/-- The number of binary digits of a number, none for zero. -/
def ofNat (value : Nat) : Nat :=
  if value = 0 then 0 else value.log2 + 1

/-- The number of bits of a word without its leading zeros. -/
def ofWord (value : UInt64) : Nat :=
  ofNat value.toNat

/-- The octets that hold a word, at least one. -/
def magnitudeOctets (value : UInt64) : Nat :=
  max 1 ((ofWord value + 7) / 8)

/-- The octets that hold a number in two's complement: one copy of the sign bit stays in front. -/
def signedOctets (value : Int64) : Nat :=
  let magnitude := if value < 0 then ~~~value.toUInt64 else value.toUInt64
  (ofWord magnitude + 8) / 8

/-- The number whose two's complement in `width` bits is the word, which has no bit above them. -/
def signExtend (word : UInt64) (width : Nat) : Int64 :=
  if width = 0 then 0
  else (word <<< UInt64.ofNat (64 - width)).toInt64 >>> Int64.ofNat (64 - width)

end Width

end UnalignedPer
