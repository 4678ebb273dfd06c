import UnalignedPer.LengthDeterminant

/-!
# Whole numbers

A number between two bounds is its offset from the lower one, in as many bits as the range needs. A number that is bounded
from below only is the length and the octets of its offset. A free number is the length and the octets of its two's
complement. A normally small number takes seven bits up to 63, and otherwise a set bit and the octets of its magnitude.
-/

namespace UnalignedPer

namespace WholeNumber

/-- The greatest number in the short form of a normally small number. -/
def smallLimit : UInt64 := 63

/-- The greatest signed number as a word. -/
def greatest : UInt64 :=
  Int64.maxValue.toUInt64

section Pack

variable {τ : Type} [BitSink τ]

/-- Writes an unsigned number between two bounds. -/
def packWithin (lower upper value : UInt64) : Packer τ Unit :=
  if value < lower ∨ value > upper then throw (.valueNotInRange value.toInt64 lower.toInt64 upper.toInt64)
  else Packer.word (value - lower) (Width.ofWord (upper - lower))

/-- Writes the length and the octets of an unsigned number. -/
def packMagnitude (value : UInt64) : Packer τ Unit := do
  let octets := Width.magnitudeOctets value
  LengthDeterminant.packFree octets
  Packer.word value (octets * 8)

/-- Writes an unsigned number. With one bound, the other one is zero or the greatest signed number. -/
def packUnsigned (bounds : Bounds UInt64) (value : UInt64) : Packer τ Unit :=
  if bounds.isBounded then packWithin (bounds.lower.getD 0) (bounds.upper.getD greatest) value
  else packMagnitude value

/-- Writes the low `width` bits of a number in two's complement. -/
def packSigned (value : Int64) (width : Nat) : Packer τ Unit :=
  if width > 64 then throw (.unsupported .wideInteger) else Packer.word value.toUInt64 width

/-- Writes a number between two bounds. -/
def packConstrained (lower upper value : Int64) : Packer τ Unit :=
  if value < lower ∨ value > upper then throw (.valueNotInRange value lower upper)
  else Packer.word (value.toUInt64 - lower.toUInt64) (Width.ofWord (upper.toUInt64 - lower.toUInt64))

/-- Writes a number that is bounded from below. -/
def packSemiConstrained (lower value : Int64) : Packer τ Unit :=
  if value < lower then throw (.valueNotInRange value lower Int64.maxValue)
  else packMagnitude (value.toUInt64 - lower.toUInt64)

/-- Writes the length and the octets of a number in two's complement. -/
def packFree (value : Int64) : Packer τ Unit := do
  let octets := Width.signedOctets value
  LengthDeterminant.packFree octets
  packSigned value (octets * 8)

/-- Writes a number that is small in most messages. -/
def packSmall (value : UInt64) : Packer τ Unit :=
  if value ≤ smallLimit then do
    Packer.bit false
    Packer.word value 6
  else do
    Packer.bit true
    packMagnitude value

/-- Writes a number of the root of an INTEGER in the form that its bounds call for. -/
def packRoot (bounds : Bounds Int64) (value : Int64) : Packer τ Unit :=
  match bounds.lower, bounds.upper with
  | some lower, some upper => packConstrained lower upper value
  | some lower, none => packSemiConstrained lower value
  | none, some upper =>
    if value > upper then throw (.valueNotInRange value Int64.minValue upper) else packFree value
  | none, none => packFree value

/-- Writes an INTEGER. An extensible one starts with a bit that tells whether the number lies outside the bounds. -/
def packInteger (bounds : Bounds Int64) (extensible : Bool) (value : Int64) : Packer τ Unit :=
  if extensible then
    if bounds.contains value then do
      Packer.bit false
      packRoot bounds value
    else do
      Packer.bit true
      packFree value
  else packRoot bounds value

end Pack

section Unpack

variable {σ : Type} [BitSource σ]

/-- Reads an unsigned number between two bounds. -/
def unpackWithin (lower upper : UInt64) : Unpacker σ UInt64 := do
  let offset ← Unpacker.word (Width.ofWord (upper - lower))
  if offset > upper - lower then
    throw (.valueNotInRange (lower + offset).toInt64 lower.toInt64 upper.toInt64)
  return lower + offset

/-- Reads the number of octets of a number, one to eight. -/
def unpackOctetCount : Unpacker σ Nat := do
  let chunk ← LengthDeterminant.unpackFree
  if chunk.isFragment ∨ chunk.units > 8 then throw (.unsupported .wideInteger)
  if chunk.units = 0 then throw (.unsupported .emptyInteger)
  return chunk.units

/-- Reads the length and the octets of an unsigned number. -/
def unpackMagnitude : Unpacker σ UInt64 := do
  let octets ← unpackOctetCount
  Unpacker.word (octets * 8)

/-- Reads an unsigned number. With one bound, the other one is zero or the greatest signed number. -/
def unpackUnsigned (bounds : Bounds UInt64) : Unpacker σ UInt64 :=
  if bounds.isBounded then unpackWithin (bounds.lower.getD 0) (bounds.upper.getD greatest)
  else unpackMagnitude

/-- Reads `width` bits as a number in two's complement. -/
def unpackSigned (width : Nat) : Unpacker σ Int64 := do
  let word ← Unpacker.word width
  return Width.signExtend word width

/-- Reads a number between two bounds. -/
def unpackConstrained (lower upper : Int64) : Unpacker σ Int64 :=
  if lower > upper then throw (.valueNotInRange lower lower upper)
  else do
    let range := upper.toUInt64 - lower.toUInt64
    let offset ← Unpacker.word (Width.ofWord range)
    let value := (lower.toUInt64 + offset).toInt64
    if offset > range then throw (.valueNotInRange value lower upper)
    return value

/-- Reads a number that is bounded from below. -/
def unpackSemiConstrained (lower : Int64) : Unpacker σ Int64 := do
  let offset ← unpackMagnitude
  if offset > greatest - lower.toUInt64 then throw (.unsupported .semiConstrainedOverflow)
  return (lower.toUInt64 + offset).toInt64

/-- Reads the length and the octets of a number in two's complement. -/
def unpackFree : Unpacker σ Int64 := do
  let octets ← unpackOctetCount
  unpackSigned (octets * 8)

/-- Reads a number that is small in most messages. -/
def unpackSmall : Unpacker σ UInt64 := do
  let isLarge ← Unpacker.bit
  if isLarge then unpackMagnitude else Unpacker.word 6

/-- Reads a number of the root of an INTEGER in the form that its bounds call for. -/
def unpackRoot (bounds : Bounds Int64) : Unpacker σ Int64 :=
  match bounds.lower, bounds.upper with
  | some lower, some upper => unpackConstrained lower upper
  | some lower, none => unpackSemiConstrained lower
  | none, _ => unpackFree

/-- Reads an INTEGER. An extensible one starts with a bit that tells whether the number lies outside the bounds. -/
def unpackInteger (bounds : Bounds Int64) (extensible : Bool) : Unpacker σ Int64 :=
  if extensible then do
    let outside ← Unpacker.bit
    if outside then unpackFree else unpackRoot bounds
  else unpackRoot bounds

end Unpack

end WholeNumber

end UnalignedPer
