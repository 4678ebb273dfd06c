import UnalignedPer.BitBuffer
import UnalignedPer.BitView

/-!
# Where bits are read from

A `BitSource` has a cursor that moves forward over the bits ahead. Buffers and views are sources, and so is all that holds
one of them. A read that fails may have moved the cursor; a single step that fails has not.
-/

namespace UnalignedPer

/-- What bits are read from. -/
class BitSource (σ : Type) where
  /-- The position of the next bit. -/
  position : σ → Nat
  /-- The number of bits ahead. -/
  remaining : σ → Nat
  /-- Reads the next bit. -/
  readBit : EStateM Fault σ Bool
  /-- Reads some bits over a part of a destination: the destination, its first bit and the number of bits. -/
  readInto : Octets → Nat → Nat → EStateM Fault σ Octets

/-- A buffer is read at its read position, up to its write position. -/
instance : BitSource BitBuffer where
  position b := b.readPosition
  remaining b := b.remaining
  readBit := BitBuffer.readBit
  readInto := BitBuffer.readInto

/-- A view is read at its position, up to its end. -/
instance : BitSource BitView where
  position v := v.position
  remaining v := v.remaining
  readBit := BitView.readBit
  readInto := BitView.readInto

/-- An action that reads bits from a source or fails, where the cursor stays at the place of the failure. -/
abbrev Unpacker (σ : Type) := EStateM Fault σ

namespace Unpacker

variable {σ : Type} [BitSource σ]

/-- The number of bits ahead. -/
def remaining : Unpacker σ Nat :=
  BitSource.remaining <$> get

/-- Reads the next bit. -/
def bit : Unpacker σ Bool :=
  BitSource.readBit

/-- Reads `width` bits below the bits of `high`. -/
def bitsBelow (high : UInt64) : Nat → Unpacker σ UInt64
  | 0 => pure high
  | width + 1 => do
    let next ← bit
    bitsBelow ((high <<< 1) ||| (if next then 1 else 0)) width

/-- Reads a word of `width` bits, the most significant first. The cursor stays when too few bits are ahead. -/
def word (width : Nat) : Unpacker σ UInt64 := do
  if width > 64 then throw (.unsupported .wideInteger)
  if width > (← remaining) then throw .endOfStream
  bitsBelow 0 width

/-- Reads `length` bits over the bits of `dst` from `offset` on. -/
def run (dst : Octets) (offset length : Nat) : Unpacker σ Octets :=
  BitSource.readInto dst offset length

/-- Reads over all bits of `dst`. -/
def octets (dst : Octets) : Unpacker σ Octets :=
  run dst 0 (dst.size * 8)

/-- Reads `length` bits over the bits of `dst` from `offset` on, if it has that many. The end of the slice is `offset + length` as
a word. -/
def slice (dst : Octets) (offset length : UInt64) : Unpacker σ Octets :=
  if (offset + length).toNat > dst.size * 8 then throw .endOfStream
  else run dst offset.toNat length.toNat

/-- Reads over the bits of `dst` from `offset` to its end. -/
def sliceFrom (dst : Octets) (offset : UInt64) : Unpacker σ Octets :=
  if offset.toNat > dst.size * 8 then throw .endOfStream
  else run dst offset.toNat (dst.size * 8 - offset.toNat)

/-- Reads over the first `length` bits of `dst`. -/
def sliceTo (dst : Octets) (length : UInt64) : Unpacker σ Octets :=
  slice dst 0 length

end Unpacker

end UnalignedPer
