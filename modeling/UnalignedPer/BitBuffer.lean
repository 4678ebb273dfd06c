import UnalignedPer.Fault
import UnalignedPer.Octets.Copy

/-!
# A buffer of bits

A `BitBuffer` is a growing run of bits with a cursor for reading. Bits are appended at the write position and read at the
read position. The storage is a whole number of octets: it grows to what is needed or to twice its size, whichever is
more, and never shrinks. `BitBuffer.toList` is the run of written bits.

A `BitSink` is anything that holds such a buffer and lets bits be appended to it.
-/

namespace UnalignedPer

/-- A growing run of bits. -/
structure BitBuffer where
  /-- The octets that hold the bits. -/
  storage : Octets
  /-- The number of bits written. -/
  writePosition : Nat
  /-- The number of bits read. -/
  readPosition : Nat
  deriving DecidableEq, Repr, Inhabited

namespace BitBuffer

/-- A buffer without bits. -/
def empty : BitBuffer :=
  ⟨#[], 0, 0⟩

/-- The written bits, first to last. -/
def toList (b : BitBuffer) : List Bool :=
  Octets.bitsFrom b.storage 0 b.writePosition

/-- Takes octets over as written bits. The bits of the storage past `length` stay as they are. -/
def ofOctets (data : Octets) (length : Nat) : Except Fault BitBuffer :=
  if length > data.size * 8 then .error .endOfStream else .ok ⟨data, length, 0⟩

/-- The number of bits the storage holds. -/
def capacity (b : BitBuffer) : Nat :=
  b.storage.size * 8

/-- The number of bits that are written and not yet read. -/
def remaining (b : BitBuffer) : Nat :=
  b.writePosition - b.readPosition

/-- The octets in which written bits lie. -/
def content (b : BitBuffer) : Octets :=
  b.storage.extract 0 (Octets.countFor b.writePosition)

/-- Makes room for `total` bits. -/
def reserve (b : BitBuffer) (total : Nat) : BitBuffer :=
  let needed := Octets.countFor total
  if needed > b.storage.size then
    let size := max needed (b.storage.size * 2)
    { b with storage := Octets.growTo b.storage size }
  else b

/-- Appends a bit. -/
def push (b : BitBuffer) (bit : Bool) : BitBuffer :=
  let b := b.reserve (b.writePosition + 1)
  { b with storage := Octets.setBit b.storage b.writePosition bit, writePosition := b.writePosition + 1 }

/-- Appends the low `width` bits of a word, the most significant first. -/
def pushWord (b : BitBuffer) (value : UInt64) : Nat → BitBuffer
  | 0 => b
  | width + 1 => pushWord (b.push ((value >>> UInt64.ofNat width) &&& 1 != 0)) value width

/-- Appends `count` zero bits. -/
def pushZeros (b : BitBuffer) : Nat → BitBuffer
  | 0 => b
  | count + 1 => pushZeros (b.push false) count

/-- Appends `length` bits of `src` from `offset` on. -/
def append (b : BitBuffer) (src : Octets) (offset length : Nat) : BitBuffer :=
  let b := b.reserve (b.writePosition + length)
  { b with
    storage := Octets.copyBits b.storage b.writePosition src offset length
    writePosition := b.writePosition + length }

/-- The same with another bit at a position. -/
def put (b : BitBuffer) (position : Nat) (bit : Bool) : BitBuffer :=
  { b with storage := Octets.setBit b.storage position bit }

/-- A written bit. -/
def get (b : BitBuffer) (position : Nat) : Except Fault Bool :=
  if position < b.writePosition then .ok (Octets.getBit b.storage position) else .error .endOfStream

/-- Drops the bits from position `length` on; the storage they lay in is cleared. -/
def truncate (b : BitBuffer) (length : Nat) : BitBuffer :=
  if length < b.writePosition then
    { storage := Octets.clearBits b.storage length (Octets.countFor b.writePosition * 8 - length)
      writePosition := length
      readPosition := min b.readPosition length }
  else b

/-- Goes back to the first bit for reading. -/
def rewind (b : BitBuffer) : BitBuffer :=
  { b with readPosition := 0 }

/-- The octets in which written bits lie, and an empty buffer in place of the old one. -/
def take (b : BitBuffer) : Octets × BitBuffer :=
  (Octets.resize b.storage (Octets.countFor b.writePosition), empty)

/-- Reads the next bit. -/
def readBit : EStateM Fault BitBuffer Bool := fun b =>
  if b.readPosition < b.writePosition then
    .ok (Octets.getBit b.storage b.readPosition) { b with readPosition := b.readPosition + 1 }
  else .error .endOfStream b

/-- Reads `length` bits over the bits of `dst` from `offset` on. -/
def readInto (dst : Octets) (offset length : Nat) : EStateM Fault BitBuffer Octets := fun b =>
  if length > b.remaining then .error .endOfStream b
  else
    .ok (Octets.copyBits dst offset b.storage b.readPosition length) { b with readPosition := b.readPosition + length }

end BitBuffer

/-- What holds a buffer to append bits to. -/
class BitSink (τ : Type) where
  /-- The buffer. -/
  buffer : τ → BitBuffer
  /-- The same with another buffer. -/
  withBuffer : BitBuffer → τ → τ

/-- A buffer is a sink for its own bits. -/
instance : BitSink BitBuffer where
  buffer b := b
  withBuffer b _ := b

/-- An action that appends bits to a sink or fails; what it appended before it failed stays. -/
abbrev Packer (τ : Type) := EStateM Fault τ

namespace Packer

variable {τ : Type} [BitSink τ]

/-- Changes the buffer of the sink. -/
def modifyBuffer (f : BitBuffer → BitBuffer) : Packer τ Unit := fun s =>
  let b := BitSink.buffer s
  let s := BitSink.withBuffer BitBuffer.empty s
  .ok () (BitSink.withBuffer (f b) s)

/-- Appends a bit. -/
def bit (value : Bool) : Packer τ Unit :=
  modifyBuffer (·.push value)

/-- Appends the low `width` bits of a word, the most significant first. -/
def word (value : UInt64) (width : Nat) : Packer τ Unit :=
  modifyBuffer (·.pushWord value width)

/-- Appends `count` zero bits. -/
def zeros (count : Nat) : Packer τ Unit :=
  modifyBuffer (·.pushZeros count)

/-- Overwrites a written bit. -/
def overwrite (position : Nat) (value : Bool) : Packer τ Unit := fun s =>
  if position < (BitSink.buffer s).writePosition then modifyBuffer (·.put position value) s
  else .error .endOfStream s

/-- The number of bits written. -/
def position : Packer τ Nat :=
  (fun s => (BitSink.buffer s).writePosition) <$> get

/-- Appends `length` bits of `src` from `offset` on. -/
def run (src : Octets) (offset length : Nat) : Packer τ Unit :=
  modifyBuffer (·.append src offset length)

/-- Appends all bits of `src`. -/
def octets (src : Octets) : Packer τ Unit :=
  run src 0 (src.size * 8)

/-- Appends `length` bits of `src` from `offset` on, if there are that many. The end of the slice is `offset + length` as a
word. -/
def slice (src : Octets) (offset length : UInt64) : Packer τ Unit :=
  if (offset + length).toNat > src.size * 8 then throw .endOfStream
  else if length = 0 then pure ()
  else run src offset.toNat length.toNat

/-- Appends the bits of `src` from `offset` to its end. -/
def sliceFrom (src : Octets) (offset : UInt64) : Packer τ Unit :=
  if offset.toNat > src.size * 8 then throw .endOfStream
  else run src offset.toNat (src.size * 8 - offset.toNat)

/-- Appends the first `length` bits of `src`. -/
def sliceTo (src : Octets) (length : UInt64) : Packer τ Unit :=
  slice src 0 length

end Packer

end UnalignedPer
