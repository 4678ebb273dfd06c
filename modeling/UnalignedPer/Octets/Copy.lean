import UnalignedPer.Octets

/-!
# Copying bits between octets

`Octets.copyBits` moves a run of bits to any position. A short run moves bit by bit. A longer one first fills the octet in
which the destination starts, then moves whole octets, each joined from two neighbours when the source is not aligned,
and ends bit by bit.
-/

namespace UnalignedPer

namespace Octets

/-- Runs up to this length move bit by bit. -/
def bulkThreshold : Nat := 16

/-- Copies `count` bits one at a time. -/
def copyEach (dst : Octets) (dstBit : Nat) (src : Octets) (srcBit : Nat) : Nat → Octets
  | 0 => dst
  | count + 1 => copyEach (setBit dst dstBit (getBit src srcBit)) (dstBit + 1) src (srcBit + 1) count

/-- The eight bits that start `shift` bits after the front of an octet. -/
def joinedOctet (src : Octets) (index shift : Nat) : UInt8 :=
  if shift = 0 then octetAt src index
  else (octetAt src index <<< UInt8.ofNat shift) ||| (octetAt src (index + 1) >>> UInt8.ofNat (8 - shift))

/-- Copies `count` whole octets to an aligned place. -/
def copyOctets (dst : Octets) (dstIndex : Nat) (src : Octets) (srcIndex shift : Nat) : Nat → Octets
  | 0 => dst
  | count + 1 =>
    copyOctets (dst.setIfInBounds dstIndex (joinedOctet src srcIndex shift)) (dstIndex + 1) src (srcIndex + 1) shift count

/-- Copies bits to an aligned place: whole octets, then what is left. -/
def copyAligned (dst : Octets) (dstBit : Nat) (src : Octets) (srcBit length : Nat) : Octets :=
  let whole := length / 8
  let moved := whole * 8
  copyEach (copyOctets dst (dstBit / 8) src (srcBit / 8) (srcBit % 8) whole) (dstBit + moved) src (srcBit + moved)
    (length - moved)

/-- Copies `length` bits of `src` from `srcBit` on over the bits of `dst` from `dstBit` on. -/
def copyBits (dst : Octets) (dstBit : Nat) (src : Octets) (srcBit length : Nat) : Octets :=
  if length ≤ bulkThreshold then copyEach dst dstBit src srcBit length
  else
    let head := (8 - dstBit % 8) % 8
    copyAligned (copyEach dst dstBit src srcBit head) (dstBit + head) src (srcBit + head) (length - head)

end Octets

end UnalignedPer
