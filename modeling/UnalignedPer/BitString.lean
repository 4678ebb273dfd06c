import UnalignedPer.SizedContent

/-!
# Bit strings

A bit string is a sized run of bits, held in octets with the first bit foremost.
-/

namespace UnalignedPer

/-- Some bits, the first `length` of their octets. -/
structure BitString where
  /-- The octets that hold the bits. -/
  octets : Octets
  /-- The number of bits. -/
  length : UInt64
  deriving DecidableEq, Repr, Inhabited

namespace BitString

/-- The number of octets for a length, counted in words, so that it falls back to zero at the greatest lengths. -/
def octetCount (length : UInt64) : UInt64 :=
  (length + 7) / 8

/-- Whether two bit strings hold the same bits; what lies in the octets past them does not count. -/
def same (a b : BitString) : Bool :=
  a.length == b.length &&
    (octetCount a.length).toNat ≤ a.octets.size && (octetCount a.length).toNat ≤ b.octets.size &&
    Octets.agreeOn a.octets b.octets 0 a.length.toNat

/-- Writes a bit string, whose octets have to hold all of it. -/
def pack {τ : Type} [BitSink τ] (size : Bounds Nat) (extensible : Bool) (value : BitString) : Packer τ Unit :=
  if value.length.toNat > value.octets.size * 8 then throw .endOfStream
  else SizedContent.pack size extensible value.length.toNat (Packer.run value.octets)

section Unpack

variable {σ : Type} [BitSource σ]

/-- Reads `count` bits onto the `length` bits read so far. -/
def unpackChunk : Octets × Nat → Nat → Unpacker σ (Octets × Nat)
  | (octets, length), count => do
    let octets ← Unpacker.run (Octets.growTo octets (Octets.countFor (length + count))) length count
    return (octets, length + count)

/-- Reads a bit string, of at most `limit` bits if there is a limit. -/
def unpack (size : Bounds Nat) (extensible : Bool) (limit : Option Nat) : Unpacker σ BitString := do
  let (octets, length) ← SizedContent.unpack size extensible 1 limit (#[], 0) unpackChunk
  return ⟨octets, UInt64.ofNat length⟩

end Unpack

end BitString

end UnalignedPer
