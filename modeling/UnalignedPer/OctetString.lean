import UnalignedPer.SizedContent

/-!
# Octet strings and open types

An octet string is a sized run of octets. An open type is the octet string of free size that holds an encoding of its own,
so that it can be skipped by those who do not know it.
-/

namespace UnalignedPer

namespace OctetString

section Pack

variable {τ : Type} [BitSink τ]

/-- Writes an octet string. -/
def pack (size : Bounds Nat) (extensible : Bool) (value : Octets) : Packer τ Unit :=
  SizedContent.pack size extensible value.size fun offset count => Packer.run value (offset * 8) (count * 8)

end Pack

section Unpack

variable {σ : Type} [BitSource σ]

/-- Reads `count` octets onto the ones read so far. -/
def unpackChunk (sofar : Octets) (count : Nat) : Unpacker σ Octets :=
  Unpacker.run (Octets.growTo sofar (sofar.size + count)) (sofar.size * 8) (count * 8)

/-- Reads an octet string, of at most `limit` octets if there is a limit. -/
def unpack (size : Bounds Nat) (extensible : Bool) (limit : Option Nat) : Unpacker σ Octets :=
  SizedContent.unpack size extensible 8 limit #[] unpackChunk

end Unpack

end OctetString

namespace OpenType

/-- Writes an encoding as an open type. -/
def pack {τ : Type} [BitSink τ] (encoding : Octets) : Packer τ Unit :=
  OctetString.pack .free false encoding

section Skip

variable {σ : Type} [BitSource σ]

/-- The number of octets that are skipped at a time. -/
def stepSize : Nat := 64

/-- Moves past `count` octets, step by step; those of a step are read and forgotten. -/
def skipOctets (count : Nat) : Unpacker σ Unit :=
  if _more : 0 < count then do
    let step := min count stepSize
    let _ ← Unpacker.run (Octets.growTo #[] stepSize) 0 (step * 8)
    skipOctets (count - step)
  else pure ()
termination_by count
decreasing_by
  simp only [stepSize]
  omega

/-- Moves past an open type of any length. -/
def skip : Unpacker σ Unit :=
  SizedContent.unpack .free false 8 none () fun _ count => skipOctets count

end Skip

end OpenType

end UnalignedPer
