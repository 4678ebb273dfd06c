import UnalignedPer.BitSource
import UnalignedPer.Bounds
import UnalignedPer.Width

/-!
# Length determinants

A length with an upper bound below 65536 is an offset from its lower bound, in as many bits as the range needs. Any other
length is one octet below 128, two octets below 16384, and otherwise a fragment header, which covers one to four units of
16384; the rest of the content has a length of its own.
-/

namespace UnalignedPer

namespace LengthDeterminant

/-- Lengths with an upper bound below this one are numbers of a fixed width. -/
def boundedLimit : Nat := 65536

/-- The number of content units in one unit of a fragment header. -/
def fragmentUnit : Nat := 16384

/-- The greatest number of units in a fragment header. -/
def maxFragmentUnits : Nat := 4

/-- The greatest length in the one-octet form. -/
def shortLimit : Nat := 127

/-- The upper bound, if it is small enough for the form of fixed width. -/
def boundedUpper (bounds : Bounds Nat) : Option Nat :=
  bounds.upper.filter (· < boundedLimit)

/-- The units of the fragment header for a content of a length, as many as fit. -/
def headerUnits (length : Nat) : Nat :=
  min (length / fragmentUnit) maxFragmentUnits

/-- The part of a content of free length that the next determinant covers. -/
def covered (length : Nat) : Nat :=
  if length < fragmentUnit then length else headerUnits length * fragmentUnit

/-- A fragment covers something, and no more than there is. -/
theorem covered_bounds (length : Nat) (h : ¬ length < fragmentUnit) : 0 < covered length ∧ covered length ≤ length := by
  rw [covered, if_neg h]
  simp only [headerUnits, fragmentUnit, maxFragmentUnits] at h ⊢
  omega

/-- A determinant that was read: the units it covers, and whether another one follows them. -/
structure Chunk where
  /-- The units of content that follow. -/
  units : Nat
  /-- Whether more content follows under a determinant of its own. -/
  isFragment : Bool
  deriving DecidableEq, Repr, Inhabited

section Pack

variable {τ : Type} [BitSink τ]

/-- Writes the determinant of a content of free length, as far as one determinant reaches. -/
def packFree (length : Nat) : Packer τ Unit :=
  if length ≤ shortLimit then do
    Packer.bit false
    Packer.word (UInt64.ofNat length) 7
  else if length < fragmentUnit then do
    Packer.bit true
    Packer.bit false
    Packer.word (UInt64.ofNat length) 14
  else do
    Packer.bit true
    Packer.bit true
    Packer.word (UInt64.ofNat (headerUnits length)) 6

/-- Writes a length and gives the number of units that the determinant covers. -/
def pack (bounds : Bounds Nat) (length : Nat) : Packer τ Nat :=
  let lower := bounds.lower.getD 0
  match boundedUpper bounds with
  | some upper =>
    if length < lower ∨ length > upper then throw (.sizeNotInRange length lower upper)
    else do
      Packer.word (UInt64.ofNat (length - lower)) (Width.ofNat (upper - lower))
      pure length
  | none =>
    if length < lower then throw (.sizeNotInRange length lower (bounds.upper.getD Bounds.greatest))
    else do
      packFree length
      pure (covered length)

end Pack

section Unpack

variable {σ : Type} [BitSource σ]

/-- Reads a length of a fixed number of bits. -/
def unpackWidth (width : Nat) : Unpacker σ Nat :=
  UInt64.toNat <$> Unpacker.word width

/-- Reads the determinant of a content of free length. -/
def unpackFree : Unpacker σ Chunk := do
  let isLong ← Unpacker.bit
  if !isLong then
    return ⟨← unpackWidth 7, false⟩
  let isFragment ← Unpacker.bit
  if !isFragment then
    return ⟨← unpackWidth 14, false⟩
  let units ← unpackWidth 6
  if units < 1 ∨ units > maxFragmentUnits then throw (.unsupported .fragmentUnits)
  return ⟨units * fragmentUnit, true⟩

/-- Reads a length. -/
def unpack (bounds : Bounds Nat) : Unpacker σ Chunk :=
  match boundedUpper bounds with
  | some upper =>
    let lower := bounds.lower.getD 0
    if lower > upper then throw (.sizeNotInRange lower lower upper)
    else do
      let offset ← unpackWidth (Width.ofNat (upper - lower))
      let length := lower + offset
      if length > upper then throw (.sizeNotInRange length lower upper)
      return ⟨length, false⟩
  | none => unpackFree

end Unpack

end LengthDeterminant

end UnalignedPer
