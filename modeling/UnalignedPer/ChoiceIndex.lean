import UnalignedPer.WholeNumber

/-!
# Indices of alternatives

The index of an alternative of the root is a number below the number of such alternatives. In an extensible type a bit in
front tells whether the alternative is an extension; then its place among the extensions is a normally small number.
-/

namespace UnalignedPer

namespace ChoiceIndex

/-- The greatest index of an alternative of the root. -/
def lastRoot (standard : Nat) : UInt64 :=
  UInt64.ofNat (standard - 1)

/-- Writes an index, where `standard` alternatives belong to the root. -/
def pack {τ : Type} [BitSink τ] (standard : Nat) (extensible : Bool) (index : UInt64) : Packer τ Unit :=
  if standard ≤ index.toNat then
    if extensible then do
      Packer.bit true
      WholeNumber.packSmall (index - UInt64.ofNat standard)
    else throw (.invalidChoiceIndex index.toNat standard)
  else do
    if extensible then Packer.bit false
    WholeNumber.packWithin 0 (lastRoot standard) index

section Unpack

variable {σ : Type} [BitSource σ]

/-- Reads the index of an alternative of the root. -/
def unpackRoot (standard : Nat) : Unpacker σ UInt64 :=
  if standard = 0 then throw (.invalidChoiceIndex 0 0)
  else fun s =>
    match WholeNumber.unpackWithin 0 (lastRoot standard) s with
    | .error (.valueNotInRange value _ _) s => .error (.invalidChoiceIndex value.toUInt64.toNat standard) s
    | result => result

/-- Reads the index of an extension alternative, which has to be a word. -/
def unpackExtension (standard : Nat) : Unpacker σ UInt64 := do
  let offset ← WholeNumber.unpackSmall
  if standard + offset.toNat ≥ UInt64.size then throw (.invalidChoiceIndex offset.toNat standard)
  return UInt64.ofNat (standard + offset.toNat)

/-- Reads an index, where `standard` alternatives belong to the root. It may be greater than any that is known. -/
def unpack (standard : Nat) (extensible : Bool) : Unpacker σ UInt64 :=
  if extensible then do
    let isExtension ← Unpacker.bit
    if isExtension then unpackExtension standard else unpackRoot standard
  else unpackRoot standard

end Unpack

end ChoiceIndex

end UnalignedPer
