import UnalignedPer.LengthDeterminant

/-!
# Content of a bounded size

A run of units (octets, bits, characters, elements) is written in chunks, each behind its length determinant. A size that
the bounds fix below 65536 takes no determinant, a size with an upper bound below 65536 takes one, and any other size is
fragmented. An extensible size starts with a bit that tells whether the size lies outside the bounds; then it is free.

The units themselves are written and read by a function that is given one chunk at a time.
-/

namespace UnalignedPer

namespace SizedContent

open LengthDeterminant

/-- Whether the bounds fix the size below the limit of the bounded form. -/
def fixedSize (size : Bounds Nat) : Option Nat :=
  match size.lower, boundedUpper size with
  | some lower, some upper => if lower = upper then some upper else none
  | _, _ => none

/-- Whether a size lies within its bounds. -/
def inRoot (size : Bounds Nat) (count : Nat) : Bool :=
  size.lower.getD 0 ≤ count && size.upper.all (count ≤ ·)

/-- The fault of a size outside its bounds. -/
def outsideFault (size : Bounds Nat) (count : Nat) : Fault :=
  .sizeNotInRange count (size.lower.getD 0) (size.upper.getD Bounds.greatest)

section Pack

variable {τ : Type} [BitSink τ]

/-- Writes `rest` units from `offset` on in chunks of free length. The last chunk is shorter than a fragment. -/
def packFree (emit : Nat → Nat → Packer τ Unit) (offset rest : Nat) : Packer τ Unit := do
  LengthDeterminant.packFree rest
  emit offset (covered rest)
  if _last : rest < fragmentUnit then pure ()
  else packFree emit (offset + covered rest) (rest - covered rest)
termination_by rest
decreasing_by
  have := covered_bounds rest _last
  omega

/-- Writes a number of units within their bounds. -/
def packRoot (size : Bounds Nat) (count : Nat) (emit : Nat → Nat → Packer τ Unit) : Packer τ Unit :=
  if size.upper = some 0 then pure ()
  else if (fixedSize size).isSome then emit 0 count
  else if (boundedUpper size).isSome then do
    let _ ← LengthDeterminant.pack size count
    emit 0 count
  else packFree emit 0 count

/-- Writes a number of units: `emit offset count` writes a chunk. -/
def pack (size : Bounds Nat) (extensible : Bool) (count : Nat) (emit : Nat → Nat → Packer τ Unit) : Packer τ Unit :=
  if inRoot size count then do
    if extensible then Packer.bit false
    packRoot size count emit
  else if extensible then do
    Packer.bit true
    packFree emit 0 count
  else throw (outsideFault size count)

end Pack

section Unpack

variable {σ α : Type} [BitSource σ]

/-- Checks a chunk before its units are read: the length against the limit, if there is one, and the units against the bits
ahead. The bits of the chunk are counted in a word. -/
def checkChunk (unitBits : Nat) (limit : Option Nat) (total units : Nat) : Unpacker σ Unit := do
  if limit.any (· < total) then throw (.unsupported .lengthLimit)
  let ahead ← Unpacker.remaining
  if unitBits ≠ 0 ∧ units * unitBits % UInt64.size > ahead then throw .endOfStream

/-- Reads the units of a chunk and then the chunks after it; gives their total. The fuel bounds the number of chunks; each takes
at least one bit. -/
def unpackFrom (bounds : Bounds Nat) (unitBits : Nat) (limit : Option Nat) (consume : α → Nat → Unpacker σ α)
    (total : Nat) (sofar : α) (chunk : Chunk) : Nat → Unpacker σ (Nat × α)
  | 0 => throw .endOfStream
  | fuel + 1 => do
    let total := total + chunk.units
    checkChunk unitBits limit total chunk.units
    let sofar ← consume sofar chunk.units
    if chunk.isFragment then do
      let next ← LengthDeterminant.unpack bounds
      unpackFrom bounds unitBits limit consume total sofar next fuel
    else pure (total, sofar)

/-- Reads a number of units behind their length determinants and checks the total against the bounds. -/
def unpackCounted (size : Bounds Nat) (unitBits : Nat) (limit : Option Nat) (start : α)
    (consume : α → Nat → Unpacker σ α) : Unpacker σ α := do
  let ahead ← Unpacker.remaining
  let bounds := if (boundedUpper size).isSome then size else .free
  let chunk ← LengthDeterminant.unpack bounds
  let (total, result) ← unpackFrom bounds unitBits limit consume 0 start chunk (ahead + 1)
  if inRoot size total then pure result else throw (outsideFault size total)

/-- Reads a number of units within their bounds. -/
def unpackRoot (size : Bounds Nat) (unitBits : Nat) (limit : Option Nat) (start : α)
    (consume : α → Nat → Unpacker σ α) : Unpacker σ α :=
  if size.upper = some 0 then pure start
  else
    match fixedSize size with
    | some count => do
      checkChunk unitBits limit count count
      consume start count
    | none => unpackCounted size unitBits limit start consume

/-- Reads a number of units: `consume` reads a chunk of them onto what was read so far. A unit takes at least `unitBits`
bits, and there are at most `limit` units, if there is a limit. -/
def unpack (size : Bounds Nat) (extensible : Bool) (unitBits : Nat) (limit : Option Nat) (start : α)
    (consume : α → Nat → Unpacker σ α) : Unpacker σ α :=
  if extensible then do
    let outside ← Unpacker.bit
    if outside then unpackCounted .free unitBits limit start consume
    else unpackRoot size unitBits limit start consume
  else unpackRoot size unitBits limit start consume

end Unpack

end SizedContent

end UnalignedPer
