import UnalignedPer.Fault
import UnalignedPer.Octets.Copy

/-!
# A window on bits

A `BitView` is the part of some octets that may still be read: a position and an end. Positions count from the first bit
of the octets, so a part cut from a view reports the same positions as the view. `BitView.toList` is the run of bits ahead.
-/

namespace UnalignedPer

/-- The bits of `data` from `position` up to `stop`. -/
structure BitView where
  /-- The octets looked at. -/
  data : Octets
  /-- The position of the next bit. -/
  position : Nat
  /-- The position after the last bit. -/
  stop : Nat
  deriving DecidableEq, Repr, Inhabited

namespace BitView

/-- The first `length` bits of some octets, all of them when there are fewer. -/
def ofOctets (data : Octets) (length : Nat) : BitView :=
  ⟨data, 0, min length (data.size * 8)⟩

/-- The number of bits ahead. -/
def remaining (v : BitView) : Nat :=
  v.stop - v.position

/-- The bits ahead. -/
def toList (v : BitView) : List Bool :=
  Octets.bitsFrom v.data v.position v.remaining

/-- The bit at a position before the end; it may lie behind the current position. -/
def peek (v : BitView) (position : Nat) : Except Fault Bool :=
  if position < v.stop then .ok (Octets.getBit v.data position) else .error .endOfStream

/-- The next `length` bits as a view of their own. -/
def part (v : BitView) (length : Nat) : Except Fault BitView :=
  if length > v.remaining then .error .endOfStream else .ok { v with stop := v.position + length }

/-- The view `length` bits further on. -/
def skip (v : BitView) (length : Nat) : Except Fault BitView :=
  if length > v.remaining then .error .endOfStream else .ok { v with position := v.position + length }

/-- Reads the next bit. -/
def readBit : EStateM Fault BitView Bool := fun v =>
  if v.position < v.stop then .ok (Octets.getBit v.data v.position) { v with position := v.position + 1 }
  else .error .endOfStream v

/-- Reads `length` bits over the bits of `dst` from `offset` on. -/
def readInto (dst : Octets) (offset length : Nat) : EStateM Fault BitView Octets := fun v =>
  if length > v.remaining then .error .endOfStream v
  else .ok (Octets.copyBits dst offset v.data v.position length) { v with position := v.position + length }

end BitView

end UnalignedPer
