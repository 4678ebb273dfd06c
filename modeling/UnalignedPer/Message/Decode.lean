import UnalignedPer.Descriptor
import UnalignedPer.Message.Reader
import UnalignedPer.Value

/-!
# Decoding a value of a type

`decode` reads a value in the packed form of its type from the front of some bits and tells how many bits it took.
-/

namespace UnalignedPer

/-- A value that was read. -/
structure Decoding where
  /-- The value. -/
  value : Value
  /-- The number of bits read. -/
  consumed : Nat
  deriving Repr, Inhabited

namespace Descriptor

/-- Reads the value of a type without parts. -/
def readSimple (type : Descriptor) : SimpleType → ReaderM Value
  | .null => do
    Reader.null
    pure .null
  | .boolean => .boolean <$> Reader.boolean
  | .integer _ => .integer <$> Reader.integer type.constraint
  | .octetString _ => .octets <$> Reader.octetString type.constraint
  | .bitString _ => .bits <$> Reader.bitString type.constraint
  | .text .. => .text <$> Reader.characterString type.constraint

mutual

/-- Reads a value of a type. -/
def read : Descriptor → ReaderM Value
  | .simple name plain extensible => readSimple (.simple name plain extensible) plain
  | .enumerated name items standard => do
    let type := Descriptor.enumerated name items standard
    let item ← Reader.enumerated type.constraint
    pure (.enumerated item)
  | .sequence name fields standard => do
    let type := Descriptor.sequence name fields standard
    let entries ← Reader.sequence type.constraint (readFields fields)
    pure (.sequence entries)
  | .sequenceOf name element size extensible => do
    let type := Descriptor.sequenceOf name element size extensible
    let elements ← Reader.sequenceOf type.constraint fun _ => some <$> read element
    pure (.sequenceOf elements.toList)
  | .choice name alternatives standard => do
    let type := Descriptor.choice name alternatives standard
    let (index, payload) ← Reader.choice type.constraint fun index => readAlternative alternatives index.toNat
    pure (.choice index payload)

/-- Reads the entries of some fields in order. -/
def readFields : List (Field Descriptor) → ReaderM (List (Option Value))
  | [] => pure []
  | ⟨_, optional, type⟩ :: fields => do
    let entry ← if optional then Reader.opt (read type) else some <$> read type
    let entries ← readFields fields
    pure (entry :: entries)

/-- Reads the value of the alternative of an index. -/
def readAlternative : List (String × Descriptor) → Nat → ReaderM (Option Value)
  | (_, type) :: _, 0 => some <$> read type
  | _ :: alternatives, index + 1 => readAlternative alternatives index
  | [], _ => pure none

end

end Descriptor

/-- Decodes a value from the first `length` bits of some octets: the value or the fault, and what was traced. -/
def decode (settings : Settings) (type : Descriptor) (data : Octets) (length : Nat) :
    Except Fault Decoding × Array String :=
  match type.read (.ofView (.ofOctets data length) settings) with
  | .ok value r => (.ok ⟨value, r.view.position⟩, r.trace)
  | .error fault r => (.error fault, r.trace)

end UnalignedPer
