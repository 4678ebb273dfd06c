import UnalignedPer.Descriptor
import UnalignedPer.Message.Writer
import UnalignedPer.Value

/-!
# Encoding a value under a type

`encode` writes a value in the packed form of its type. The value has to fit the type at every node: the kinds agree, a sequence
has an entry for each field and every mandatory one is filled, and no element or chosen value is missing.
-/

namespace UnalignedPer

/-- The packed form of a value. -/
structure Encoding where
  /-- The octets of the message, the last one filled up with zero bits. -/
  octets : Octets
  /-- The number of bits of the message. -/
  bitLength : Nat
  deriving DecidableEq, Repr, Inhabited

namespace Descriptor

/-- Refuses a value of another kind than the type. -/
def refuse (type : Descriptor) (value : Value) : WriterM Unit :=
  throw (.unsupported (.kindMismatch value.kind.name type.text))

/-- Writes the value of a type without parts. -/
def writeSimple (type : Descriptor) (plain : SimpleType) (value : Value) : WriterM Unit :=
  match plain, value with
  | .null, .null => Writer.null
  | .boolean, .boolean value => Writer.boolean value
  | .integer _, .integer value => Writer.integer type.constraint value
  | .octetString _, .octets data => Writer.octetString type.constraint data
  | .bitString _, .bits run => Writer.bitString type.constraint run
  | .text .., .text data => Writer.characterString type.constraint data
  | _, value => type.refuse value

/-- Writes the entry of a field by an action for its value. -/
def writeEntry (name : String) (optional : Bool) (write : Value → WriterM Unit) (entry : Option Value) : WriterM Unit :=
  if optional then
    match entry with
    | some value => Writer.opt true (write value)
    | none => Writer.opt false (pure ())
  else
    match entry with
    | some value => write value
    | none => throw (.unsupported (.absentField name))

/-- Writes an element by an action for its value. -/
def writeElement (write : Value → WriterM Unit) (elements : Array (Option Value)) (index : Nat) : WriterM Unit :=
  match elements[index]? with
  | some (some value) => write value
  | _ => throw (.unsupported .absentElement)

mutual

/-- Writes a value of a type. -/
def write : Descriptor → Value → WriterM Unit
  | .simple name plain extensible, value => writeSimple (.simple name plain extensible) plain value
  | .enumerated name items standard, value =>
    let type := Descriptor.enumerated name items standard
    match value with
    | .enumerated index => Writer.enumerated type.constraint index
    | value => type.refuse value
  | .sequence name fields standard, value =>
    let type := Descriptor.sequence name fields standard
    match value with
    | .sequence entries =>
      if entries.length ≠ fields.length then
        throw (.unsupported (.fieldCount entries.length type.text fields.length))
      else Writer.sequence type.constraint (writeFields fields entries)
    | value => type.refuse value
  | .sequenceOf name element size extensible, value =>
    let type := Descriptor.sequenceOf name element size extensible
    match value with
    | .sequenceOf elements =>
      let elements := elements.toArray
      Writer.sequenceOf type.constraint elements.size fun index =>
        writeElement (fun value => write element value) elements index
    | value => type.refuse value
  | .choice name alternatives standard, value =>
    let type := Descriptor.choice name alternatives standard
    match value with
    | .choice index payload =>
      match payload with
      | some payload => Writer.choice type.constraint index (writeAlternative alternatives index.toNat payload)
      | none => throw (.unsupported .absentPayload)
    | value => type.refuse value

/-- Writes the entries of some fields in order. -/
def writeFields : List (Field Descriptor) → List (Option Value) → WriterM Unit
  | ⟨name, optional, type⟩ :: fields, entry :: entries => do
    writeEntry name optional (fun value => write type value) entry
    writeFields fields entries
  | _, _ => pure ()

/-- Writes the value of the alternative of an index. -/
def writeAlternative : List (String × Descriptor) → Nat → Value → WriterM Unit
  | (_, type) :: _, 0, payload => write type payload
  | _ :: alternatives, index + 1, payload => writeAlternative alternatives index payload
  | [], _, _ => pure ()

end

end Descriptor

/-- Encodes a value: the packed form or the fault, and what was traced. -/
def encode (settings : Settings) (type : Descriptor) (value : Value) : Except Fault Encoding × Array String :=
  match type.write value (.ofSettings settings) with
  | .ok () w => (.ok ⟨(w.take).1, w.buffer.writePosition⟩, w.trace)
  | .error fault w => (.error fault, w.trace)

end UnalignedPer
