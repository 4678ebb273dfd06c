import UnalignedPer.BitString
import UnalignedPer.ChoiceIndex
import UnalignedPer.Constraint
import UnalignedPer.Message.Cleanup
import UnalignedPer.Presence
import UnalignedPer.Settings
import UnalignedPer.Text.CharacterString

/-!
# Writing a message

A `Writer` holds the bits of a message under construction and knows in which sequence it stands, so that fields find their
presence bits and extensions are wrapped as open types. A container is written by an action for its parts.

A sequence reserves its extension marker and its presence bits as zeros and sets them as its fields are written. Its
extension block is opened by the first extension field, and dropped again when no extension turns out to be there. The
content of an open type is written to a buffer of its own first.
-/

namespace UnalignedPer

/-- A step of a script that has come to its end: where it stands, whether it succeeded, and the message after it. -/
structure WriteRecord where
  /-- The place of the step in its script. -/
  path : String
  /-- Whether the step succeeded. -/
  ok : Bool
  /-- The number of bits written. -/
  bits : Nat
  /-- The octets written. -/
  content : Octets
  deriving DecidableEq, Repr, Inhabited

/-- A message under construction. -/
structure Writer where
  /-- The bits written. -/
  buffer : BitBuffer
  /-- The presence bits of the sequence whose fields are written. -/
  presence : Option Presence
  /-- Whether the field to be written next, which has its presence bit already, is an open type. -/
  claimed : Option Bool
  /-- The number of containers around the place of writing. -/
  depth : Nat
  /-- The settings. -/
  settings : Settings
  /-- What was traced. -/
  trace : Array String
  /-- The steps of a script that have come to their end. -/
  steps : Array WriteRecord
  deriving Inhabited

/-- The buffer of a writer takes the bits. -/
instance : BitSink Writer where
  buffer w := w.buffer
  withBuffer b w := { w with buffer := b }

/-- An action on a message under construction. -/
abbrev WriterM := Packer Writer

namespace Writer

/-- A writer of an empty message. -/
def ofSettings (settings : Settings) : Writer :=
  ⟨.empty, none, none, 0, settings, #[], #[]⟩

/-- Traces a text at a level. -/
def noted (level : TraceLevel) (text : Unit → String) (w : Writer) : Writer :=
  if w.settings.trace.shows level then
    let line := "[asn1uper] write @" ++ toString w.buffer.writePosition ++ ": " ++ text ()
    { w with trace := w.trace.push line }
  else w

/-- Traces a text at a level. -/
def note (level : TraceLevel) (text : Unit → String) : WriterM Unit :=
  modify (noted level text)

/-- Visits the next field of the sequence. -/
def visitSlot (optional : Bool) : WriterM SlotStep := fun w =>
  match w.presence with
  | none => .ok .unmarked w
  | some p =>
    match p.visit optional with
    | (.ok step, p) => .ok step { w with presence := some p }
    | (.error fault, p) => .error fault { w with presence := some p }

/-- Opens the extension block: the number of extension fields and a zero bit for each. -/
def openExtensions : WriterM Unit := do
  let header ← Packer.position
  let count := ((← get).presence.map (·.extensions)).getD 0
  WholeNumber.packSmall (UInt64.ofNat (count - 1))
  let start ← Packer.position
  Packer.zeros count
  modify fun w =>
    { w with presence := w.presence.map (·.enterExtensions header ⟨start, start + count⟩ false) }
  note .verbose fun () => "extension block with " ++ toString count ++ " presence bits"

/-- Visits the next field of the sequence, past the opening of the extension block. -/
def reachSlot (optional : Bool) : WriterM SlotStep := do
  match ← visitSlot optional with
  | .openExtensions => do
    openExtensions
    visitSlot optional
  | step => pure step

/-- Takes the presence bit of the next field, if it has one; gives whether its content is an open type. -/
def claimSlot (optional present : Bool) : WriterM Bool := do
  match ← reachSlot optional with
  | .marked position openType => do
    Packer.overwrite position present
    pure openType
  | .absent => pure true
  | _ => pure false

/-- Starts a field: gives whether its content is an open type. -/
def enterField : WriterM Bool := do
  match (← get).claimed with
  | some openType => do
    modify fun w => { w with claimed := none }
    pure openType
  | none => claimSlot false true

/-- Writes the bits of a buffer as an open type. An empty content takes an octet of zeros. -/
def packContent (content : BitBuffer) : WriterM Unit := do
  note .verbose fun () => "open type of " ++ toString content.writePosition ++ " bits"
  OpenType.pack (if content.writePosition = 0 then #[0] else content.content)

/-- Writes a content to a buffer of its own and then as an open type. A content that fails leaves nothing behind. -/
def inOpenType (content : WriterM Unit) : WriterM Unit := fun w =>
  let outer := w.buffer
  let presence := w.presence
  match content { w with buffer := .empty, presence := none } with
  | .error fault w => .error fault { w with buffer := outer, presence := presence }
  | .ok () w =>
    let inner := w.buffer
    packContent inner { w with buffer := outer, presence := presence }

/-- Writes the content of a field. -/
def withContent (openType : Bool) (content : WriterM Unit) : WriterM Unit :=
  if openType then inOpenType content else content

/-- Writes a field without parts. -/
def field (content : WriterM Unit) : WriterM Unit := do
  withContent (← enterField) content

/-- Writes a field with parts, one container deeper. -/
def container (content : WriterM Unit) : WriterM Unit := do
  let openType ← enterField
  let w ← get
  if w.depth ≥ w.settings.maxDepth then throw (.unsupported .nestingLimit)
  modify fun w => { w with depth := w.depth + 1 }
  afterwards (fun w => { w with depth := w.depth - 1 }) (withContent openType content)

/-- Runs an action with other presence bits and puts the old ones back. -/
def withPresence (presence : Option Presence) (action : WriterM Unit) : WriterM Unit := fun w =>
  let outer := w.presence
  afterwards (fun w => { w with presence := outer }) action { w with presence := presence }

/-- Writes a NULL. -/
def null : WriterM Unit :=
  field (pure ())

/-- Writes a BOOLEAN. -/
def boolean (value : Bool) : WriterM Unit :=
  field (Packer.bit value)

/-- Writes an INTEGER. -/
def integer (c : Constraint) (value : Int64) : WriterM Unit :=
  field (WholeNumber.packInteger c.bounds c.extensible value)

/-- Writes the index of an alternative or item, which has to be one of those declared. -/
def index (c : Constraint) (index : UInt64) : WriterM Unit :=
  if c.count ≤ index.toNat then throw (.invalidChoiceIndex index.toNat c.count)
  else ChoiceIndex.pack c.standardCount c.extensible index

/-- Writes an ENUMERATED. -/
def enumerated (c : Constraint) (item : UInt64) : WriterM Unit :=
  field (index c item)

/-- Writes an OCTET STRING. -/
def octetString (c : Constraint) (value : Octets) : WriterM Unit :=
  field (OctetString.pack c.size c.extensible value)

/-- Writes a BIT STRING. -/
def bitString (c : Constraint) (value : BitString) : WriterM Unit :=
  field (BitString.pack c.size c.extensible value)

/-- Writes a character string. -/
def characterString (c : Constraint) (text : Octets) : WriterM Unit :=
  field (CharacterString.pack c.alphabet c.size c.extensible text)

/-- Reserves the extension marker, if there is one, and the presence bits of the standard fields. -/
def reserve (c : Constraint) : WriterM (Option Nat × Presence) := do
  let marker ← if c.extensible then do
      let position ← Packer.position
      Packer.bit false
      pure (some position)
    else pure none
  let start ← Packer.position
  Packer.zeros c.optionalFields
  let run : BitRange := ⟨start, start + c.optionalFields⟩
  pure (marker, if c.extensible then .ofStandard run c.standardCount c.extensionCount else .ofOptional run)

/-- Sets the extension marker when an extension is there, and drops the extension block when none is. -/
def closeSequence (marker : Option Nat) : WriterM Unit := do
  let w ← get
  match marker, w.presence with
  | some marker, some p =>
    match p.header with
    | some header =>
      if Octets.anyBit w.buffer.storage p.reserved.start (p.reserved.stop - p.reserved.start) then
        Packer.overwrite marker true
      else do
        Packer.modifyBuffer (·.truncate header)
        note .verbose fun () => "extension block dropped"
    | none => pure ()
  | _, _ => pure ()

/-- Writes a SEQUENCE, its fields by an action. -/
def sequence (c : Constraint) (fields : WriterM Unit) : WriterM Unit :=
  container do
    note .basic fun () => "enter " ++ c.text
    let (marker, presence) ← reserve c
    afterwards (noted .basic fun () => "leave " ++ c.text) <|
      withPresence (some presence) do
        fields
        closeSequence marker

/-- Writes `count` elements from an index on. -/
def elements (element : Nat → WriterM Unit) (index : Nat) : Nat → WriterM Unit
  | 0 => pure ()
  | count + 1 => do
    element index
    elements element (index + 1) count

/-- Writes a SEQUENCE OF, its elements by actions. -/
def sequenceOf (c : Constraint) (count : Nat) (element : Nat → WriterM Unit) : WriterM Unit :=
  container do
    note .basic fun () => "enter " ++ c.text ++ " with " ++ toString count ++ " elements"
    withPresence none (SizedContent.pack c.size c.extensible count (elements element))

/-- Writes a CHOICE, the value of its alternative by an action. An extension alternative is an open type. -/
def choice (c : Constraint) (alternative : UInt64) (payload : WriterM Unit) : WriterM Unit :=
  container do
    index c alternative
    note .basic fun () => "choice " ++ c.text ++ " alternative " ++ toString alternative
    withPresence none (withContent (c.standardCount ≤ alternative.toNat) payload)

/-- Writes an OPTIONAL field, if it is present, and its presence bit. -/
def opt (present : Bool) (value : WriterM Unit) : WriterM Unit := do
  let openType ← claimSlot true present
  if present then do
    modify fun w => { w with claimed := some openType }
    afterwards (fun w => { w with claimed := none }) value
  else pure ()

/-- Takes the message out and starts a new one. -/
def take (w : Writer) : Octets × Writer :=
  let (octets, buffer) := w.buffer.take
  (octets, { w with buffer := buffer, presence := none, claimed := none })

end Writer

end UnalignedPer
