import UnalignedPer.BitString
import UnalignedPer.ChoiceIndex
import UnalignedPer.Constraint
import UnalignedPer.Message.Cleanup
import UnalignedPer.Presence
import UnalignedPer.Settings
import UnalignedPer.Text.CharacterString

/-!
# Reading a message

A `Reader` moves over the bits of a message and knows in which sequence it stands. A container is read by an action for its
parts. The extension block of a sequence is opened by the first extension field or at the end of the sequence; the extensions
that no field asked for are skipped. The content of an open type is read from bits of its own, and what is left of them is
skipped.
-/

namespace UnalignedPer

/-- A step of a script that has come to its end: where it stands, whether it succeeded, and the place of reading after it. -/
structure ReadRecord where
  /-- The place of the step in its script. -/
  path : String
  /-- Whether the step succeeded. -/
  ok : Bool
  /-- The position of the next bit. -/
  position : Nat
  /-- The number of bits ahead. -/
  left : Nat
  deriving DecidableEq, Repr, Inhabited

/-- A message being read. -/
structure Reader where
  /-- The bits ahead. -/
  view : BitView
  /-- The presence bits of the sequence whose fields are read. -/
  presence : Option Presence
  /-- Whether the field to be read next, whose presence bit was looked at already, is an open type. -/
  claimed : Option Bool
  /-- The extension marker of the sequence whose fields are read. -/
  marker : Bool
  /-- The number of containers around the place of reading. -/
  depth : Nat
  /-- The settings. -/
  settings : Settings
  /-- What was traced. -/
  trace : Array String
  /-- The steps of a script that have come to their end. -/
  steps : Array ReadRecord
  deriving Inhabited

namespace Reader

/-- A reader at the start of a message. -/
def ofView (view : BitView) (settings : Settings) : Reader :=
  ⟨view, none, none, false, 0, settings, #[], #[]⟩

/-- Runs an action on the bits ahead. -/
def onView {α : Type} (action : EStateM Fault BitView α) : EStateM Fault Reader α := fun r =>
  match action r.view with
  | .ok result view => .ok result { r with view := view }
  | .error fault view => .error fault { r with view := view }

end Reader

/-- A reader reads the bits of its view. -/
instance : BitSource Reader where
  position r := r.view.position
  remaining r := r.view.remaining
  readBit := Reader.onView BitView.readBit
  readInto dst offset length := Reader.onView (BitView.readInto dst offset length)

/-- An action on a message being read. -/
abbrev ReaderM := Unpacker Reader

namespace Reader

variable {α : Type}

/-- Traces a text at a level. -/
def noted (level : TraceLevel) (text : Unit → String) (r : Reader) : Reader :=
  if r.settings.trace.shows level then
    let line := "[asn1uper] read @" ++ toString r.view.position ++ ": " ++ text ()
    { r with trace := r.trace.push line }
  else r

/-- Traces a text at a level. -/
def note (level : TraceLevel) (text : Unit → String) : ReaderM Unit :=
  modify (noted level text)

/-- The position of the next bit. -/
def position : ReaderM Nat :=
  (·.view.position) <$> get

/-- Moves over some bits. -/
def skip (length : Nat) : ReaderM Unit := fun r =>
  match r.view.skip length with
  | .ok view => .ok () { r with view := view }
  | .error fault => .error fault r

/-- Visits the next field of the sequence. -/
def visitSlot (optional : Bool) : ReaderM SlotStep := fun r =>
  match r.presence with
  | none => .ok .unmarked r
  | some p =>
    match p.visit optional with
    | (.ok step, p) => .ok step { r with presence := some p }
    | (.error fault, p) => .error fault { r with presence := some p }

/-- Goes on to the presence bits of the extension block. -/
def enterExtensions (header : Nat) (run : BitRange) : ReaderM Unit :=
  modify fun r => { r with presence := r.presence.map (·.enterExtensions header run true) }

/-- Opens the extension block: the number of extension fields and a bit for each. Without a marker there is none, and every
extension field is absent. -/
def openExtensions : ReaderM Unit := do
  let header ← position
  if (← get).marker then do
    let last ← WholeNumber.unpackSmall
    if last.toNat ≥ (← Unpacker.remaining) then throw .endOfStream
    let count := last.toNat + 1
    let start ← position
    skip count
    enterExtensions header ⟨start, start + count⟩
    let known := ((← get).presence.map (·.extensions)).getD 0
    note .verbose fun () =>
      "extension block with " ++ toString count ++ " presence bits, " ++ toString known ++ " known"
  else do
    enterExtensions header ⟨header, header⟩
    note .verbose fun () => "no extension block"

/-- Visits the next field of the sequence, past the opening of the extension block. -/
def reachSlot (optional : Bool) : ReaderM SlotStep := do
  match ← visitSlot optional with
  | .openExtensions => do
    openExtensions
    visitSlot optional
  | step => pure step

/-- Looks at a bit before the end of the message. -/
def peek (position : Nat) : ReaderM Bool := fun r =>
  match r.view.peek position with
  | .ok bit => .ok bit r
  | .error fault => .error fault r

/-- Looks at the presence bit of the next field: whether the field is there, and whether its content is an open type. -/
def claimSlot (optional : Bool) : ReaderM (Bool × Bool) := do
  match ← reachSlot optional with
  | .marked position openType => do
    let present ← peek position
    pure (present, openType)
  | .absent => pure (false, true)
  | _ => pure (true, false)

/-- Starts a field, which has to be there: gives whether its content is an open type. -/
def enterField : ReaderM Bool := do
  match (← get).claimed with
  | some openType => do
    modify fun r => { r with claimed := none }
    pure openType
  | none => do
    let (present, openType) ← claimSlot false
    if present then pure openType else throw (.extensionMismatch true false)

/-- Runs an action on other bits and goes back to the old ones. -/
def withView (view : BitView) (action : ReaderM α) : ReaderM α := fun r =>
  let outer := r.view
  afterwards (fun r => { r with view := outer }) action { r with view := view }

/-- Reads a content from the next `octets` octets and moves past them. -/
def inChunk (octets : Nat) (content : ReaderM α) : ReaderM α := do
  match (← get).view.part (octets * 8) with
  | .error fault => throw fault
  | .ok part => do
    let result ← withView part content
    skip (octets * 8)
    pure result

/-- The greatest length of a content. -/
def maxLength : ReaderM (Option Nat) :=
  (fun r => some r.settings.maxLength.toNat) <$> get

/-- Joins the fragments of a content and reads it from them. -/
def inFragments (first : LengthDeterminant.Chunk) (content : ReaderM α) : ReaderM α := do
  let ahead ← Unpacker.remaining
  let limit ← maxLength
  let (_, octets) ← SizedContent.unpackFrom .free 8 limit OctetString.unpackChunk 0 #[] first (ahead + 1)
  withView (.ofOctets octets (octets.size * 8)) content

/-- Reads a content from an open type. The sequence around it is out of sight meanwhile. -/
def inOpenType (content : ReaderM α) : ReaderM α := fun r =>
  let presence := r.presence
  let marker := r.marker
  let action : ReaderM α := do
    let chunk ← LengthDeterminant.unpackFree
    note .verbose fun () => "open type of " ++ toString chunk.units ++ " octets"
    if chunk.isFragment then inFragments chunk content else inChunk chunk.units content
  afterwards (fun r => { r with presence := presence, marker := marker }) action { r with presence := none }

/-- Reads the content of a field. -/
def withContent (openType : Bool) (content : ReaderM α) : ReaderM α :=
  if openType then inOpenType content else content

/-- Reads a field without parts. -/
def field (content : ReaderM α) : ReaderM α := do
  withContent (← enterField) content

/-- Reads a field with parts, one container deeper. -/
def container (content : ReaderM α) : ReaderM α := do
  let openType ← enterField
  let r ← get
  if r.depth ≥ r.settings.maxDepth then throw (.unsupported .nestingLimit)
  modify fun r => { r with depth := r.depth + 1 }
  afterwards (fun r => { r with depth := r.depth - 1 }) (withContent openType content)

/-- Runs an action with other presence bits and puts the old ones back. -/
def withPresence (presence : Option Presence) (action : ReaderM α) : ReaderM α := fun r =>
  let outer := r.presence
  afterwards (fun r => { r with presence := outer }) action { r with presence := presence }

/-- Runs an action under another extension marker and puts the old one back. -/
def withMarker (marker : Bool) (action : ReaderM α) : ReaderM α := fun r =>
  let outer := r.marker
  afterwards (fun r => { r with marker := outer }) action { r with marker := marker }

/-- Reads a NULL. -/
def null : ReaderM Unit :=
  field (pure ())

/-- Reads a BOOLEAN. -/
def boolean : ReaderM Bool :=
  field Unpacker.bit

/-- Reads an INTEGER. -/
def integer (c : Constraint) : ReaderM Int64 :=
  field (WholeNumber.unpackInteger c.bounds c.extensible)

/-- Reads the index of an alternative or item, which has to be one of those declared. -/
def index (c : Constraint) : ReaderM UInt64 := do
  let index ← ChoiceIndex.unpack c.standardCount c.extensible
  if c.count ≤ index.toNat then throw (.invalidChoiceIndex index.toNat c.count)
  pure index

/-- Reads an ENUMERATED. -/
def enumerated (c : Constraint) : ReaderM UInt64 :=
  field (index c)

/-- Reads an OCTET STRING. -/
def octetString (c : Constraint) : ReaderM Octets :=
  field do OctetString.unpack c.size c.extensible (← maxLength)

/-- Reads a BIT STRING. -/
def bitString (c : Constraint) : ReaderM BitString :=
  field do BitString.unpack c.size c.extensible (← maxLength)

/-- Reads a character string. -/
def characterString (c : Constraint) : ReaderM Octets :=
  field do CharacterString.unpack c.alphabet c.size c.extensible (← maxLength)

/-- Reads the extension marker, if there is one. A set marker calls for a type with extension fields. -/
def readMarker (c : Constraint) : ReaderM Bool :=
  if c.extensible then do
    let marker ← Unpacker.bit
    if marker ∧ c.extensionCount = 0 then throw (.extensionMismatch false true)
    pure marker
  else pure false

/-- Moves past the presence bits of the standard fields. -/
def reserve (c : Constraint) : ReaderM Presence := do
  let start ← position
  skip c.optionalFields
  let run : BitRange := ⟨start, start + c.optionalFields⟩
  pure (if c.extensible then .ofStandard run c.standardCount c.extensionCount else .ofOptional run)

/-- Skips the extensions whose presence bits are set among `count` ones from a position on. -/
def skipExtensions (position : Nat) : Nat → ReaderM Unit
  | 0 => pure ()
  | count + 1 => do
    let present ← peek position
    if present then do
      note .verbose fun () => "skipping unknown extension"
      OpenType.skip
    skipExtensions (position + 1) count

/-- Skips the extensions that no field asked for, once the extension block is open. -/
def skipRest : ReaderM Unit := do
  match (← get).presence with
  | some p => if p.header.isSome then skipExtensions p.ahead.start (p.ahead.stop - p.ahead.start) else pure ()
  | none => pure ()

/-- Ends a sequence. An extension block that no field opened is skipped as well, if all standard fields were visited. -/
def closeSequence : ReaderM Unit := do
  let r ← get
  match r.presence with
  | some p =>
    if p.rule = .standardFields then
      if r.marker ∧ p.standardLeft = 0 then do
        openExtensions
        skipRest
      else pure ()
    else skipRest
  | none => pure ()

/-- Reads a SEQUENCE, its fields by an action. -/
def sequence (c : Constraint) (fields : ReaderM α) : ReaderM α :=
  container do
    note .basic fun () => "enter " ++ c.text
    let marker ← readMarker c
    let presence ← reserve c
    afterwards (noted .basic fun () => "leave " ++ c.text) <|
      withMarker marker <| withPresence (some presence) do
        let result ← fields
        closeSequence
        pure result

/-- Reads `count` elements onto those read so far. -/
def elements (element : Nat → ReaderM α) (sofar : Array α) : Nat → ReaderM (Array α)
  | 0 => pure sofar
  | count + 1 => do
    let next ← element sofar.size
    elements element (sofar.push next) count

/-- Reads a SEQUENCE OF, its elements by an action. -/
def sequenceOf (c : Constraint) (element : Nat → ReaderM α) : ReaderM (Array α) :=
  container do
    note .basic fun () => "enter " ++ c.text
    withPresence none do
      SizedContent.unpack c.size c.extensible 0 (← maxLength) #[] (elements element)

/-- Reads a CHOICE, the value of its alternative by an action. An extension alternative is an open type. -/
def choice (c : Constraint) (payload : UInt64 → ReaderM α) : ReaderM (UInt64 × α) :=
  container do
    let alternative ← index c
    note .basic fun () => "choice " ++ c.text ++ " alternative " ++ toString alternative
    let result ← withPresence none (withContent (c.standardCount ≤ alternative.toNat) (payload alternative))
    pure (alternative, result)

/-- Reads an OPTIONAL field, if it is present. -/
def opt (value : ReaderM α) : ReaderM (Option α) := do
  let (present, openType) ← claimSlot true
  if present then do
    modify fun r => { r with claimed := some openType }
    afterwards (fun r => { r with claimed := none }) (some <$> value)
  else pure none

end Reader

end UnalignedPer
