import UnalignedPer.Message.Decode
import UnalignedPer.Proofs.Descriptor
import UnalignedPer.Proofs.Message.ReadingSequence

/-!
# Where open types are entered

A reader enters an open type in one place: where a field, or the value of an alternative, is found to be one
(`Reader.withContentBy`). Everything around that place is the same whatever is done with the open type, so reading is stated here
for any way to enter an open type. The reader itself is the case of `Reader.inOpenType` (`Descriptor.readBy_inOpenType`,
`decodeBy_inOpenType`).
-/

namespace UnalignedPer

namespace Reader

section By

variable {α : Type} (inside : ∀ {α : Type}, ReaderM α → ReaderM α)

/-- Reads the content of a field, from an open type in the way that is given. -/
def withContentBy (openType : Bool) (content : ReaderM α) : ReaderM α :=
  if openType then inside content else content

/-- Reads a field without parts. -/
def fieldBy (content : ReaderM α) : ReaderM α := do
  withContentBy inside (← enterField) content

/-- Reads a field with parts, one container deeper. -/
def containerBy (content : ReaderM α) : ReaderM α := do
  let openType ← enterField
  let r ← get
  if r.depth ≥ r.settings.maxDepth then throw (.unsupported .nestingLimit)
  modify fun r => { r with depth := r.depth + 1 }
  afterwards (fun r => { r with depth := r.depth - 1 }) (withContentBy inside openType content)

/-- Reads a SEQUENCE. -/
def sequenceBy (c : Constraint) (fields : ReaderM α) : ReaderM α :=
  containerBy inside (sequenceContent c fields)

/-- Reads a SEQUENCE OF. -/
def sequenceOfBy (c : Constraint) (element : Nat → ReaderM α) : ReaderM (Array α) :=
  containerBy inside do
    note .basic fun () => "enter " ++ c.text
    withPresence none do
      SizedContent.unpack c.size c.extensible 0 (← maxLength) #[] (elements element)

/-- Reads a CHOICE, an extension alternative in the way that is given. -/
def choiceBy (c : Constraint) (payload : UInt64 → ReaderM α) : ReaderM (UInt64 × α) :=
  containerBy inside do
    let alternative ← index c
    note .basic fun () => "choice " ++ c.text ++ " alternative " ++ toString alternative
    let result ← withPresence none (withContentBy inside (c.standardCount ≤ alternative.toNat) (payload alternative))
    pure (alternative, result)

end By

end Reader

namespace Descriptor

open Reader (inOpenType fieldBy)

section By

variable (inside : ∀ {α : Type}, ReaderM α → ReaderM α)

/-- Reads the value of a type without parts. -/
def readSimpleBy (type : Descriptor) : SimpleType → ReaderM Value
  | .null => do
    fieldBy inside (pure ())
    pure .null
  | .boolean => .boolean <$> fieldBy inside Unpacker.bit
  | .integer _ => .integer <$> fieldBy inside (WholeNumber.unpackInteger type.constraint.bounds type.constraint.extensible)
  | .octetString _ => .octets <$> fieldBy inside do
    OctetString.unpack type.constraint.size type.constraint.extensible (← Reader.maxLength)
  | .bitString _ => .bits <$> fieldBy inside do
    BitString.unpack type.constraint.size type.constraint.extensible (← Reader.maxLength)
  | .text .. => .text <$> fieldBy inside do
    CharacterString.unpack type.constraint.alphabet type.constraint.size type.constraint.extensible (← Reader.maxLength)

mutual

/-- Reads a value of a type, open types in the way that is given. -/
def readBy : Descriptor → ReaderM Value
  | .simple name plain extensible => readSimpleBy inside (.simple name plain extensible) plain
  | .enumerated name items standard => do
    let item ← fieldBy inside (Reader.index (Descriptor.enumerated name items standard).constraint)
    pure (.enumerated item)
  | .sequence name fields standard => do
    let entries ← Reader.sequenceBy inside (Descriptor.sequence name fields standard).constraint (readFieldsBy fields)
    pure (.sequence entries)
  | .sequenceOf name element size extensible => do
    let type := Descriptor.sequenceOf name element size extensible
    let elements ← Reader.sequenceOfBy inside type.constraint fun _ => some <$> readBy element
    pure (.sequenceOf elements.toList)
  | .choice name alternatives standard => do
    let type := Descriptor.choice name alternatives standard
    let (index, payload) ← Reader.choiceBy inside type.constraint fun index => readAlternativeBy alternatives index.toNat
    pure (.choice index payload)

/-- Reads the entries of some fields in order. -/
def readFieldsBy : List (Field Descriptor) → ReaderM (List (Option Value))
  | [] => pure []
  | ⟨_, optional, type⟩ :: fields => do
    let entry ← if optional then Reader.opt (readBy type) else some <$> readBy type
    let entries ← readFieldsBy fields
    pure (entry :: entries)

/-- Reads the value of the alternative of an index. -/
def readAlternativeBy : List (String × Descriptor) → Nat → ReaderM (Option Value)
  | (_, type) :: _, 0 => some <$> readBy type
  | _ :: alternatives, index + 1 => readAlternativeBy alternatives index
  | [], _ => pure none

end

/-- Reads the entry of a field. -/
def readEntryBy (optional : Bool) (type : Descriptor) : ReaderM (Option Value) :=
  if optional then Reader.opt (readBy inside type) else some <$> readBy inside type

/-- The first field is read before the others, open types in the given way. -/
theorem readFieldsBy_cons (field : Field Descriptor) (fields : List (Field Descriptor)) :
    readFieldsBy inside (field :: fields) = (do
      let entry ← readEntryBy inside field.optional field.type
      let entries ← readFieldsBy inside fields
      pure (entry :: entries)) := by
  unfold readEntryBy
  rw [readFieldsBy]
  cases field.optional <;> rfl

end By

/-! ## The reader itself -/

/-- A value without parts is read as usual where open types are entered as usual. -/
theorem readSimpleBy_inOpenType (type : Descriptor) (plain : SimpleType) :
    readSimpleBy inOpenType type plain = readSimple type plain := by
  cases plain <;> rfl

/-- Fields are read as usual where open types are entered as usual. -/
theorem readFieldsBy_inOpenType {fields : List (Field Descriptor)}
    (h : ∀ field ∈ fields, readBy inOpenType field.type = field.type.read) :
    readFieldsBy inOpenType fields = readFields fields := by
  induction fields with
  | nil => rfl
  | cons field fields ih =>
    obtain ⟨hfirst, hrest⟩ := List.forall_mem_cons.mp h
    rw [readFieldsBy_cons, readFields_cons, readEntryBy, hfirst, ih hrest]
    rfl

/-- The payload of a choice is read as usual where open types are entered as usual. -/
theorem readAlternativeBy_inOpenType {alternatives : List (String × Descriptor)}
    (h : ∀ alternative ∈ alternatives, readBy inOpenType alternative.2 = alternative.2.read) (index : Nat) :
    readAlternativeBy inOpenType alternatives index = readAlternative alternatives index := by
  induction alternatives generalizing index with
  | nil => rfl
  | cons alternative alternatives ih =>
    obtain ⟨hfirst, hrest⟩ := List.forall_mem_cons.mp h
    cases index with
    | zero => rw [readAlternativeBy, readAlternative, hfirst]
    | succ index => exact ih hrest index

/-- The reader enters open types by `inOpenType`. -/
theorem readBy_inOpenType (type : Descriptor) : readBy inOpenType type = type.read := by
  induction type using Descriptor.induction with
  | simple name plain extensible => exact readSimpleBy_inOpenType _ plain
  | enumerated name items standard => rfl
  | sequence name fields standard ih =>
    rw [readBy, read, readFieldsBy_inOpenType ih]
    rfl
  | sequenceOf name element size extensible ih =>
    rw [readBy, read, ih]
    rfl
  | choice name alternatives standard ih =>
    rw [readBy, read]
    simp only [readAlternativeBy_inOpenType ih]
    rfl

end Descriptor

/-- Decodes a value, open types in the way that is given. -/
def decodeBy (inside : ∀ {α : Type}, ReaderM α → ReaderM α) (settings : Settings) (type : Descriptor) (data : Octets)
    (length : Nat) : Except Fault Decoding × Array String :=
  match type.readBy inside (.ofView (.ofOctets data length) settings) with
  | .ok value r => (.ok ⟨value, r.view.position⟩, r.trace)
  | .error fault r => (.error fault, r.trace)

/-- What is decoded enters open types by `Reader.inOpenType`. -/
theorem decodeBy_inOpenType (settings : Settings) (type : Descriptor) (data : Octets) (length : Nat) :
    decodeBy Reader.inOpenType settings type data length = decode settings type data length := by
  unfold decodeBy decode
  cases h : type.read (.ofView (.ofOctets data length) settings) <;> simp only [Descriptor.readBy_inOpenType, h]

end UnalignedPer
