/-!
# Why a message cannot be written or read

Every operation of the codec that can fail fails with a `Fault`, which names the cause and carries the numbers that show
it. The wording of a fault is `Fault.message`; its stable name is `Fault.kind`.
-/

namespace UnalignedPer

/-- What an operation asks for beyond the supported profile. -/
inductive Reason where
  /-- The number takes more than 64 bits. -/
  | wideInteger
  /-- The octet count of a number is zero. -/
  | emptyInteger
  /-- A fragment header announces a number of units other than one to four. -/
  | fragmentUnits
  /-- The content is longer than the settings allow. -/
  | lengthLimit
  /-- The offset above a lower bound leaves the signed 64-bit range. -/
  | semiConstrainedOverflow
  /-- Containers nest deeper than the settings allow. -/
  | nestingLimit
  /-- The value is of another kind than its type. -/
  | kindMismatch (valueKind typeText : String)
  /-- The sequence value has another number of entries than its type has fields. -/
  | fieldCount (entries : Nat) (typeText : String) (declared : Nat)
  /-- A field that is not OPTIONAL has no value. -/
  | absentField (name : String)
  /-- An element of a list has no value. -/
  | absentElement
  /-- The chosen alternative has no value. -/
  | absentPayload
  /-- The value cannot be shown under the type. -/
  | shapeMismatch (valueText typeText : String)
  /-- Any other cause, in its own words. -/
  | stated (text : String)
  deriving DecidableEq, Repr

/-- The cause in words. -/
def Reason.text : Reason → String
  | .wideInteger => "integer wider than 64 bits"
  | .emptyInteger => "integer encoded with zero octets"
  | .fragmentUnits => "fragment header with an invalid unit count"
  | .lengthLimit => "decoded length exceeds the configured limit"
  | .semiConstrainedOverflow => "semi-constrained value exceeds 64 bits"
  | .nestingLimit => "container nesting exceeds the configured depth"
  | .kindMismatch valueKind typeText => "value of kind " ++ valueKind ++ " does not match type " ++ typeText
  | .fieldCount entries typeText declared =>
    "sequence value has " ++ toString entries ++ " fields, type " ++ typeText ++ " declares " ++ toString declared
  | .absentField name => "mandatory field '" ++ name ++ "' is absent"
  | .absentElement => "sequence-of element is absent"
  | .absentPayload => "choice payload is absent"
  | .shapeMismatch valueText typeText => "value " ++ valueText ++ " does not match type " ++ typeText
  | .stated text => text

/-- A failure of the codec. -/
inductive Fault where
  /-- Fewer bits are left than the operation takes. -/
  | endOfStream
  /-- A number lies outside its bounds. -/
  | valueNotInRange (value lower upper : Int64)
  /-- A length lies outside its bounds. -/
  | sizeNotInRange (size lower upper : Nat)
  /-- An index names no alternative or item. -/
  | invalidChoiceIndex (index count : Nat)
  /-- An extension is present where it must be absent, or the other way round. -/
  | extensionMismatch (expectedPresent foundPresent : Bool)
  /-- The operation lies outside the supported profile. -/
  | unsupported (reason : Reason)
  /-- More OPTIONAL fields are visited than presence bits were reserved. -/
  | presenceExhausted
  /-- The octets of a text are no legal UTF-8. -/
  | malformedUtf8
  /-- A character does not belong to the alphabet of its string type. -/
  | invalidCharacter (alphabet : String) (code : UInt32) (index : Nat)
  deriving DecidableEq, Repr

namespace Fault

/-- The stable name of the kind of fault. -/
def kind : Fault → String
  | endOfStream => "end-of-stream"
  | valueNotInRange .. => "value-not-in-range"
  | sizeNotInRange .. => "size-not-in-range"
  | invalidChoiceIndex .. => "invalid-choice-index"
  | extensionMismatch .. => "invalid-extension-constellation"
  | unsupported _ => "unsupported-operation"
  | presenceExhausted => "opt-flags-exhausted"
  | malformedUtf8 => "invalid-utf8-string"
  | invalidCharacter .. => "invalid-character"

/-- The word for whether an extension is there. -/
def presenceWord (present : Bool) : String :=
  if present then "present" else "absent"

/-- A number as a signed 64-bit word. -/
def signedWord (n : Nat) : Int64 :=
  (UInt64.ofNat n).toInt64

/-- A number in lower-case hexadecimal digits, without leading zeros. -/
def hexDigits (n : Nat) : String :=
  String.ofList (Nat.toDigits 16 n)

/-- The fault in words. An index is shown as a signed number, a size as an unsigned one. -/
def message : Fault → String
  | endOfStream => "unexpected end of stream"
  | valueNotInRange value lower upper =>
    "value " ++ toString value ++ " is not in range [" ++ toString lower ++ ", " ++ toString upper ++ "]"
  | sizeNotInRange size lower upper =>
    "size " ++ toString size ++ " is not in range [" ++ toString lower ++ ", " ++ toString upper ++ "]"
  | invalidChoiceIndex index count =>
    "choice index " ++ toString (signedWord index) ++ " is invalid for " ++ toString (signedWord count) ++ " known variants"
  | extensionMismatch expected found =>
    "invalid extension constellation: expected " ++ presenceWord expected ++ " but found " ++ presenceWord found
  | unsupported reason => "unsupported operation: " ++ reason.text
  | presenceExhausted => "presence bit run exhausted"
  | malformedUtf8 => "invalid UTF-8 string"
  | invalidCharacter alphabet code index =>
    "character 0x" ++ hexDigits code.toNat ++ " at index " ++ toString (signedWord index) ++ " is not allowed in " ++ alphabet

/-- The free-form context of the fault, empty where there is none. -/
def detail : Fault → String
  | unsupported reason => reason.text
  | invalidCharacter alphabet _ _ => alphabet
  | _ => ""

/-- The three numbers of the fault as signed words, zero where there is none. -/
def operands : Fault → Int64 × Int64 × Int64
  | valueNotInRange value lower upper => (value, lower, upper)
  | sizeNotInRange size lower upper => (signedWord size, signedWord lower, signedWord upper)
  | invalidChoiceIndex index count => (signedWord index, signedWord count, 0)
  | extensionMismatch expected found => ((if expected then 1 else 0), (if found then 1 else 0), 0)
  | invalidCharacter _ code index => (code.toUInt64.toInt64, signedWord index, 0)
  | _ => (0, 0, 0)

end Fault

end UnalignedPer
