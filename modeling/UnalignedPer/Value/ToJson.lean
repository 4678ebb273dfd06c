import UnalignedPer.Descriptor
import UnalignedPer.Fault
import UnalignedPer.Json
import UnalignedPer.Text.Utf8
import UnalignedPer.Value

/-!
# Values as JSON

`Value.toJson` shows a value under its type in the form that `Value.ofJson` reads. A value that does not fit the type has no such
form. Fields that are absent are left out.
-/

namespace UnalignedPer

namespace Descriptor

/-- Refuses a value that does not fit the type. -/
def mismatch {α : Type} (type : Descriptor) (value : Value) : Except Fault α :=
  .error (.unsupported (.shapeMismatch value.notate type.text))

/-- A value of a type without parts as JSON. -/
def jsonOfSimple (type : Descriptor) (plain : SimpleType) (value : Value) : Except Fault Json :=
  match plain, value with
  | .null, .null => .ok .null
  | .boolean, .boolean value => .ok (.bool value)
  | .integer _, .integer value => .ok (.int value.toInt)
  | .octetString _, .octets data => .ok (.str (Octets.toHex data))
  | .bitString _, .bits run =>
    .ok (.ofMembers [("hex", .str (Octets.toHex run.octets)), ("bits", .int run.length.toInt64.toInt)])
  | .text .., .text data => .ok (.str (Utf8.toText data))
  | _, value => type.mismatch value

/-- The elements of a list as JSON by a function; a missing element refuses the whole list. -/
def jsonOfElements (show? : Value → Except Fault Json) (whole : Unit → Except Fault Json) (sofar : List Json) :
    List (Option Value) → Except Fault Json
  | [] => .ok (.arr sofar.reverse)
  | none :: _ => whole ()
  | some value :: rest => do
    let json ← show? value
    jsonOfElements show? whole (json :: sofar) rest

mutual

/-- A value of a type as JSON. -/
def jsonOf : Descriptor → Value → Except Fault Json
  | .simple name plain extensible, value => jsonOfSimple (.simple name plain extensible) plain value
  | .enumerated name items standard, value =>
    let type := Descriptor.enumerated name items standard
    match value with
    | .enumerated index =>
      match items[index.toNat]? with
      | some item => .ok (.str item)
      | none => type.mismatch value
    | _ => type.mismatch value
  | .sequence name fields standard, value =>
    let type := Descriptor.sequence name fields standard
    match value with
    | .sequence entries =>
      if entries.length ≠ fields.length then type.mismatch value
      else do
        let members ← jsonOfFields fields entries
        .ok (.ofMembers members)
    | _ => type.mismatch value
  | .sequenceOf name element size extensible, value =>
    let type := Descriptor.sequenceOf name element size extensible
    match value with
    | .sequenceOf elements =>
      jsonOfElements (fun value => jsonOf element value) (fun () => type.mismatch value) [] elements
    | _ => type.mismatch value
  | .choice name alternatives standard, value =>
    let type := Descriptor.choice name alternatives standard
    match value with
    | .choice index (some payload) =>
      jsonOfAlternative alternatives index.toNat payload fun () => type.mismatch value
    | _ => type.mismatch value

/-- The entries of some fields as members of an object. -/
def jsonOfFields : List (Field Descriptor) → List (Option Value) → Except Fault (List (String × Json))
  | ⟨name, _, type⟩ :: fields, entry :: entries => do
    match entry with
    | none => jsonOfFields fields entries
    | some value => do
      let json ← jsonOf type value
      let members ← jsonOfFields fields entries
      .ok ((name, json) :: members)
  | _, _ => .ok []

/-- The value of the alternative of an index as an object; `whole` where there is no such alternative. -/
def jsonOfAlternative :
    List (String × Descriptor) → Nat → Value → (Unit → Except Fault Json) → Except Fault Json
  | (name, type) :: _, 0, payload, _ => do
    let json ← jsonOf type payload
    .ok (.obj [(name, json)])
  | _ :: alternatives, index + 1, payload, whole => jsonOfAlternative alternatives index payload whole
  | [], _, _, whole => whole ()

end

end Descriptor

/-- A value of a type as JSON. -/
def Value.toJson (type : Descriptor) (value : Value) : Except Fault Json :=
  type.jsonOf value

end UnalignedPer
