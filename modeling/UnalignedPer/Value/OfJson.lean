import UnalignedPer.Descriptor
import UnalignedPer.Diagnostic
import UnalignedPer.Json
import UnalignedPer.Text.Utf8
import UnalignedPer.Value

/-!
# Values from JSON

A JSON document stands for a value of a type: numbers, booleans and `null` for themselves, an item by its name, octets in
hexadecimal, bits as an object of octets and their number, a sequence as an object of its fields, a choice as an object of the
one alternative. `Value.ofJson` reports every place that does not fit and gives the value only if there is none.
-/

namespace UnalignedPer

namespace Descriptor

/-- An action that reports defects. -/
abbrev FitM := StateM (Array Diagnostic)

/-- Reports an error and gives nothing. -/
def misfit {α : Type} (location : Location) (text : String) : FitM (Option α) := do
  modify fun diagnostics => diagnostics.push ⟨.error, location, text⟩
  pure none

/-- Reports that something else was expected for a type. -/
def expected {α : Type} (type : Descriptor) (location : Location) (what : String) : FitM (Option α) :=
  misfit location ("expected " ++ what ++ " for " ++ type.text)

/-- Reads the number of bits of a bit string, all of them where none is given. -/
def fitBitCount (location : Location) (members : List (String × Json)) (available : Nat) : FitM (Option Nat) :=
  match Json.member? "bits" members with
  | none => pure (some available)
  | some count =>
    let refusal := misfit (location.child "bits") ("'bits' must be between 0 and " ++ toString available)
    match count.int64? with
    | none => refusal
    | some count => if count < 0 ∨ count.toInt.toNat > available then refusal else pure (some count.toInt.toNat)

/-- Reads a bit string. -/
def fitBits (type : Descriptor) (location : Location) (json : Json) : FitM (Option Value) :=
  match json.obj? with
  | none => type.expected location "an object with 'hex' and 'bits'"
  | some members =>
    match (Json.member? "hex" members).bind Json.str? with
    | none => type.expected location "an object with 'hex' and 'bits'"
    | some hex =>
      match Octets.ofHex? hex with
      | none => misfit (location.child "hex") "malformed hex string"
      | some data => do
        match ← fitBitCount location members (data.size * 8) with
        | none => pure none
        | some count => pure (some (.bits ⟨Octets.resize data (Octets.countFor count), UInt64.ofNat count⟩))

/-- Reads a value of a type without parts. -/
def fitSimple (type : Descriptor) (plain : SimpleType) (location : Location) (json : Json) : FitM (Option Value) :=
  match plain with
  | .null =>
    match json with
    | .null => pure (some .null)
    | _ => type.expected location "null"
  | .boolean =>
    match json.bool? with
    | some value => pure (some (.boolean value))
    | none => type.expected location "a boolean"
  | .integer _ =>
    match json.int64? with
    | some value => pure (some (.integer value))
    | none => type.expected location "an integer"
  | .octetString _ =>
    match json.str? with
    | none => type.expected location "a hex string"
    | some hex =>
      match Octets.ofHex? hex with
      | none => misfit location "malformed hex string"
      | some data => pure (some (.octets data))
  | .bitString _ => type.fitBits location json
  | .text .. =>
    match json.str? with
    | some text => pure (some (.text (Utf8.ofText text)))
    | none => type.expected location "a string"

/-- Reads an item by its name. -/
def fitItem (type : Descriptor) (items : List String) (location : Location) (json : Json) : FitM (Option Value) :=
  match json.str? with
  | none => type.expected location "an item name"
  | some item =>
    match items.idxOf? item with
    | none => misfit location ("'" ++ item ++ "' is not an item of " ++ type.text)
    | some index => pure (some (.enumerated (UInt64.ofNat index)))

/-- Reports every key that names no field; tells whether there is none. -/
def fitKeys (names : List String) (location : Location) (ok : Bool) : List (String × Json) → FitM Bool
  | [] => pure ok
  | (key, _) :: rest =>
    if names.contains key then fitKeys names location ok rest
    else do
      let _ : Option Unit ← misfit (location.child key) ("unknown field '" ++ key ++ "'")
      fitKeys names location false rest

/-- Reads elements from an index on by an action; gives those read, last first, and whether all fit. -/
def fitElements (fit : Location → Json → FitM (Option Value)) (location : Location) (index : Nat)
    (sofar : List (Option Value)) (ok : Bool) : List Json → FitM (List (Option Value) × Bool)
  | [] => pure (sofar, ok)
  | item :: rest => do
    let element ← fit (location.item index) item
    fitElements fit location (index + 1) (element :: sofar) (ok && element.isSome) rest

mutual

/-- Reads a value of a type. -/
def fit : Descriptor → Location → Json → FitM (Option Value)
  | .simple name plain extensible, location, json => fitSimple (.simple name plain extensible) plain location json
  | .enumerated name items standard, location, json => fitItem (.enumerated name items standard) items location json
  | .sequence name fields standard, location, json =>
    match json.obj? with
    | none => (Descriptor.sequence name fields standard).expected location "an object"
    | some members => do
      let known ← fitKeys (fields.map (·.name)) location true members
      let (entries, ok) ← fitFields fields location members
      pure (if known && ok then some (.sequence entries) else none)
  | .sequenceOf name element size extensible, location, json =>
    match json.arr? with
    | none => (Descriptor.sequenceOf name element size extensible).expected location "an array"
    | some items => do
      let (elements, ok) ← fitElements (fun location json => fit element location json) location 0 [] true items
      pure (if ok then some (.sequenceOf elements.reverse) else none)
  | .choice name alternatives standard, location, json =>
    match json.obj? with
    | some [(key, payload)] => fitAlternative alternatives 0 key location payload
    | _ => (Descriptor.choice name alternatives standard).expected location "an object with exactly one variant"

/-- Reads the entries of some fields; tells whether all fit. -/
def fitFields : List (Field Descriptor) → Location → List (String × Json) → FitM (List (Option Value) × Bool)
  | [], _, _ => pure ([], true)
  | ⟨name, optional, type⟩ :: fields, location, members => do
    match Json.member? name members with
    | none => do
      if !optional then
        let _ : Option Unit ← misfit location ("missing mandatory field '" ++ name ++ "'")
      let (entries, ok) ← fitFields fields location members
      pure (none :: entries, optional && ok)
    | some json => do
      let entry ← fit type (location.child name) json
      let (entries, ok) ← fitFields fields location members
      pure (entry :: entries, entry.isSome && ok)

/-- Reads the value of the alternative of a name, looked for from an index on. -/
def fitAlternative : List (String × Descriptor) → Nat → String → Location → Json → FitM (Option Value)
  | [], _, key, location, _ => misfit (location.child key) ("unknown variant '" ++ key ++ "'")
  | (name, type) :: alternatives, index, key, location, json =>
    if name = key then do
      match ← fit type (location.child key) json with
      | none => pure none
      | some payload => pure (some (.choice (UInt64.ofNat index) (some payload)))
    else fitAlternative alternatives (index + 1) key location json

end

end Descriptor

/-- Reads a value of a type from a node of a document: the value, if nothing is wrong, and all defects. -/
def Value.ofJson (type : Descriptor) (location : Location) (json : Json) :
    Except DocumentFault Value × Array Diagnostic :=
  let (value, diagnostics) := (type.fit location json).run #[]
  let errors := Diagnostic.errorCount diagnostics
  match value with
  | some value =>
    if errors = 0 then (.ok value, diagnostics) else (.error (.defective "value" location.file errors), diagnostics)
  | none => (.error (.defective "value" location.file errors), diagnostics)

end UnalignedPer
