import UnalignedPer.Descriptor
import UnalignedPer.Diagnostic
import UnalignedPer.Json

/-!
# Reading the parts of a type

The parts of a type node that hold no other types: its kind, its bounds, its extension marker and its items. Each reader
reports what is wrong and goes on. While a schema is loaded, the types that were read, the types that failed and the types
under way are kept in mind.
-/

namespace UnalignedPer

/-- What is known while a schema is loaded. -/
structure Loading where
  /-- The defects found. -/
  diagnostics : Array Diagnostic
  /-- The named types that were read. -/
  resolved : List (String × Descriptor)
  /-- The named types under way. -/
  active : List String
  /-- The named types that could not be read. -/
  failed : List String
  deriving Inhabited

/-- An action while a schema is loaded. -/
abbrev LoadM := StateM Loading

namespace Loading

/-- Nothing is known yet. -/
def start : Loading :=
  ⟨#[], [], [], []⟩

/-- Reports a defect. -/
def report (severity : Severity) (location : Location) (text : String) : LoadM Unit :=
  modify fun l => { l with diagnostics := l.diagnostics.push ⟨severity, location, text⟩ }

/-- Reports an error. -/
def error (location : Location) (text : String) : LoadM Unit :=
  report .error location text

/-- Reports a warning. -/
def warning (location : Location) (text : String) : LoadM Unit :=
  report .warning location text

/-- Reports an error and gives nothing. -/
def refuse {α : Type} (location : Location) (text : String) : LoadM (Option α) := do
  error location text
  pure none

/-- The kind of a name; sets are read like sequences. -/
def kindOfName? (name : String) : Option Kind :=
  match name with
  | "null" => some .null
  | "boolean" => some .boolean
  | "integer" => some .integer
  | "enumerated" => some .enumerated
  | "octet-string" => some .octetString
  | "bit-string" => some .bitString
  | "string" => some .text
  | "sequence" => some .sequence
  | "set" => some .sequence
  | "sequence-of" => some .sequenceOf
  | "set-of" => some .sequenceOf
  | "choice" => some .choice
  | _ => none

/-- The alphabet of a name. -/
def alphabetOfName? (name : String) : Option Alphabet :=
  match name with
  | "utf8" => some .utf8
  | "numeric" => some .numeric
  | "printable" => some .printable
  | "ia5" => some .ia5
  | "visible" => some .visible
  | _ => none

/-- The keys that a node of a kind may have. -/
def allowedKeys : Kind → List String
  | .null => ["kind"]
  | .boolean => ["kind"]
  | .integer => ["kind", "min", "max", "extensible"]
  | .octetString => ["kind", "min", "max", "extensible"]
  | .bitString => ["kind", "min", "max", "extensible"]
  | .text => ["kind", "min", "max", "extensible", "charset"]
  | .enumerated => ["kind", "items", "extensible", "extensionAfter"]
  | .sequence => ["kind", "fields", "extensible", "extensionAfter"]
  | .sequenceOf => ["kind", "element", "min", "max", "extensible"]
  | .choice => ["kind", "variants", "extensible", "extensionAfter"]

/-- The keys that a field or alternative may have. -/
def memberKeys : List String :=
  ["name", "type", "optional"]

/-- Warns of every key that is not allowed. -/
def warnUnknownKeys (location : Location) (allowed : List String) : List (String × Json) → LoadM Unit
  | [] => pure ()
  | (key, _) :: rest => do
    if !allowed.contains key then
      warning (location.child key) ("unknown key '" ++ key ++ "' ignored")
    warnUnknownKeys location allowed rest

/-- Reads a bound, which may be missing; gives nothing where it is malformed. -/
def readBound (location : Location) (isSize : Bool) (members : List (String × Json)) (key : String) :
    LoadM (Option (Option Int64)) :=
  match Json.member? key members with
  | none => pure (some none)
  | some bound =>
    match bound.int64? with
    | none => refuse (location.child key) ("'" ++ key ++ "' must be an integer")
    | some number =>
      if isSize ∧ number < 0 then refuse (location.child key) "size bound must not be negative"
      else pure (some (some number))

/-- Reads the extension flag, false where it is missing or malformed. -/
def readExtensible (location : Location) (members : List (String × Json)) : LoadM Bool :=
  match Json.member? "extensible" members with
  | none => pure false
  | some flag =>
    match flag.bool? with
    | some value => pure value
    | none => do
      error (location.child "extensible") "'extensible' must be a boolean"
      pure false

/-- Reads the bounds and the extension flag; gives nothing where a bound is malformed or the bounds cross. -/
def readBounds (location : Location) (isSize : Bool) (members : List (String × Json)) :
    LoadM (Option (Bounds Int64 × Bool)) := do
  let lower ← readBound location isSize members "min"
  let upper ← readBound location isSize members "max"
  let crossed ←
    match lower, upper with
    | some (some lower), some (some upper) =>
      if lower > upper then do
        error location ("'min' " ++ toString lower ++ " exceeds 'max' " ++ toString upper)
        pure true
      else pure false
    | _, _ => pure false
  let extensible ← readExtensible location members
  match lower, upper with
  | some lower, some upper => pure (if crossed then none else some (⟨lower, upper⟩, extensible))
  | _, _ => pure none

/-- Reads the alphabet of a text. -/
def readAlphabet (location : Location) (members : List (String × Json)) : LoadM (Option Alphabet) :=
  match Json.member? "charset" members with
  | none => pure (some .utf8)
  | some charset =>
    match charset.str?.bind alphabetOfName? with
    | some alphabet => pure (some alphabet)
    | none => refuse (location.child "charset") "'charset' must be one of utf8, numeric, printable, ia5, visible"

/-- Reads a type without parts but with bounds. -/
def readBounded (location : Location) (name : String) (kind : Kind) (members : List (String × Json)) :
    LoadM (Option Descriptor) := do
  match ← readBounds location (kind ≠ .integer) members with
  | none => pure none
  | some (bounds, extensible) =>
    match kind with
    | .integer => pure (some (.simple name (.integer bounds) extensible))
    | .octetString => pure (some (.simple name (.octetString bounds) extensible))
    | .bitString => pure (some (.simple name (.bitString bounds) extensible))
    | _ => do
      match ← readAlphabet location members with
      | none => pure none
      | some alphabet => pure (some (.simple name (.text alphabet bounds) extensible))

/-- Reads where the extension marker of a type with members stands: behind the member of a name, behind all members, or nowhere.
Gives nothing where it is malformed. -/
def readStandard (location : Location) (members : List (String × Json)) (names : List String) :
    LoadM (Option (Option Nat)) := do
  let extensible ← readExtensible location members
  let here := location.child "extensionAfter"
  match Json.member? "extensionAfter" members with
  | none => pure (some (if extensible then some names.length else none))
  | some after =>
    if (Json.member? "extensible" members).isSome ∧ !extensible then
      refuse here "'extensionAfter' requires an extensible type"
    else
      match after.str? with
      | none => refuse here "'extensionAfter' must be a member name"
      | some name =>
        match names.idxOf? name with
        | none => refuse here ("no member named '" ++ name ++ "'")
        | some index => pure (some (some (index + 1)))

/-- Reads the items of an enumerated type from an index on; gives the names read, last first, and whether all are sound. -/
def readItems (location : Location) (index : Nat) (sofar : List String) (ok : Bool) :
    List Json → LoadM (List String × Bool)
  | [] => pure (sofar, ok)
  | item :: rest =>
    match item.str? with
    | none => do
      error (location.item index) "item must be a non-empty string"
      readItems location (index + 1) sofar false rest
    | some name =>
      if name.isEmpty then do
        error (location.item index) "item must be a non-empty string"
        readItems location (index + 1) sofar false rest
      else if sofar.contains name then do
        error (location.item index) ("duplicate item '" ++ name ++ "'")
        readItems location (index + 1) sofar false rest
      else readItems location (index + 1) (name :: sofar) ok rest

/-- Reads an enumerated type. -/
def readEnumerated (location : Location) (name : String) (members : List (String × Json)) :
    LoadM (Option Descriptor) := do
  match (Json.member? "items" members).bind Json.arr? with
  | none => refuse (location.child "items") "enumerated type needs a non-empty 'items' array"
  | some [] => refuse (location.child "items") "enumerated type needs a non-empty 'items' array"
  | some raw => do
    let (items, ok) ← readItems (location.child "items") 0 [] true raw
    if ok then
      match ← readStandard location members items.reverse with
      | none => pure none
      | some standard => pure (some (.enumerated name items.reverse standard))
    else pure none

/-- What is known while the fields or alternatives of a type are read. -/
structure MemberScan where
  /-- Whether all of them were sound so far. -/
  ok : Bool
  /-- The names met so far. -/
  seen : List String
  /-- The sound ones, last first. -/
  members : List (Field Descriptor)
  deriving Inhabited

namespace MemberScan

/-- Nothing is read yet. -/
def start : MemberScan :=
  ⟨true, [], []⟩

/-- The same after a member that is not sound. -/
def failed (scan : MemberScan) : MemberScan :=
  { scan with ok := false }

end MemberScan

/-- Reads whether a field may be absent; gives nothing where that is malformed or not allowed. -/
def readOptional (location : Location) (isChoice : Bool) (member : List (String × Json)) : LoadM (Option Bool) :=
  match Json.member? "optional" member with
  | none => pure (some false)
  | some flag =>
    match flag.bool? with
    | none => refuse (location.child "optional") "'optional' must be a boolean"
    | some value =>
      if value ∧ isChoice then refuse (location.child "optional") "choice variants cannot be optional"
      else pure (some value)

/-- Reads a field or alternative; `type?` reads its type, if it has one. -/
def readMember (location : Location) (isChoice : Bool) (member : List (String × Json))
    (type? : Option (LoadM (Option Descriptor))) (scan : MemberScan) : LoadM MemberScan := do
  warnUnknownKeys location memberKeys member
  let name := ((Json.member? "name" member).bind Json.str?).getD ""
  if name.isEmpty then do
    error location "member needs a non-empty 'name'"
    pure scan.failed
  else if scan.seen.contains name then do
    error (location.child "name") ("duplicate member '" ++ name ++ "'")
    pure scan.failed
  else do
    let optional ← readOptional location isChoice member
    let scan : MemberScan := { scan with seen := name :: scan.seen, ok := scan.ok && optional.isSome }
    match type? with
    | none => do
      error location ("member '" ++ name ++ "' needs a 'type'")
      pure scan.failed
    | some read => do
      match ← read with
      | none => pure scan.failed
      | some type => pure { scan with members := ⟨name, optional.getD false, type⟩ :: scan.members }

/-- Ends the reading of a type with fields or alternatives. -/
def finishMembers (location : Location) (name : String) (isChoice : Bool) (members : List (String × Json))
    (scan : MemberScan) : LoadM (Option Descriptor) := do
  if scan.ok then
    let fields := scan.members.reverse
    match ← readStandard location members (fields.map (·.name)) with
    | none => pure none
    | some standard =>
      if isChoice then pure (some (.choice name (fields.map fun field => (field.name, field.type)) standard))
      else pure (some (.sequence name fields standard))
  else pure none

end Loading

end UnalignedPer
