import UnalignedPer.Schema
import UnalignedPer.Schema.Loading

/-!
# Reading a schema

A schema document is an object with an object `types`, which defines types by name. A type node either has a kind and the parts
of that kind, or refers to a named type. A named type is read when it is first met; a reference to a type under way is a cycle.

`Schema.parse` gives the schema only where the document has no error, and the defects in any case.
-/

namespace UnalignedPer

namespace Loading

/-- Finds the type of a name for a node that refers to it. -/
abbrev Resolver := String → Location → LoadM (Option Descriptor)

mutual

/-- Reads a type node. -/
def readType (resolve : Resolver) (name : String) (location : Location) : Json → LoadM (Option Descriptor)
  | .obj members =>
    match (Json.member? "ref" members).bind Json.str? with
    | some target => do
      if members.length ≠ 1 then warning location "keys next to 'ref' are ignored"
      resolve target (location.child "ref")
    | none =>
      match (Json.member? "kind" members).bind Json.str? with
      | none => refuse location "type needs a string 'kind' or a 'ref'"
      | some kindName =>
        match kindOfName? kindName with
        | none => refuse (location.child "kind") ("unknown kind '" ++ kindName ++ "'")
        | some kind => do
          warnUnknownKeys location (allowedKeys kind) members
          match kind with
          | .null => pure (some (.simple name .null false))
          | .boolean => pure (some (.simple name .boolean false))
          | .enumerated => readEnumerated location name members
          | .sequence => do
            match ← readMembersUnder resolve "fields" false (location.child "fields") members with
            | none => pure none
            | some scan => finishMembers location name false members scan
          | .choice => do
            match ← readMembersUnder resolve "variants" true (location.child "variants") members with
            | none => pure none
            | some scan => finishMembers location name true members scan
          | .sequenceOf => do
            let bounds ← readBounds location true members
            match readTypeUnder resolve "element" (location.child "element") members with
            | none => refuse location "sequence-of type needs an 'element'"
            | some read => do
              match ← read, bounds with
              | some element, some (size, extensible) => pure (some (.sequenceOf name element size extensible))
              | _, _ => pure none
          | kind => readBounded location name kind members
  | _ => refuse location "type must be an object"

/-- Reads the type node under a key, if there is one. -/
def readTypeUnder (resolve : Resolver) (key : String) (location : Location) :
    List (String × Json) → Option (LoadM (Option Descriptor))
  | [] => none
  | (k, node) :: rest =>
    if k = key then some (readType resolve "" location node) else readTypeUnder resolve key location rest

/-- Reads the fields or alternatives under a key. -/
def readMembersUnder (resolve : Resolver) (key : String) (isChoice : Bool) (location : Location) :
    List (String × Json) → LoadM (Option MemberScan)
  | [] => refuse location ("'" ++ key ++ "' must be an array")
  | (k, node) :: rest =>
    if k = key then
      match node with
      | .arr items =>
        if isChoice ∧ items.isEmpty then refuse location "choice type needs at least one variant"
        else some <$> readMembers resolve isChoice location 0 .start items
      | _ => refuse location ("'" ++ key ++ "' must be an array")
    else readMembersUnder resolve key isChoice location rest

/-- Reads fields or alternatives from an index on. -/
def readMembers (resolve : Resolver) (isChoice : Bool) (location : Location) (index : Nat) (scan : MemberScan) :
    List Json → LoadM MemberScan
  | [] => pure scan
  | item :: rest => do
    let scan ←
      match item with
      | .obj member =>
        readMember (location.item index) isChoice member
          (readTypeUnder resolve "type" ((location.item index).child "type") member) scan
      | _ => do
        error (location.item index) "member must be an object"
        pure scan.failed
    readMembers resolve isChoice location (index + 1) scan rest

end

/-- Marks a named type as one that could not be read. -/
def markFailed (name : String) : LoadM (Option Descriptor) := do
  modify fun l => { l with failed := name :: l.failed }
  pure none

/-- Finds the type of a name among the definitions. The fuel bounds how many types are under way at once; each of them has a
name of its own, so the number of definitions is enough. -/
def resolve (types : List (String × Json)) (root : Location) : Nat → Resolver
  | fuel, name, referrer => do
    let l ← get
    match l.resolved.lookup name with
    | some type => pure (some type)
    | none =>
      if l.failed.contains name then pure none
      else if l.active.contains name then do
        error referrer ("cyclic reference to type '" ++ name ++ "'")
        markFailed name
      else
        match Json.member? name types with
        | none => refuse referrer ("unknown type '" ++ name ++ "'")
        | some node =>
          match fuel with
          | 0 => pure none
          | fuel + 1 => do
            modify fun l => { l with active := name :: l.active }
            let type ← readType (resolve types root fuel) name (root.child name) node
            modify fun l => { l with active := l.active.erase name }
            let failed := (← get).failed.contains name
            match type with
            | some type =>
              if failed then markFailed name
              else do
                modify fun l => { l with resolved := (name, type) :: l.resolved }
                pure (some type)
            | none => markFailed name

/-- Reads the types of some names and gives each its name. -/
def resolveAll (types : List (String × Json)) (root : Location) (sofar : List Descriptor) :
    List String → LoadM (List Descriptor)
  | [] => pure sofar.reverse
  | name :: rest => do
    match ← resolve types root types.length name (root.child name) with
    | some type => resolveAll types root (type.rename name :: sofar) rest
    | none => resolveAll types root sofar rest

/-- Warns of every key of a schema document besides `types`. -/
def warnDocumentKeys (root : Location) (members : List (String × Json)) : LoadM Unit :=
  warnUnknownKeys root ["types"] members

/-- Reads the types of a schema document. -/
def readDocument (root : Location) (document : Json) : LoadM (Option (List Descriptor)) :=
  match document.obj? with
  | none => refuse root "schema must be an object with a 'types' object"
  | some members =>
    match (Json.member? "types" members).bind Json.obj? with
    | none => refuse root "schema must be an object with a 'types' object"
    | some types => do
      warnDocumentKeys root members
      some <$> resolveAll types (root.child "types") [] (types.map (·.1))

end Loading

/-- Reads a schema document: the schema, if there is no error in it, and all defects. -/
def Schema.parse (file : String) (document : Json) : Except DocumentFault Schema × Array Diagnostic :=
  let (types, l) := (Loading.readDocument ⟨file, ""⟩ document).run .start
  let errors := Diagnostic.errorCount l.diagnostics
  match types with
  | some types =>
    if errors = 0 then (.ok ⟨types⟩, l.diagnostics) else (.error (.defective "schema" file errors), l.diagnostics)
  | none => (.error (.defective "schema" file errors), l.diagnostics)

end UnalignedPer
