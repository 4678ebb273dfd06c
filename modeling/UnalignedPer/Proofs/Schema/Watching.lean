import UnalignedPer.Proofs.Schema.Grammar
import UnalignedPer.Schema.Parser

/-!
# Loading under watch

A schema is loaded while it is watched which type nodes are entered, each known by its place in the document (`Json.Place`), and
how many definitions are being read at once. References may lead anywhere, also back, and each definition that is read for a
reference takes fuel. `Loading.resolve` gives nothing for a name when its fuel is spent, as for a name that failed; here there is
no result at all then (`Watch.spent`), so that a result says that loading came to an end by itself.

Whatever else is done is done as in `Loading` (`Watch.plain`).
-/

namespace UnalignedPer

namespace Json

/-! ## Places -/

/-- A step from a type node to a type node in it. -/
inductive Step where
  /-- To the type of the elements. -/
  | element
  /-- To the type of the field or alternative of an index. -/
  | member (index : Nat)
  deriving DecidableEq

/-- The type node that a step leads to. From a reference no step leads on, whatever stands beside it. -/
def inner? (node : Json) : Step → Option Json
  | .element => if node.reference? = none ∧ node.kind? = some .sequenceOf then node.under? "element" else none
  | .member index =>
    if node.reference? = none then (node.members?.bind fun items => items[index]?).bind (under? "type") else none

/-- Where a type node stands. -/
structure Place where
  /-- The name of the definition that it is in. -/
  definition : String
  /-- The steps that lead to it, the last one first. -/
  steps : List Step
  deriving DecidableEq

namespace Place

/-- The place of a definition. -/
def top (name : String) : Place :=
  ⟨name, []⟩

/-- The place a step further in. -/
def step (place : Place) (next : Step) : Place :=
  ⟨place.definition, next :: place.steps⟩

/-- The type node at a place among some definitions. -/
def node? (types : List (String × Json)) (place : Place) : Option Json :=
  place.steps.foldr (fun next found => found.bind fun node => node.inner? next) (member? place.definition types)

/-- One step further from a place lies the node one step into the node at the place. -/
theorem node?_step (types : List (String × Json)) (place : Place) (next : Step) :
    (place.step next).node? types = (place.node? types).bind fun node => node.inner? next :=
  rfl

end Place

end Json

namespace Loading

open Json (Place)

/-- A definition is no longer under way: its type is kept, or the name fails. -/
def settle (name : String) (type : Option Descriptor) : LoadM (Option Descriptor) := do
  modify fun l => { l with active := l.active.erase name }
  let failed := (← get).failed.contains name
  match type with
  | some type =>
    if failed then markFailed name
    else do
      modify fun l => { l with resolved := (name, type) :: l.resolved }
      pure (some type)
  | none => markFailed name

/-! ## Watching -/

/-- What is known while a schema is loaded under watch. -/
structure Watch where
  /-- What is known of the schema. -/
  loading : Loading
  /-- The type nodes that were entered, each with its place, the last one first. -/
  entered : List (Place × Json)
  /-- The number of definitions that are being read. -/
  reading : Nat
  /-- The greatest number of definitions that were being read at once. -/
  deepest : Nat

/-- An action while a schema is loaded under watch; it has no result if its fuel is spent. -/
abbrev WatchM := StateT Watch Option

namespace Watch

/-- Nothing is known yet, and nothing was entered. -/
def start : Watch :=
  ⟨.start, [], 0, 0⟩

/-- An action that nothing is watched of. -/
def plain {α : Type} (action : LoadM α) : WatchM α := fun w =>
  some ((action w.loading).1, { w with loading := (action w.loading).2 })

/-- The same with a type node entered. -/
def entering (w : Watch) (place : Place) (node : Json) : Watch :=
  { w with entered := (place, node) :: w.entered }

/-- A type node is entered. -/
def enter (place : Place) (node : Json) : WatchM Unit :=
  modify fun w => w.entering place node

/-- A definition begins to be read. -/
def opened : WatchM Unit :=
  modify fun w => { w with reading := w.reading + 1, deepest := max w.deepest (w.reading + 1) }

/-- A definition is no longer being read. -/
def closed : WatchM Unit :=
  modify fun w => { w with reading := w.reading - 1 }

/-- There is no fuel left, and no result. -/
def spent {α : Type} : WatchM α := fun _ =>
  none

/-! ## Loading -/

/-- Finds the type of a name for a node that refers to it. -/
abbrev Resolver := String → Location → WatchM (Option Descriptor)

/-- Reads a field or alternative; `type?` reads its type, if it has one. -/
def readMember (location : Location) (isChoice : Bool) (member : List (String × Json))
    (type? : Option (WatchM (Option Descriptor))) (scan : MemberScan) : WatchM MemberScan := do
  plain (warnUnknownKeys location memberKeys member)
  let name := ((Json.member? "name" member).bind Json.str?).getD ""
  if name.isEmpty then plain do
    error location "member needs a non-empty 'name'"
    pure scan.failed
  else if scan.seen.contains name then plain do
    error (location.child "name") ("duplicate member '" ++ name ++ "'")
    pure scan.failed
  else do
    let optional ← plain (readOptional location isChoice member)
    let scan : MemberScan := { scan with seen := name :: scan.seen, ok := scan.ok && optional.isSome }
    match type? with
    | none => plain do
      error location ("member '" ++ name ++ "' needs a 'type'")
      pure scan.failed
    | some read => do
      match ← read with
      | none => pure scan.failed
      | some type => pure { scan with members := ⟨name, optional.getD false, type⟩ :: scan.members }

mutual

/-- Reads a type node that was entered. -/
def readType (resolve : Resolver) (place : Place) (name : String) (location : Location) : Json → WatchM (Option Descriptor)
  | .obj members =>
    match (Json.member? "ref" members).bind Json.str? with
    | some target => do
      if members.length ≠ 1 then plain (warning location "keys next to 'ref' are ignored")
      resolve target (location.child "ref")
    | none =>
      match (Json.member? "kind" members).bind Json.str? with
      | none => plain (refuse location "type needs a string 'kind' or a 'ref'")
      | some kindName =>
        match kindOfName? kindName with
        | none => plain (refuse (location.child "kind") ("unknown kind '" ++ kindName ++ "'"))
        | some kind => do
          plain (warnUnknownKeys location (allowedKeys kind) members)
          match kind with
          | .null => pure (some (.simple name .null false))
          | .boolean => pure (some (.simple name .boolean false))
          | .enumerated => plain (readEnumerated location name members)
          | .sequence => do
            match ← readMembersUnder resolve place "fields" false (location.child "fields") members with
            | none => pure none
            | some scan => plain (finishMembers location name false members scan)
          | .choice => do
            match ← readMembersUnder resolve place "variants" true (location.child "variants") members with
            | none => pure none
            | some scan => plain (finishMembers location name true members scan)
          | .sequenceOf => do
            let bounds ← plain (readBounds location true members)
            match readTypeUnder resolve (place.step .element) "element" (location.child "element") members with
            | none => plain (refuse location "sequence-of type needs an 'element'")
            | some read => do
              match ← read, bounds with
              | some element, some (size, extensible) => pure (some (.sequenceOf name element size extensible))
              | _, _ => pure none
          | kind => plain (readBounded location name kind members)
  | _ => plain (refuse location "type must be an object")

/-- Enters and reads the type node under a key, if there is one. -/
def readTypeUnder (resolve : Resolver) (place : Place) (key : String) (location : Location) :
    List (String × Json) → Option (WatchM (Option Descriptor))
  | [] => none
  | (k, node) :: rest =>
    if k = key then some do
      enter place node
      readType resolve place "" location node
    else readTypeUnder resolve place key location rest

/-- Reads the fields or alternatives under a key. -/
def readMembersUnder (resolve : Resolver) (place : Place) (key : String) (isChoice : Bool) (location : Location) :
    List (String × Json) → WatchM (Option MemberScan)
  | [] => plain (refuse location ("'" ++ key ++ "' must be an array"))
  | (k, node) :: rest =>
    if k = key then
      match node with
      | .arr items =>
        if isChoice ∧ items.isEmpty then plain (refuse location "choice type needs at least one variant")
        else some <$> readMembers resolve place isChoice location 0 .start items
      | _ => plain (refuse location ("'" ++ key ++ "' must be an array"))
    else readMembersUnder resolve place key isChoice location rest

/-- Reads fields or alternatives from an index on. -/
def readMembers (resolve : Resolver) (place : Place) (isChoice : Bool) (location : Location) (index : Nat)
    (scan : MemberScan) : List Json → WatchM MemberScan
  | [] => pure scan
  | item :: rest => do
    let scan ←
      match item with
      | .obj member =>
        readMember (location.item index) isChoice member (readTypeUnder resolve (place.step (.member index)) "type"
          ((location.item index).child "type") member) scan
      | _ => plain do
        error (location.item index) "member must be an object"
        pure scan.failed
    readMembers resolve place isChoice location (index + 1) scan rest

end

/-- Finds the type of a name among the definitions, and reads its definition where that was not done yet. -/
def resolve (types : List (String × Json)) (root : Location) : Nat → Resolver
  | fuel, name, referrer => do
    let l := (← get).loading
    match l.resolved.lookup name with
    | some type => pure (some type)
    | none =>
      if l.failed.contains name then pure none
      else if l.active.contains name then plain do
        error referrer ("cyclic reference to type '" ++ name ++ "'")
        markFailed name
      else
        match Json.member? name types with
        | none => plain (refuse referrer ("unknown type '" ++ name ++ "'"))
        | some node =>
          match fuel with
          | 0 => spent
          | fuel + 1 => do
            plain (modify fun l => { l with active := name :: l.active })
            opened
            enter (.top name) node
            let type ← readType (resolve types root fuel) (.top name) name (root.child name) node
            closed
            plain (settle name type)

/-- Reads the types of some names and gives each its name. -/
def resolveAll (types : List (String × Json)) (root : Location) (fuel : Nat) (sofar : List Descriptor) :
    List String → WatchM (List Descriptor)
  | [] => pure sofar.reverse
  | name :: rest => do
    match ← resolve types root fuel name (root.child name) with
    | some type => resolveAll types root fuel (type.rename name :: sofar) rest
    | none => resolveAll types root fuel sofar rest

end Watch

end Loading

end UnalignedPer
