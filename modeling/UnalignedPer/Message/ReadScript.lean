import UnalignedPer.Message.Reader

/-!
# Scripts of reading

A script lists what is read, field by field, and gives what was found. Every step that comes to its end is recorded in the
reader under its place: the indices on the way to it, and in a list the number of the element.
-/

namespace UnalignedPer

/-- A step of reading. -/
inductive ReadStep where
  /-- Reads a NULL. -/
  | null
  /-- Reads a BOOLEAN. -/
  | boolean
  /-- Reads an INTEGER. -/
  | integer (c : Constraint)
  /-- Reads an ENUMERATED. -/
  | enumerated (c : Constraint)
  /-- Reads an OCTET STRING. -/
  | octets (c : Constraint)
  /-- Reads a BIT STRING. -/
  | bits (c : Constraint)
  /-- Reads a character string. -/
  | text (c : Constraint)
  /-- Reads a SEQUENCE. -/
  | sequence (c : Constraint) (body : List ReadStep)
  /-- Reads a SEQUENCE OF, every element by the same steps. -/
  | sequenceOf (c : Constraint) (body : List ReadStep)
  /-- Reads a CHOICE by the steps of the alternative; one without steps of its own has none. -/
  | choice (c : Constraint) (bodies : List (List ReadStep))
  /-- Reads an OPTIONAL field. -/
  | opt (body : List ReadStep)
  /-- Fails. -/
  | fail (reason : Reason)
  deriving Repr, Inhabited

/-- What a step of reading found. -/
inductive Found where
  /-- A NULL. -/
  | null
  /-- A truth value. -/
  | boolean (value : Bool)
  /-- A number. -/
  | integer (value : Int64)
  /-- An item by its index. -/
  | enumerated (item : UInt64)
  /-- Some octets. -/
  | octets (data : Octets)
  /-- Some bits. -/
  | bits (run : BitString)
  /-- What the steps of a sequence found. -/
  | sequence (fields : List Found)
  /-- What the steps of each element found. -/
  | sequenceOf (elements : List (List Found))
  /-- What the steps of an alternative found. -/
  | choice (alternative : UInt64) (fields : List Found)
  /-- What the steps of an OPTIONAL field found, nothing where it is absent. -/
  | opt (fields : Option (List Found))
  deriving Repr, Inhabited

namespace ReadStep

/-- Runs a step and records its end. -/
def recorded {α : Type} (path : String) (action : ReaderM α) : ReaderM α := fun r =>
  let close (ok : Bool) (r : Reader) : Reader :=
    { r with steps := r.steps.push ⟨path, ok, r.view.position, r.view.remaining⟩ }
  match action r with
  | .ok result r => .ok result (close true r)
  | .error fault r => .error fault (close false r)

/-- The place of an element below the place of its list. -/
def elementPath (path : String) (index : Nat) : String :=
  path ++ "[" ++ toString index ++ "]"

mutual

/-- Runs a step at its place. -/
def run (path : String) : ReadStep → ReaderM Found
  | .null => recorded path do
    Reader.null
    pure .null
  | .boolean => recorded path (.boolean <$> Reader.boolean)
  | .integer c => recorded path (.integer <$> Reader.integer c)
  | .enumerated c => recorded path (.enumerated <$> Reader.enumerated c)
  | .octets c => recorded path (.octets <$> Reader.octetString c)
  | .bits c => recorded path (.bits <$> Reader.bitString c)
  | .text c => recorded path (.octets <$> Reader.characterString c)
  | .sequence c body => recorded path (.sequence <$> Reader.sequence c (runBody path 0 body))
  | .sequenceOf c body => recorded path do
    let elements ← Reader.sequenceOf c fun index => runBody (elementPath path index) 0 body
    pure (.sequenceOf elements.toList)
  | .choice c bodies => recorded path do
    let (alternative, fields) ← Reader.choice c fun index => runAlternative path index.toNat bodies
    pure (.choice alternative fields)
  | .opt body => recorded path (.opt <$> Reader.opt (runBody path 0 body))
  | .fail reason => recorded path (throw (.unsupported reason))

/-- Runs the steps of a body in order, up to the first one that fails. -/
def runBody (path : String) (index : Nat) : List ReadStep → ReaderM (List Found)
  | [] => pure []
  | step :: rest => do
    let found ← run (path ++ "." ++ toString index) step
    let more ← runBody path (index + 1) rest
    pure (found :: more)

/-- Runs the body of an alternative. -/
def runAlternative (path : String) (index : Nat) : List (List ReadStep) → ReaderM (List Found)
  | [] => pure []
  | body :: bodies =>
    match index with
    | 0 => runBody path 0 body
    | index + 1 => runAlternative path index bodies

end

end ReadStep

end UnalignedPer
