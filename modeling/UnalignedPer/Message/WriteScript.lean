import UnalignedPer.Message.Writer

/-!
# Scripts of writing

A script lists what is written, field by field. Every step that comes to its end is recorded in the writer under its place: the
indices on the way to it, and in a list the number of the element.
-/

namespace UnalignedPer

/-- A step of writing. -/
inductive WriteStep where
  /-- Writes a NULL. -/
  | null
  /-- Writes a BOOLEAN. -/
  | boolean (value : Bool)
  /-- Writes an INTEGER. -/
  | integer (c : Constraint) (value : Int64)
  /-- Writes an ENUMERATED. -/
  | enumerated (c : Constraint) (item : UInt64)
  /-- Writes an OCTET STRING. -/
  | octets (c : Constraint) (data : Octets)
  /-- Writes a BIT STRING. -/
  | bits (c : Constraint) (run : BitString)
  /-- Writes a character string. -/
  | text (c : Constraint) (data : Octets)
  /-- Writes a SEQUENCE. -/
  | sequence (c : Constraint) (body : List WriteStep)
  /-- Writes a SEQUENCE OF, every element by the same steps. -/
  | sequenceOf (c : Constraint) (count : Nat) (body : List WriteStep)
  /-- Writes a CHOICE. -/
  | choice (c : Constraint) (alternative : UInt64) (body : List WriteStep)
  /-- Writes an OPTIONAL field. -/
  | opt (present : Bool) (body : List WriteStep)
  /-- Fails. -/
  | fail (reason : Reason)
  deriving Repr, Inhabited

namespace WriteStep

/-- Runs a step and records its end. -/
def recorded (path : String) (action : WriterM Unit) : WriterM Unit := fun w =>
  let close (ok : Bool) (w : Writer) : Writer :=
    { w with steps := w.steps.push ⟨path, ok, w.buffer.writePosition, w.buffer.content⟩ }
  match action w with
  | .ok () w => .ok () (close true w)
  | .error fault w => .error fault (close false w)

/-- The place of an element below the place of its list. -/
def elementPath (path : String) (index : Nat) : String :=
  path ++ "[" ++ toString index ++ "]"

mutual

/-- Runs a step at its place. -/
def run (path : String) : WriteStep → WriterM Unit
  | .null => recorded path Writer.null
  | .boolean value => recorded path (Writer.boolean value)
  | .integer c value => recorded path (Writer.integer c value)
  | .enumerated c item => recorded path (Writer.enumerated c item)
  | .octets c data => recorded path (Writer.octetString c data)
  | .bits c value => recorded path (Writer.bitString c value)
  | .text c data => recorded path (Writer.characterString c data)
  | .sequence c body => recorded path (Writer.sequence c (runBody path 0 body))
  | .sequenceOf c count body =>
    recorded path (Writer.sequenceOf c count fun index => runBody (elementPath path index) 0 body)
  | .choice c alternative body => recorded path (Writer.choice c alternative (runBody path 0 body))
  | .opt present body => recorded path (Writer.opt present (runBody path 0 body))
  | .fail reason => recorded path (throw (.unsupported reason))

/-- Runs the steps of a body in order, up to the first one that fails. -/
def runBody (path : String) (index : Nat) : List WriteStep → WriterM Unit
  | [] => pure ()
  | step :: rest => do
    run (path ++ "." ++ toString index) step
    runBody path (index + 1) rest

end

end WriteStep

end UnalignedPer
