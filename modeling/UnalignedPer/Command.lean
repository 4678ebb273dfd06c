import UnalignedPer.Command.Run
import UnalignedPer.Json.Parser
import UnalignedPer.Json.Printer

/-!
# The command line on plain JSON text

The command line as the program runs it, with the reader and the printer of `Json` for its documents.
-/

namespace UnalignedPer

namespace Command

/-- The complaint about a text that is no JSON. -/
def notJsonText : String := "malformed JSON"

/-- JSON text with one complaint for all that is none. -/
def plainJson : JsonFormat where
  parse text :=
    match Json.parse? text with
    | some json => .ok json
    | none => .error notJsonText
  print := Json.pretty

/-- Runs the program on its arguments, with plain JSON text. -/
def run {m : Type → Type} [Monad m] (files : FileAccess m) (args : List String) : m Outcome :=
  runWith plainJson files args

end Command

end UnalignedPer
