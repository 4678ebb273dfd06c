import UnalignedPer.Command

/-!
# The program

Reads the files that a run asks for and prints what it gives.
-/

open UnalignedPer

/-- The files of the system. A file that cannot be read counts as missing. -/
def systemFiles : Command.FileAccess IO where
  read path := do
    try
      let text ← IO.FS.readFile path
      pure (some text)
    catch _ => pure none
  stdin := do
    let input ← IO.getStdin
    input.readToEnd

/-- Runs the program. -/
def main (args : List String) : IO UInt32 := do
  let outcome ← Command.run systemFiles args
  IO.print outcome.out
  IO.eprint outcome.err
  pure (UInt32.ofNat outcome.status)
