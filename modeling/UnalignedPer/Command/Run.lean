import UnalignedPer.Command.Options
import UnalignedPer.Message.Decode
import UnalignedPer.Message.Encode
import UnalignedPer.Schema.Parser
import UnalignedPer.Value.OfJson
import UnalignedPer.Value.ToJson

/-!
# The command line

Three commands work on a schema: `encode` turns a JSON value into a message, `decode` turns a message into a JSON value, and
`types` lists the types. A run reads files only through a `FileAccess`, reads and prints JSON text only through a `JsonFormat`,
and gives an `Outcome`, so it is the same function of its arguments and of these two wherever it runs. How JSON text is read and
printed is not settled here: `JsonFormat.ReadsBack` is the law of a format that the tasks together rest on.
-/

namespace UnalignedPer

namespace Command

/-- How JSON documents are read from texts and printed. -/
structure JsonFormat where
  /-- The document of a text, or the complaint about a text that holds none. -/
  parse : String → Except String Json
  /-- The text of a document. -/
  print : Json → String

/-- What is printed of a document, with the line break behind it, is read back as the document. -/
def JsonFormat.ReadsBack (format : JsonFormat) (json : Json) : Prop :=
  format.parse (format.print json ++ "\n") = .ok json

/-- How files are read. -/
structure FileAccess (m : Type → Type) where
  /-- The text of a file, nothing where there is no such file. -/
  read : String → m (Option String)
  /-- The text of the standard input. -/
  stdin : m String

/-- What a run gives. -/
structure Outcome where
  /-- The exit status. -/
  status : Nat
  /-- What goes to the standard output. -/
  out : String
  /-- What goes to the standard error. -/
  err : String
  deriving DecidableEq, Repr, Inhabited

/-- The line of an error. -/
def errorLine (text : String) : String :=
  mark ++ "error: " ++ text ++ "\n"

/-- Lines of a trace. -/
def traceText (lines : Array String) : String :=
  String.join (lines.toList.map (· ++ "\n"))

/-- A run that failed. -/
def failure (err : String) : Outcome :=
  ⟨1, "", err⟩

section Run

variable {m : Type → Type} [Monad m] (format : JsonFormat)

/-- Reads the settings; the complaint is a line of text. -/
def loadSettings (files : FileAccess m) (options : Options) : m (Except String Settings) := do
  let loaded : Except String Settings ←
    if options.config.isEmpty then pure (.ok .standard)
    else do
      match ← files.read options.config with
      | none => pure (.error (errorLine (DocumentFault.unreadable "config file" options.config).message))
      | some text =>
        match format.parse text with
        | .error complaint =>
          pure (.error (errorLine (DocumentFault.malformed "config file" options.config complaint).message))
        | .ok json => pure (.ok (Settings.standard.apply json).2)
  match loaded, options.trace with
  | .ok settings, some name =>
    match TraceLevel.ofName? name with
    | some level => pure (.ok { settings with trace := level })
    | none => pure (.error ("Invalid --trace value: " ++ name ++ "\n" ++ usage))
  | loaded, _ => pure loaded

/-- Reads a schema file: the schema or the reason why there is none, and the defects of the file. -/
def loadSchema (files : FileAccess m) (path : String) : m (Except DocumentFault Schema × Array Diagnostic) := do
  match ← files.read path with
  | none => pure (.error (.unreadable "schema file" path), #[])
  | some text =>
    match format.parse text with
    | .error complaint =>
      pure (.error (.malformed "schema file" path complaint), #[⟨.error, ⟨path, ""⟩, complaint⟩])
    | .ok json => pure (Schema.parse path json)

/-- Encodes the value of a text. -/
def encodeText (settings : Settings) (type : Descriptor) (source text : String) : Outcome :=
  match format.parse text with
  | .error complaint => failure (errorLine (DocumentFault.notJson complaint).message)
  | .ok json =>
    match Value.ofJson type ⟨source, ""⟩ json with
    | (.error fault, diagnostics) => failure (Diagnostic.print mark diagnostics ++ errorLine fault.message)
    | (.ok value, _) =>
      match encode settings type value with
      | (.error fault, trace) => failure (traceText trace ++ errorLine fault.message)
      | (.ok encoding, trace) =>
        ⟨0, "bits: " ++ toString encoding.bitLength ++ "\nhex: " ++ Octets.toHex encoding.octets ++ "\n",
          traceText trace⟩

/-- Encodes the value of a file. -/
def runEncode (files : FileAccess m) (settings : Settings) (type : Descriptor) (path : String) : m Outcome := do
  if path = "-" then
    let text ← files.stdin
    pure (encodeText format settings type "<stdin>" text)
  else
    match ← files.read path with
    | none => pure (failure (errorLine (DocumentFault.unreadable "value" path).message))
    | some text => pure (encodeText format settings type path text)

/-- Decodes a message. Bits that are left over bring a warning, as far as they are more than the filling of the last octet. -/
def decodeHex (settings : Settings) (type : Descriptor) (hex : String) (bits : Option UInt64) : Outcome :=
  match Octets.ofHex? hex with
  | none => failure (errorLine "--hex needs an even number of hex digits")
  | some data =>
    let available := data.size * 8
    let length := (bits.map (·.toNat)).getD available
    if length > available then
      failure (errorLine
        ("--bits " ++ toString length ++ " exceeds the " ++ toString available ++ " bits given"))
    else
      match decode settings type data length with
      | (.error fault, trace) => failure (traceText trace ++ errorLine fault.message)
      | (.ok decoding, trace) =>
        let left := length - decoding.consumed
        let warning :=
          if left ≥ (if bits.isSome then 1 else 8) then
            mark ++ "warning: " ++ toString left ++ " trailing bits ignored\n"
          else ""
        match decoding.value.toJson type with
        | .error fault => failure (traceText trace ++ warning ++ errorLine fault.message)
        | .ok json => ⟨0, format.print json ++ "\n", traceText trace ++ warning⟩

/-- The list of the types of a schema. -/
def listTypes (schema : Schema) : Outcome :=
  ⟨0, String.join (schema.types.map (·.text ++ "\n")), ""⟩

/-- Carries out a task under a schema. -/
def perform (files : FileAccess m) (task : Task) (options : Options) (settings : Settings) (schema : Schema) :
    m Outcome :=
  if task = .types then pure (listTypes schema)
  else if options.type.isEmpty then pure (failure ("--type is required for '" ++ task.name ++ "' command\n"))
  else
    match schema.lookup? options.type with
    | none => pure (failure (errorLine ("schema has no type named '" ++ options.type ++ "'")))
    | some type =>
      if task = .encode then
        if options.value.isEmpty then pure (failure "--value is required for 'encode' command\n")
        else runEncode format files settings type options.value
      else if options.hex.isEmpty then pure (failure "--hex is required for 'decode' command\n")
      else pure (decodeHex format settings type options.hex options.bits)

/-- Carries out a task with some options. -/
def runTask (files : FileAccess m) (task : Task) (options : Options) : m Outcome := do
  if options.help then pure ⟨0, "", task.manual⟩
  else if options.schema.isEmpty then pure (failure "--schema is required\n")
  else
    match ← loadSettings format files options with
    | .error complaint => pure (failure complaint)
    | .ok settings => do
      match ← loadSchema format files options.schema with
      | (.error fault, diagnostics) =>
        pure (failure (Diagnostic.print mark diagnostics ++ errorLine fault.message))
      | (.ok schema, diagnostics) => do
        let outcome ← perform format files task options settings schema
        pure { outcome with err := Diagnostic.print mark diagnostics ++ outcome.err }

/-- Runs the program on its arguments. -/
def runWith (files : FileAccess m) : List String → m Outcome
  | [] => pure (failure usage)
  | command :: args =>
    if Options.isHelp command || command = "help" then pure ⟨0, "", manual⟩
    else if command = "--version" ∨ command = "-V" then pure ⟨0, program ++ " " ++ version ++ "\n", ""⟩
    else
      match Task.ofName? command with
      | none => pure (failure ("Unknown command: " ++ command ++ "\n" ++ usage))
      | some task =>
        match Options.none.parse args with
        | .error complaint => pure (failure complaint)
        | .ok options => runTask format files task options

end Run

end Command

end UnalignedPer
