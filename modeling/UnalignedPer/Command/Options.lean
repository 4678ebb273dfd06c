/-!
# Arguments

The tasks of the command line, the options that they take, and the texts that explain them.
-/

namespace UnalignedPer

namespace Command

/-- The name of the program. -/
def program : String := "asn1uper"

/-- The mark at the front of the lines of the program. -/
def mark : String := "[asn1uper] "

/-- The version of the program. -/
def version : String := "0.1.0"

/-- How the program is called. -/
def usage : String :=
  "Usage: asn1uper <encode|decode|types> --schema <file> [options]\n" ++
  "Try: asn1uper --help\n"

/-- The description of the program. -/
def manual : String :=
  "NAME\n" ++
  "  asn1uper - ASN.1 Unaligned Packed Encoding Rules (ITU-T X.691) codec\n\n" ++
  "SYNOPSIS\n" ++
  "  asn1uper encode --schema <file> --type <name> --value <file|->\n" ++
  "  asn1uper decode --schema <file> --type <name> --hex <hex> [--bits <N>]\n" ++
  "  asn1uper types --schema <file>\n" ++
  "  asn1uper --help | --version\n\n" ++
  "DESCRIPTION\n" ++
  "  asn1uper reads type definitions from a JSON schema document and converts\n" ++
  "  between JSON values and their UPER encoding.\n\n" ++
  "COMMANDS\n" ++
  "  encode  Encode a JSON value; prints the bit length and the hex encoding.\n" ++
  "  decode  Decode a hex encoding; prints the JSON value.\n" ++
  "  types   List the schema's types with their constraint summaries.\n\n" ++
  "COMMON OPTIONS\n" ++
  "  --schema <file>\n" ++
  "      JSON schema document. Required for all commands.\n" ++
  "  --config <file>\n" ++
  "      JSON codec settings: \x7b\"trace\": ..., \"limits\": \x7b\"maxNestingDepth\": N,\n" ++
  "      \"maxDecodedLength\": N\x7d\x7d.\n" ++
  "  --trace <off|basic|verbose>\n" ++
  "      Trace codec events to stderr. Overrides the config file.\n" ++
  "  --help, -h\n" ++
  "      Print this help text. With a command, prints command-focused guidance.\n" ++
  "  --version, -V\n" ++
  "      Print the version and exit.\n\n" ++
  "ENCODE/DECODE OPTIONS\n" ++
  "  --type <name>\n" ++
  "      Schema type to encode or decode.\n" ++
  "  --value <file|->\n" ++
  "      JSON value to encode; '-' reads stdin.\n" ++
  "  --hex <hex>\n" ++
  "      Encoding to decode, two hex digits per octet.\n" ++
  "  --bits <N>\n" ++
  "      Meaningful bits of the encoding (default: all octets).\n\n" ++
  "EXAMPLES\n" ++
  "  asn1uper types --schema person.json\n" ++
  "  echo '\x7b\"ghi\": 1337\x7d' | asn1uper encode --schema basic.json --type Basic --value -\n" ++
  "  asn1uper decode --schema basic.json --type Basic --hex 80814e40 --bits 26\n\n" ++
  "EXIT STATUS\n" ++
  "  0 on success, 1 on invalid CLI usage, schema or value errors, and codec failures.\n"

/-- What the program does. -/
inductive Task where
  /-- Turns a value into a message. -/
  | encode
  /-- Turns a message into a value. -/
  | decode
  /-- Lists the types. -/
  | types
  deriving DecidableEq, Repr, Inhabited

namespace Task

/-- The name of a task. -/
def name : Task → String
  | encode => "encode"
  | decode => "decode"
  | types => "types"

/-- The task of a name. -/
def ofName? (name : String) : Option Task :=
  if name = "encode" then some encode
  else if name = "decode" then some decode
  else if name = "types" then some types
  else none

/-- What a task needs and prints. -/
def guidance : Task → String
  | encode => "  Requires --type and --value. Prints 'bits: N' and 'hex: ..' to stdout.\n"
  | decode => "  Requires --type and --hex. Honors --bits. Prints the JSON value to stdout.\n"
  | types => "  Prints one 'name: summary' line per type, sorted by name.\n"

/-- The description of the program with that of a task. -/
def manual (task : Task) : String :=
  Command.manual ++ "\nCOMMAND FOCUS (" ++ task.name ++ ")\n" ++ task.guidance

end Task

/-- The options of a run. An option that is not given is empty. -/
structure Options where
  /-- The schema file. -/
  schema : String
  /-- The settings file. -/
  config : String
  /-- The name of the type. -/
  type : String
  /-- The value file. -/
  value : String
  /-- The message. -/
  hex : String
  /-- The number of bits of the message. -/
  bits : Option UInt64
  /-- The trace level that overrides the settings. -/
  trace : Option String
  /-- Whether help is asked for. -/
  help : Bool
  deriving DecidableEq, Repr, Inhabited

namespace Options

/-- No option is given. -/
def none : Options :=
  ⟨"", "", "", "", "", .none, .none, false⟩

/-- The number that a text of decimal digits spells, if it fits a word. -/
def word? (text : String) : Option UInt64 :=
  let cs := text.toList
  if cs.isEmpty || cs.any (fun c => c < '0' || '9' < c) then .none
  else
    let value := cs.foldl (fun value c => value * 10 + (c.toNat - 48)) 0
    if value < UInt64.size then some (UInt64.ofNat value) else .none

/-- Takes over the value of an option; gives nothing where there is no such option, and a complaint where the value is
malformed. -/
def set? (options : Options) (name value : String) : Option (Except String Options) :=
  match name with
  | "--schema" => some (.ok { options with schema := value })
  | "--config" => some (.ok { options with config := value })
  | "--trace" => some (.ok { options with trace := some value })
  | "--type" => some (.ok { options with type := value })
  | "--value" => some (.ok { options with value := value })
  | "--hex" => some (.ok { options with hex := value })
  | "--bits" =>
    match word? value with
    | some bits => some (.ok { options with bits := some bits })
    | .none => some (.error ("Invalid --bits value: " ++ value ++ "\n" ++ usage))
  | _ => .none

/-- Whether an argument asks for help. -/
def isHelp (arg : String) : Bool :=
  arg = "--help" || arg = "-h"

/-- Reads the options; the complaint is about the first argument that does not fit. -/
def parse (options : Options) : List String → Except String Options
  | [] => .ok options
  | arg :: rest =>
    if isHelp arg then parse { options with help := true } rest
    else
      match rest with
      | [] =>
        if (options.set? arg "").isSome then .error ("Missing value for " ++ arg ++ "\n" ++ usage)
        else .error ("Unknown option: " ++ arg ++ "\n" ++ usage)
      | value :: rest =>
        match options.set? arg value with
        | some (.ok options) => parse options rest
        | some (.error complaint) => .error complaint
        | .none => .error ("Unknown option: " ++ arg ++ "\n" ++ usage)

end Options

end Command

end UnalignedPer
