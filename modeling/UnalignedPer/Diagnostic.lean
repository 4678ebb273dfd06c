/-!
# Diagnostics

What is wrong with a document is reported node by node, so that one reading finds as many defects as it can. A defect that
makes the document useless is an error; a part that is passed over brings a warning.
-/

namespace UnalignedPer

/-- A node of a document. -/
structure Location where
  /-- The name of the document. -/
  file : String
  /-- The keys on the way to the node, each behind a slash. -/
  path : String
  deriving DecidableEq, Repr, Inhabited

namespace Location

/-- The node under a key. -/
def child (location : Location) (key : String) : Location :=
  { location with path := location.path ++ "/" ++ key }

/-- The node under an index. -/
def item (location : Location) (index : Nat) : Location :=
  location.child (toString index)

/-- The node in words; the whole document is a slash. -/
def text (location : Location) : String :=
  location.file ++ ":" ++ (if location.path.isEmpty then "/" else location.path)

end Location

/-- How bad a defect is. -/
inductive Severity where
  /-- Context for another diagnostic. -/
  | note
  /-- Something is passed over. -/
  | warning
  /-- The document is refused. -/
  | error
  deriving DecidableEq, Repr, Inhabited

/-- The word for a severity. -/
def Severity.name : Severity → String
  | note => "note"
  | warning => "warning"
  | error => "error"

/-- A defect of a document. -/
structure Diagnostic where
  /-- How bad it is. -/
  severity : Severity
  /-- Where it is. -/
  location : Location
  /-- What it is. -/
  text : String
  deriving DecidableEq, Repr, Inhabited

namespace Diagnostic

/-- The line of a diagnostic. -/
def line (d : Diagnostic) : String :=
  d.location.text ++ ": " ++ d.severity.name ++ ": " ++ d.text

/-- The number of errors. -/
def errorCount (diagnostics : Array Diagnostic) : Nat :=
  diagnostics.toList.countP (·.severity = .error)

/-- The lines of some diagnostics, each behind the same words. -/
def print (lead : String) (diagnostics : Array Diagnostic) : String :=
  String.join (diagnostics.toList.map fun d => lead ++ d.line ++ "\n")

end Diagnostic

/-- Why a document is of no use. -/
inductive DocumentFault where
  /-- The file cannot be read. -/
  | unreadable (what file : String)
  /-- The file holds no JSON, with the complaint about it. -/
  | malformed (what file complaint : String)
  /-- The text holds no JSON, with the complaint about it. -/
  | notJson (complaint : String)
  /-- The document has errors. -/
  | defective (what file : String) (errors : Nat)
  deriving DecidableEq, Repr, Inhabited

namespace DocumentFault

/-- The words for a file that is not there. -/
def missingText : String := "No such file or directory"

/-- The fault in words. -/
def message : DocumentFault → String
  | unreadable what file => "failed to read " ++ what ++ " '" ++ file ++ "': " ++ missingText
  | malformed what file complaint => "invalid JSON in " ++ what ++ " '" ++ file ++ "': " ++ complaint
  | notJson complaint => complaint
  | defective what file errors => what ++ " '" ++ file ++ "' has " ++ toString errors ++ " error(s)"

end DocumentFault

end UnalignedPer
