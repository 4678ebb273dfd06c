import UnalignedPer.Json

/-!
# Settings of the codec

How deep containers may nest, how long a decoded content may be, and how much of the work is traced. Settings are read from a
JSON object; keys that are unknown and values of the wrong type are passed over.
-/

namespace UnalignedPer

/-- How much of the work is traced. -/
inductive TraceLevel where
  /-- Nothing. -/
  | off
  /-- Containers. -/
  | basic
  /-- Containers, extension blocks and open types. -/
  | verbose
  deriving DecidableEq, Repr, Inhabited

namespace TraceLevel

/-- The name of a level. -/
def name : TraceLevel → String
  | off => "off"
  | basic => "basic"
  | verbose => "verbose"

/-- The level of a name. -/
def ofName? (name : String) : Option TraceLevel :=
  if name = "off" then some off
  else if name = "basic" then some basic
  else if name = "verbose" then some verbose
  else none

/-- Whether what is traced at a level shows under the chosen one. -/
def shows (chosen level : TraceLevel) : Bool :=
  match chosen, level with
  | off, _ => false
  | basic, verbose => false
  | _, _ => true

end TraceLevel

/-- The settings of a codec. -/
structure Settings where
  /-- The greatest number of containers inside each other. -/
  maxDepth : Nat
  /-- The greatest number of units of a decoded content. -/
  maxLength : UInt64
  /-- How much of the work is traced. -/
  trace : TraceLevel
  deriving DecidableEq, Repr, Inhabited

namespace Settings

/-- The settings where nothing else is chosen. -/
def standard : Settings :=
  ⟨64, 16777216, .off⟩

/-- The greatest depth that can be chosen. -/
def depthLimit : Nat := 4294967295

/-- Takes over the trace level. A name that is none of the levels, in any case of letters, stands for the basic one. -/
def applyTrace (settings : Settings) (members : List (String × Json)) : Bool × Settings :=
  match (Json.member? "trace" members).bind Json.str? with
  | none => (false, settings)
  | some name =>
    let level := (TraceLevel.ofName? (name.map Char.toLower)).getD .basic
    (level ≠ settings.trace, { settings with trace := level })

/-- Takes over the depth, if it is positive and differs from the current one; it is cut to the greatest that can be chosen. -/
def applyDepth (settings : Settings) (limits : List (String × Json)) : Bool × Settings :=
  match (Json.member? "maxNestingDepth" limits).bind Json.int64? with
  | none => (false, settings)
  | some depth =>
    if 0 < depth.toInt ∧ depth.toInt.toNat ≠ settings.maxDepth then
      (true, { settings with maxDepth := min depth.toInt.toNat depthLimit })
    else (false, settings)

/-- Takes over the length, if it is positive and differs from the current one. -/
def applyLength (settings : Settings) (limits : List (String × Json)) : Bool × Settings :=
  match (Json.member? "maxDecodedLength" limits).bind Json.int64? with
  | none => (false, settings)
  | some length =>
    if 0 < length.toInt ∧ length.toUInt64 ≠ settings.maxLength then
      (true, { settings with maxLength := length.toUInt64 })
    else (false, settings)

/-- Takes over both limits. -/
def applyLimits (settings : Settings) (members : List (String × Json)) : Bool × Settings :=
  match (Json.member? "limits" members).bind Json.obj? with
  | none => (false, settings)
  | some limits =>
    let (depthChanged, settings) := settings.applyDepth limits
    let (lengthChanged, settings) := settings.applyLength limits
    (depthChanged || lengthChanged, settings)

/-- Takes over what a document chooses; tells whether it was taken for a change. -/
def apply (settings : Settings) (document : Json) : Bool × Settings :=
  match document with
  | .obj members =>
    let (traceChanged, settings) := settings.applyTrace members
    let (limitsChanged, settings) := settings.applyLimits members
    (limitsChanged || traceChanged, settings)
  | _ => (false, settings)

end Settings

end UnalignedPer
