import UnalignedPer.Fault

/-!
# Presence bits

While the fields of a sequence are visited in order, a `Presence` says which bit, if any, tells whether a field is there. The
standard fields that may be absent take the bits of one run in order. In an extensible sequence the first field past the
standard ones calls for the extension block; from then on every field takes a bit of the run in that block and its content
is an open type.
-/

namespace UnalignedPer

/-- The bit positions from `start` up to `stop`. -/
structure BitRange where
  /-- The first position. -/
  start : Nat
  /-- The position after the last one. -/
  stop : Nat
  deriving DecidableEq, Repr, Inhabited

namespace BitRange

/-- Whether the range holds no position. -/
def isEmpty (r : BitRange) : Bool :=
  r.start ≥ r.stop

/-- The number of positions, as a word. -/
def size (r : BitRange) : UInt64 :=
  UInt64.ofNat r.stop - UInt64.ofNat r.start

end BitRange

/-- Which fields take a bit. -/
inductive SlotRule where
  /-- Optional fields take a bit. -/
  | optionalFields
  /-- Optional fields take a bit, and extensions follow the standard fields. -/
  | standardFields
  /-- Every field takes a bit, and its content is an open type. -/
  | everyField
  deriving DecidableEq, Repr, Inhabited

/-- What is to be done about a field. -/
inductive SlotStep where
  /-- The field is always there. -/
  | unmarked
  /-- The bit at a position tells whether the field is there. -/
  | marked (position : Nat) (openType : Bool)
  /-- The field lies past the run of an extension block and is absent. -/
  | absent
  /-- The extension block comes first; then the field is to be visited again. -/
  | openExtensions
  deriving DecidableEq, Repr, Inhabited

/-- The presence bits of one sequence. -/
structure Presence where
  /-- Which fields take a bit. -/
  rule : SlotRule
  /-- The bits not taken yet. -/
  ahead : BitRange
  /-- The first bit of the run. -/
  first : Nat
  /-- The number of standard fields still to come. -/
  standardLeft : Nat
  /-- The number of extension fields known to the type. -/
  extensions : Nat
  /-- Where the extension block starts, once it is open. -/
  header : Option Nat
  /-- Whether a field past the run is absent rather than a fault. -/
  lenient : Bool
  deriving DecidableEq, Repr, Inhabited

namespace Presence

/-- A run of bits for the optional fields. -/
def ofOptional (run : BitRange) : Presence :=
  ⟨.optionalFields, run, run.start, 0, 0, none, false⟩

/-- A run of bits for every field. -/
def ofEvery (run : BitRange) (lenient : Bool) : Presence :=
  ⟨.everyField, run, run.start, 0, 0, none, lenient⟩

/-- A run of bits for the optional ones of some standard fields, which extensions follow. -/
def ofStandard (run : BitRange) (standard extensions : Nat) : Presence :=
  ⟨.standardFields, run, run.start, standard, extensions, none, false⟩

/-- The whole run, bits taken included. -/
def reserved (p : Presence) : BitRange :=
  ⟨p.first, p.ahead.stop⟩

/-- Takes the next bit. -/
def takeBit (p : Presence) (openType : Bool) : Except Fault SlotStep × Presence :=
  (.ok (.marked p.ahead.start openType), { p with ahead := { p.ahead with start := p.ahead.start + 1 } })

/-- Visits a field of which only the optional ones take a bit. -/
def visitStandard (p : Presence) (optional : Bool) : Except Fault SlotStep × Presence :=
  if !optional then (.ok .unmarked, p)
  else if p.ahead.isEmpty then (.error .presenceExhausted, p)
  else p.takeBit false

/-- Visits a field that takes a bit in any case. -/
def visitExtension (p : Presence) : Except Fault SlotStep × Presence :=
  if p.ahead.isEmpty then (if p.lenient then .ok .absent else .error .presenceExhausted, p) else p.takeBit true

/-- Visits the next field: what to do about it, and the bits after it. -/
def visit (p : Presence) (optional : Bool) : Except Fault SlotStep × Presence :=
  match p.rule with
  | .everyField => p.visitExtension
  | .optionalFields => p.visitStandard optional
  | .standardFields =>
    if p.standardLeft = 0 then (if p.extensions = 0 then .error .presenceExhausted else .ok .openExtensions, p)
    else { p with standardLeft := p.standardLeft - 1 }.visitStandard optional

/-- Goes on to the run of an extension block that starts at `header`. -/
def enterExtensions (p : Presence) (header : Nat) (run : BitRange) (lenient : Bool) : Presence :=
  { p with rule := .everyField, ahead := run, first := run.start, header := some header, lenient := lenient }

end Presence

end UnalignedPer
