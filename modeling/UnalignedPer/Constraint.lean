import UnalignedPer.Bounds
import UnalignedPer.Text.Alphabet

/-!
# Constraints

What the packed form of a type depends on: its kind, the bounds of a number or a size, how many members the type has and
where its extension marker stands. The members before the marker are the standard ones, those after it the extensions.
-/

namespace UnalignedPer

/-- The members of a type: its fields, alternatives or items. -/
structure Members where
  /-- How many there are, extensions included. -/
  count : Nat
  /-- How many stand before the extension marker; missing where there is no marker or nothing stands before it. -/
  root : Option Nat
  deriving DecidableEq, Repr, Inhabited

namespace Members

/-- The members of a type of which the first `standard` stand before the marker. -/
def ofStandard (count : Nat) (standard : Option Nat) : Members :=
  ⟨count, standard.filter (· ≠ 0)⟩

/-- The members of a type where the marker stands after the one of index `last`. They are counted in a word. -/
def ofLast (count : UInt64) (last : Option UInt64) : Members :=
  ⟨count.toNat, last.map fun index => (index + 1).toNat⟩

/-- The index of the last member before the marker, as a word. -/
def last (members : Members) : Option UInt64 :=
  members.root.map fun n => UInt64.ofNat n - 1

end Members

/-- A type without parts. -/
inductive SimpleType where
  /-- The type of one value. -/
  | null
  /-- The type of truth values. -/
  | boolean
  /-- The numbers of a range. -/
  | integer (range : Bounds Int64)
  /-- The octet strings of some sizes. -/
  | octetString (size : Bounds Int64)
  /-- The bit strings of some sizes. -/
  | bitString (size : Bounds Int64)
  /-- The texts of some sizes over an alphabet. -/
  | text (alphabet : Alphabet) (size : Bounds Int64)
  deriving DecidableEq, Repr, Inhabited

/-- The form of a type without its parts. -/
inductive Shape where
  /-- A type without parts. -/
  | simple (type : SimpleType)
  /-- One of some items. -/
  | enumerated (items : Members)
  /-- Some fields, of which `optionalFields` standard ones may be absent. -/
  | sequence (fields : Members) (optionalFields : Nat)
  /-- The lists of some sizes. -/
  | sequenceOf (size : Bounds Int64)
  /-- One of some alternatives. -/
  | choice (alternatives : Members)
  deriving DecidableEq, Repr, Inhabited

/-- The kind of a type or value. -/
inductive Kind where
  /-- The type of one value. -/
  | null
  /-- Truth values. -/
  | boolean
  /-- Numbers. -/
  | integer
  /-- Named items. -/
  | enumerated
  /-- Octet strings. -/
  | octetString
  /-- Bit strings. -/
  | bitString
  /-- Character strings. -/
  | text
  /-- Fields. -/
  | sequence
  /-- Lists. -/
  | sequenceOf
  /-- Alternatives. -/
  | choice
  deriving DecidableEq, Repr, Inhabited

/-- The name of a kind. -/
def Kind.name : Kind → String
  | null => "null"
  | boolean => "boolean"
  | integer => "integer"
  | enumerated => "enumerated"
  | octetString => "octet-string"
  | bitString => "bit-string"
  | text => "string"
  | sequence => "sequence"
  | sequenceOf => "sequence-of"
  | choice => "choice"

/-- What the packed form of a type depends on. -/
structure Constraint where
  /-- The form of the type. -/
  shape : Shape
  /-- Whether the type has an extension marker. -/
  extensible : Bool
  deriving DecidableEq, Repr, Inhabited

namespace SimpleType

/-- The kind of the type. -/
def kind : SimpleType → Kind
  | null => .null
  | boolean => .boolean
  | integer _ => .integer
  | octetString _ => .octetString
  | bitString _ => .bitString
  | text .. => .text

/-- The bounds of the number or the size. -/
def bounds : SimpleType → Bounds Int64
  | null => .free
  | boolean => .free
  | integer range => range
  | octetString size => size
  | bitString size => size
  | text _ size => size

end SimpleType

namespace Constraint

/-- The kind of the type. -/
def kind (c : Constraint) : Kind :=
  match c.shape with
  | .simple type => type.kind
  | .enumerated _ => .enumerated
  | .sequence .. => .sequence
  | .sequenceOf _ => .sequenceOf
  | .choice _ => .choice

/-- The bounds of the number or the size. -/
def bounds (c : Constraint) : Bounds Int64 :=
  match c.shape with
  | .simple type => type.bounds
  | .sequenceOf size => size
  | _ => .free

/-- The members, none where the type has none. -/
def members (c : Constraint) : Members :=
  match c.shape with
  | .enumerated items => items
  | .sequence fields _ => fields
  | .choice alternatives => alternatives
  | _ => ⟨0, none⟩

/-- The number of standard fields that may be absent. -/
def optionalFields (c : Constraint) : Nat :=
  match c.shape with
  | .sequence _ count => count
  | _ => 0

/-- The alphabet of a text, that of all texts for other types. -/
def alphabet (c : Constraint) : Alphabet :=
  match c.shape with
  | .simple (.text alphabet _) => alphabet
  | _ => .utf8

/-- The number of members, extensions included. -/
def count (c : Constraint) : Nat :=
  c.members.count

/-- The number of members before the extension marker; all of them where there is no marker. -/
def standardCount (c : Constraint) : Nat :=
  if c.extensible then min (c.members.root.getD 0) c.count else c.count

/-- The number of members after the extension marker. -/
def extensionCount (c : Constraint) : Nat :=
  c.count - c.standardCount

/-- A bound as a size: a negative one counts as zero. -/
def sizeBound (bound : Int64) : Nat :=
  bound.toInt.toNat

/-- The bounds as bounds of a size. -/
def size (c : Constraint) : Bounds Nat :=
  ⟨c.bounds.lower.map sizeBound, c.bounds.upper.map sizeBound⟩

/-- The bounds in words, nothing where there are none. -/
def boundsText (c : Constraint) : String :=
  if c.bounds.isBounded then
    " (" ++ (if c.kind = .integer then "" else "SIZE ") ++
      (match c.bounds.lower with
       | some lower => toString lower
       | none => "MIN") ++ ".." ++
      (match c.bounds.upper with
       | some upper => toString upper
       | none => "MAX") ++ ")"
  else ""

/-- The members and the extension marker in words. -/
def membersText (c : Constraint) : String :=
  match c.shape with
  | .simple _ => if c.extensible then " ..." else ""
  | .sequenceOf _ => if c.extensible then " ..." else ""
  | _ =>
    " \x7b" ++ toString c.standardCount ++
      (if c.extensible then ", ..., " ++ toString c.extensionCount else "") ++ "\x7d"

/-- The constraint in words. -/
def text (c : Constraint) : String :=
  (match c.shape with
   | .simple (.text alphabet _) => alphabet.name
   | _ => c.kind.name) ++ c.boundsText ++ c.membersText

/-- The null type. -/
def null : Constraint :=
  ⟨.simple .null, false⟩

/-- The type of truth values. -/
def boolean : Constraint :=
  ⟨.simple .boolean, false⟩

/-- The numbers of a range. -/
def integer (range : Bounds Int64) (extensible : Bool) : Constraint :=
  ⟨.simple (.integer range), extensible⟩

/-- The octet strings of some sizes. -/
def octetString (size : Bounds Int64) (extensible : Bool) : Constraint :=
  ⟨.simple (.octetString size), extensible⟩

/-- The bit strings of some sizes. -/
def bitString (size : Bounds Int64) (extensible : Bool) : Constraint :=
  ⟨.simple (.bitString size), extensible⟩

/-- The texts of some sizes over an alphabet. -/
def characterString (alphabet : Alphabet) (size : Bounds Int64) (extensible : Bool) : Constraint :=
  ⟨.simple (.text alphabet size), extensible⟩

/-- Some items; the marker stands after the one of index `last`. -/
def enumerated (count : UInt64) (last : Option UInt64) : Constraint :=
  ⟨.enumerated (.ofLast count last), last.isSome⟩

/-- Some fields; the marker stands after the one of index `last`. -/
def sequence (count optionalFields : UInt64) (last : Option UInt64) : Constraint :=
  ⟨.sequence (.ofLast count last) optionalFields.toNat, last.isSome⟩

/-- The lists of some sizes. -/
def sequenceOf (size : Bounds Int64) (extensible : Bool) : Constraint :=
  ⟨.sequenceOf size, extensible⟩

/-- Some alternatives; the marker stands after the one of index `last`. -/
def choice (count : UInt64) (last : Option UInt64) : Constraint :=
  ⟨.choice (.ofLast count last), last.isSome⟩

end Constraint

end UnalignedPer
