import UnalignedPer.BitString
import UnalignedPer.Constraint
import UnalignedPer.Octets.Hex

/-!
# Values

A value of any type. The fields of a sequence, the elements of a list and the value of a choice may be missing: then there is
nothing in their place. `Value.same` compares values, `Value.text` shows them in value notation.
-/

namespace UnalignedPer

/-- A value. -/
inductive Value where
  /-- The value of the null type. -/
  | null
  /-- A truth value. -/
  | boolean (value : Bool)
  /-- A number. -/
  | integer (value : Int64)
  /-- The item of an index. -/
  | enumerated (index : UInt64)
  /-- Some octets. -/
  | octets (data : Octets)
  /-- Some bits. -/
  | bits (run : BitString)
  /-- A text by its octets. -/
  | text (data : Octets)
  /-- The values of fields. -/
  | sequence (fields : List (Option Value))
  /-- The elements of a list. -/
  | sequenceOf (elements : List (Option Value))
  /-- The alternative of an index. -/
  | choice (index : UInt64) (payload : Option Value)
  deriving Repr, Inhabited

namespace Value

/-- The kind of the value. -/
def kind : Value → Kind
  | null => .null
  | boolean _ => .boolean
  | integer _ => .integer
  | enumerated _ => .enumerated
  | octets _ => .octetString
  | bits _ => .bitString
  | text _ => .text
  | sequence _ => .sequence
  | sequenceOf _ => .sequenceOf
  | choice .. => .choice

mutual

/-- Whether two values are the same. Of bit strings the bits count, not what lies in the octets past them. -/
def same : Value → Value → Bool
  | null, null => true
  | boolean a, boolean b => a == b
  | integer a, integer b => a == b
  | enumerated a, enumerated b => a == b
  | octets a, octets b => a == b
  | bits a, bits b => a.same b
  | text a, text b => a == b
  | sequence a, sequence b => sameList a b
  | sequenceOf a, sequenceOf b => sameList a b
  | choice i a, choice j b => i == j && sameOption a b
  | _, _ => false

/-- Whether two places are both empty or hold the same value. -/
def sameOption : Option Value → Option Value → Bool
  | none, none => true
  | some a, some b => same a b
  | _, _ => false

/-- Whether two lists hold the same values in the same order. -/
def sameList : List (Option Value) → List (Option Value) → Bool
  | [], [] => true
  | a :: as, b :: bs => sameOption a b && sameList as bs
  | _, _ => false

end

/-- A digit of base eight. -/
def octalDigit (n : Nat) : Char :=
  Nat.digitChar (n % 8)

/-- An octet of a text as it is shown: printable ones stand for themselves. -/
def escapeOctet (octet : UInt8) : List Char :=
  if octet = 0x5C then ['\\', '\\']
  else if octet = 0x22 then ['\\', '"']
  else if octet = 0x09 then ['\\', 't']
  else if octet = 0x0A then ['\\', 'n']
  else if 0x20 ≤ octet ∧ octet ≤ 0x7E then [Char.ofNat octet.toNat]
  else ['\\', octalDigit (octet.toNat / 64), octalDigit (octet.toNat / 8), octalDigit octet.toNat]

/-- A bit as it is shown. -/
def bitChar (bit : Bool) : Char :=
  if bit then '1' else '0'

mutual

/-- The value in value notation. -/
def notate : Value → String
  | null => "NULL"
  | boolean value => if value then "TRUE" else "FALSE"
  | integer value => toString value
  | enumerated index => "#" ++ toString index
  | octets data => "'" ++ Octets.toUpperHex data ++ "'H"
  | bits run => "'" ++ String.ofList ((Octets.bitsFrom run.octets 0 run.length.toNat).map bitChar) ++ "'B"
  | text data => "\"" ++ String.ofList (data.toList.flatMap escapeOctet) ++ "\""
  | sequence fields => "\x7b" ++ String.intercalate ", " (notateList [] fields) ++ "\x7d"
  | sequenceOf elements => "[" ++ String.intercalate ", " (notateList [] elements) ++ "]"
  | choice index payload => toString index ++ ": " ++ notateOption payload

/-- The value in a place, or a mark that there is none. -/
def notateOption : Option Value → String
  | none => "<absent>"
  | some value => notate value

/-- The values of a list, after those shown so far, last first. -/
def notateList (sofar : List String) : List (Option Value) → List String
  | [] => sofar.reverse
  | value :: rest => notateList (notateOption value :: sofar) rest

end

end Value

end UnalignedPer
