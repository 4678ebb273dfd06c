/-!
# Alphabets

The types of character strings and the characters each allows. The characters of a restricted type have a fixed width;
those of a UTF8String have none.
-/

namespace UnalignedPer

/-- The type of a character string. -/
inductive Alphabet where
  /-- Any text. -/
  | utf8
  /-- Digits and the space. -/
  | numeric
  /-- Letters, digits, the space and some punctuation. -/
  | printable
  /-- The seven-bit characters. -/
  | ia5
  /-- The seven-bit characters that are no controls. -/
  | visible
  deriving DecidableEq, Repr, Inhabited

namespace Alphabet

/-- The name of the string type. -/
def name : Alphabet → String
  | utf8 => "UTF8String"
  | numeric => "NumericString"
  | printable => "PrintableString"
  | ia5 => "IA5String"
  | visible => "VisibleString"

/-- The bits of a character, zero where they are not fixed. -/
def bitsPerCharacter : Alphabet → Nat
  | utf8 => 0
  | numeric => 4
  | printable => 7
  | ia5 => 7
  | visible => 7

/-- The space and the digits in the order of their packed codes. -/
def digits : List UInt8 :=
  [0x20, 0x30, 0x31, 0x32, 0x33, 0x34, 0x35, 0x36, 0x37, 0x38, 0x39]

/-- The characters of a PrintableString besides letters and digits. -/
def punctuation : List UInt8 :=
  [0x20, 0x27, 0x28, 0x29, 0x2B, 0x2C, 0x2D, 0x2E, 0x2F, 0x3A, 0x3D, 0x3F]

/-- Whether a code is a letter or a digit. -/
def isAlphanumeric (code : UInt32) : Bool :=
  (0x41 ≤ code && code ≤ 0x5A) || (0x61 ≤ code && code ≤ 0x7A) || (0x30 ≤ code && code ≤ 0x39)

/-- Whether a code belongs to the alphabet. Punctuation is looked up by the low octet of the code. -/
def permits (alphabet : Alphabet) (code : UInt32) : Bool :=
  match alphabet with
  | utf8 => code ≤ 0x10FFFF
  | numeric => code = 0x20 || (0x30 ≤ code && code ≤ 0x39)
  | printable => isAlphanumeric code || punctuation.contains code.toUInt8
  | ia5 => code < 0x80
  | visible => 0x20 ≤ code && code ≤ 0x7E

/-- The packed code of a character of the alphabet. -/
def packedCode (alphabet : Alphabet) (octet : UInt8) : UInt64 :=
  match alphabet with
  | numeric => UInt64.ofNat (digits.idxOf octet)
  | _ => octet.toUInt64

/-- The character of a packed code, none for a code without one. -/
def ofPackedCode? (alphabet : Alphabet) (code : UInt64) : Option UInt8 :=
  match alphabet with
  | numeric => digits[code.toNat]?
  | _ => some code.toUInt8

end Alphabet

end UnalignedPer
