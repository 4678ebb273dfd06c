import UnalignedPer.Octets

/-!
# Octets in hexadecimal

Each octet is two digits. Digits are read in either case.
-/

namespace UnalignedPer

namespace Octets

/-- The two digits of an octet. -/
def hexPair (octet : UInt8) : List Char :=
  [Nat.digitChar (octet.toNat / 16), Nat.digitChar (octet.toNat % 16)]

/-- Octets in lower-case digits. -/
def toHex (data : Octets) : String :=
  String.ofList (data.toList.flatMap hexPair)

/-- Octets in upper-case digits. -/
def toUpperHex (data : Octets) : String :=
  String.ofList (data.toList.flatMap fun octet => (hexPair octet).map Char.toUpper)

/-- The value of a hexadecimal digit. -/
def nibble? (c : Char) : Option UInt8 :=
  if '0' ≤ c ∧ c ≤ '9' then some (UInt8.ofNat (c.toNat - 48))
  else if 'a' ≤ c ∧ c ≤ 'f' then some (UInt8.ofNat (c.toNat - 87))
  else if 'A' ≤ c ∧ c ≤ 'F' then some (UInt8.ofNat (c.toNat - 55))
  else none

/-- The octets that pairs of digits spell, after those read so far. -/
def ofHexList? (sofar : Octets) : List Char → Option Octets
  | [] => some sofar
  | [_] => none
  | high :: low :: rest =>
    match nibble? high, nibble? low with
    | some high, some low => ofHexList? (sofar.push (high <<< 4 ||| low)) rest
    | _, _ => none

/-- The octets that a text of hexadecimal digits spells. -/
def ofHex? (text : String) : Option Octets :=
  ofHexList? #[] text.toList

end Octets

end UnalignedPer
