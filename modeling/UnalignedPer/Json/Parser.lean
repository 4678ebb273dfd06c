import UnalignedPer.Json

/-!
# Reading JSON

`Json.parse?` reads one document with blanks around it. Every reader takes the characters ahead and gives what it read and
the characters after it, or nothing when they do not fit. The number of characters of the document, `limit`, bounds the length
of a string and the depth of the reading.

The program reads its documents with it. The command line is stated over any reader (`Command.JsonFormat`), and what is proved of
it does not rest on this one.
-/

namespace UnalignedPer

namespace Json

/-- Whether a character may stand between tokens. -/
def isBlank (c : Char) : Bool :=
  c = ' ' || c = '\t' || c = '\n' || c = '\r'

/-- The characters after leading blanks. -/
def skipBlanks (cs : List Char) : List Char :=
  cs.dropWhile isBlank

/-- The value of a hexadecimal digit. -/
def hexValue? (c : Char) : Option Nat :=
  if '0' ≤ c ∧ c ≤ '9' then some (c.toNat - 48)
  else if 'a' ≤ c ∧ c ≤ 'f' then some (c.toNat - 87)
  else if 'A' ≤ c ∧ c ≤ 'F' then some (c.toNat - 55)
  else none

/-- Reads four hexadecimal digits. -/
def readCodeUnit : List Char → Option (Nat × List Char)
  | a :: b :: c :: d :: rest => do
    let a ← hexValue? a
    let b ← hexValue? b
    let c ← hexValue? c
    let d ← hexValue? d
    some (((a * 16 + b) * 16 + c) * 16 + d, rest)
  | _ => none

/-- The character that an escape letter stands for. -/
def escaped? (c : Char) : Option Char :=
  if c = '"' ∨ c = '\\' ∨ c = '/' then some c
  else if c = 'b' then some '\x08'
  else if c = 'f' then some '\x0c'
  else if c = 'n' then some '\n'
  else if c = 'r' then some '\r'
  else if c = 't' then some '\t'
  else none

/-- The character that stands for what is none. -/
def replacement : Char := '\uFFFD'

/-- The character of a code unit and, where it is the first half of a pair, of the escape after it. -/
def readScalar (unit : Nat) (rest : List Char) : Char × List Char :=
  if 0xD800 ≤ unit ∧ unit ≤ 0xDBFF then
    match rest with
    | '\\' :: 'u' :: more =>
      match readCodeUnit more with
      | some (low, after) =>
        if 0xDC00 ≤ low ∧ low ≤ 0xDFFF then
          (Char.ofNat (0x10000 + (unit - 0xD800) * 0x400 + (low - 0xDC00)), after)
        else (replacement, rest)
      | none => (replacement, rest)
    | _ => (replacement, rest)
  else if 0xDC00 ≤ unit ∧ unit ≤ 0xDFFF then (replacement, rest)
  else (Char.ofNat unit, rest)

/-- Reads the rest of a string after its opening quote; `sofar` holds the characters read, last first. -/
def readString : Nat → List Char → List Char → Option (String × List Char)
  | 0, _, _ => none
  | _ + 1, _, [] => none
  | fuel + 1, sofar, c :: rest =>
    if c = '"' then some (String.ofList sofar.reverse, rest)
    else if c = '\\' then
      match rest with
      | [] => none
      | e :: more =>
        if e = 'u' then
          match readCodeUnit more with
          | none => none
          | some (unit, after) =>
            let (scalar, after) := readScalar unit after
            readString fuel (scalar :: sofar) after
        else
          match escaped? e with
          | none => none
          | some plain => readString fuel (plain :: sofar) more
    else if c.toNat < 0x20 then none
    else readString fuel (c :: sofar) rest

/-- The number that some decimal digits spell. -/
def digitsValue (digits : List Char) : Nat :=
  digits.foldl (fun value c => value * 10 + (c.toNat - 48)) 0

/-- Splits off the decimal digits at the front. -/
def takeDigits (cs : List Char) : List Char × List Char :=
  cs.span (fun c => '0' ≤ c && c ≤ '9')

/-- Reads the fraction of a number: its digits, none when there is no point. -/
def readFraction : List Char → Option (List Char × List Char)
  | '.' :: rest =>
    let (digits, after) := takeDigits rest
    if digits.isEmpty then none else some (digits, after)
  | cs => some ([], cs)

/-- Reads the power of ten of a number, zero when there is none. -/
def readExponent : List Char → Option (Int × List Char)
  | c :: rest =>
    if c = 'e' ∨ c = 'E' then
      let (negative, rest) :=
        match rest with
        | '-' :: more => (true, more)
        | '+' :: more => (false, more)
        | _ => (false, rest)
      let (digits, after) := takeDigits rest
      if digits.isEmpty then none
      else some ((if negative then -(digitsValue digits : Int) else digitsValue digits), after)
    else some (0, c :: rest)
  | [] => some (0, [])

/-- Reads a number. Its whole part has no leading zero. -/
def readNumber (cs : List Char) : Option (Decimal × List Char) := do
  let (negative, cs) := match cs with
    | '-' :: rest => (true, rest)
    | _ => (false, cs)
  let (whole, rest) := takeDigits cs
  if whole.isEmpty || (whole.length > 1 && whole.head? == some '0') then none
  else
    let (fraction, rest) ← readFraction rest
    let (power, rest) ← readExponent rest
    let magnitude : Int := digitsValue (whole ++ fraction)
    some (⟨if negative then -magnitude else magnitude, power - fraction.length⟩, rest)

/-- Reads a fixed word. -/
def readWord (word : List Char) (value : Json) (cs : List Char) : Option (Json × List Char) :=
  if word.isPrefixOf cs then some (value, cs.drop word.length) else none

mutual

/-- Reads a value; no blanks stand before it. -/
def readValue (limit : Nat) : Nat → List Char → Option (Json × List Char)
  | 0, _ => none
  | _ + 1, [] => none
  | fuel + 1, c :: rest =>
    if c = 'n' then readWord ['n', 'u', 'l', 'l'] .null (c :: rest)
    else if c = 't' then readWord ['t', 'r', 'u', 'e'] (.bool true) (c :: rest)
    else if c = 'f' then readWord ['f', 'a', 'l', 's', 'e'] (.bool false) (c :: rest)
    else if c = '"' then (readString limit [] rest).map fun (text, after) => (.str text, after)
    else if c = '[' then
      match skipBlanks rest with
      | ']' :: after => some (.arr [], after)
      | items => (readItems limit fuel items).map fun (items, after) => (.arr items, after)
    else if c = '\x7b' then
      match skipBlanks rest with
      | '\x7d' :: after => some (.obj [], after)
      | members => (readMembers limit fuel members).map fun (members, after) => (ofMembers members, after)
    else (readNumber (c :: rest)).map fun (value, after) => (.number value, after)

/-- Reads the items of an array up to its closing bracket. -/
def readItems (limit : Nat) : Nat → List Char → Option (List Json × List Char)
  | 0, _ => none
  | fuel + 1, cs =>
    match readValue limit fuel cs with
    | none => none
    | some (item, rest) =>
      match skipBlanks rest with
      | ']' :: after => some ([item], after)
      | ',' :: more => (readItems limit fuel (skipBlanks more)).map fun (items, after) => (item :: items, after)
      | _ => none

/-- Reads the members of an object up to its closing brace. -/
def readMembers (limit : Nat) : Nat → List Char → Option (List (String × Json) × List Char)
  | 0, _ => none
  | fuel + 1, cs =>
    match cs with
    | '"' :: text =>
      match readString limit [] text with
      | none => none
      | some (key, rest) =>
        match skipBlanks rest with
        | ':' :: more =>
          match readValue limit fuel (skipBlanks more) with
          | none => none
          | some (value, rest) =>
            match skipBlanks rest with
            | '\x7d' :: after => some ([(key, value)], after)
            | ',' :: more =>
              (readMembers limit fuel (skipBlanks more)).map fun (members, after) => ((key, value) :: members, after)
            | _ => none
        | _ => none
    | _ => none

end

/-- Reads a document; nothing but blanks may stand around it. -/
def parse? (text : String) : Option Json :=
  let cs := skipBlanks text.toList
  let limit := cs.length + 1
  match readValue limit limit cs with
  | some (json, rest) => if (skipBlanks rest).isEmpty then some json else none
  | none => none

end Json

end UnalignedPer
