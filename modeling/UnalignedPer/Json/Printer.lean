import UnalignedPer.Json

/-!
# Printing JSON

`Json.compact` writes a document without blanks. `Json.pretty` gives every item and member a line of its own, indented by two
blanks per level; an empty array or object stays on one line. The program prints its documents so, while the command line is
stated over any printer (`Command.JsonFormat`).
-/

namespace UnalignedPer

namespace Json

/-- A lower-case hexadecimal digit. -/
def hexDigit (n : Nat) : Char :=
  Nat.digitChar n

/-- The escaped form of a character: quotes, backslashes and controls are escaped, all else stands for itself. -/
def escapeChar (c : Char) : List Char :=
  if c = '"' then ['\\', '"']
  else if c = '\\' then ['\\', '\\']
  else if c = '\t' then ['\\', 't']
  else if c = '\n' then ['\\', 'n']
  else if c = '\r' then ['\\', 'r']
  else if c.toNat < 0x20 then ['\\', 'u', '0', '0', hexDigit (c.toNat / 16), hexDigit (c.toNat % 16)]
  else [c]

/-- A string in quotes. -/
def quote (text : String) : String :=
  "\"" ++ String.ofList (text.toList.flatMap escapeChar) ++ "\""

/-- The digits of a number; a power of ten is written out only where it is not zero. -/
def numberText (value : Decimal) : String :=
  if value.exponent = 0 then toString value.mantissa else toString value.mantissa ++ "e" ++ toString value.exponent

/-- A line break and the indent of a level. -/
def lineBreak (level : Nat) : String :=
  "\n" ++ String.ofList (List.replicate (2 * level) ' ')

mutual

/-- A document without blanks. -/
def compact : Json → String
  | .null => "null"
  | .bool value => if value then "true" else "false"
  | .number value => numberText value
  | .str text => quote text
  | .arr items => "[" ++ String.intercalate "," (compactItems [] items) ++ "]"
  | .obj members => "\x7b" ++ String.intercalate "," (compactMembers [] members) ++ "\x7d"

/-- The items of an array without blanks, after those written so far, last first. -/
def compactItems (sofar : List String) : List Json → List String
  | [] => sofar.reverse
  | item :: rest => compactItems (compact item :: sofar) rest

/-- The members of an object without blanks, after those written so far, last first. -/
def compactMembers (sofar : List String) : List (String × Json) → List String
  | [] => sofar.reverse
  | (key, value) :: rest => compactMembers ((quote key ++ ":" ++ compact value) :: sofar) rest

end

mutual

/-- A document whose own lines are indented below `level`. -/
def prettyAt (level : Nat) : Json → String
  | .null => "null"
  | .bool value => if value then "true" else "false"
  | .number value => numberText value
  | .str text => quote text
  | .arr items =>
    if items.isEmpty then "[]"
    else
      "[" ++ lineBreak (level + 1) ++ String.intercalate ("," ++ lineBreak (level + 1)) (prettyItems (level + 1) [] items) ++
        lineBreak level ++ "]"
  | .obj members =>
    if members.isEmpty then "\x7b\x7d"
    else
      "\x7b" ++ lineBreak (level + 1) ++
        String.intercalate ("," ++ lineBreak (level + 1)) (prettyMembers (level + 1) [] members) ++ lineBreak level ++ "\x7d"

/-- The items of an array at a level, after those written so far, last first. -/
def prettyItems (level : Nat) (sofar : List String) : List Json → List String
  | [] => sofar.reverse
  | item :: rest => prettyItems level (prettyAt level item :: sofar) rest

/-- The members of an object at a level, after those written so far, last first. -/
def prettyMembers (level : Nat) (sofar : List String) : List (String × Json) → List String
  | [] => sofar.reverse
  | (key, value) :: rest => prettyMembers level ((quote key ++ ": " ++ prettyAt level value) :: sofar) rest

end

/-- A document over as many lines as it has items and members. -/
def pretty (json : Json) : String :=
  prettyAt 0 json

end Json

end UnalignedPer
