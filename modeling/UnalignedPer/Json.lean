/-!
# JSON documents

Schemas, values and settings are JSON documents. A number is an exact decimal. The members of an object stand in the order
of their keys, each key once.
-/

namespace UnalignedPer

/-- The number `mantissa · 10 ^ exponent`. -/
structure Decimal where
  /-- The digits with their sign. -/
  mantissa : Int
  /-- The power of ten. -/
  exponent : Int
  deriving DecidableEq, Repr, Inhabited

namespace Decimal

/-- A whole number. -/
def ofInt (value : Int) : Decimal :=
  ⟨value, 0⟩

/-- A power of ten. -/
def tenPower (exponent : Nat) : Int :=
  Int.pow 10 exponent

/-- The signed 64-bit number of the same value, where there is one. -/
def toInt64? (d : Decimal) : Option Int64 :=
  let inRange (value : Int) : Option Int64 :=
    if Int64.minValue.toInt ≤ value ∧ value ≤ Int64.maxValue.toInt then some (Int64.ofInt value) else none
  if d.mantissa = 0 then some 0
  else if d.exponent ≥ 0 then
    if d.exponent > 19 then none else inRange (d.mantissa * tenPower d.exponent.toNat)
  else
    let places := (-d.exponent).toNat
    if places > d.mantissa.natAbs.log2 + 1 then none
    else if d.mantissa % tenPower places = 0 then inRange (d.mantissa / tenPower places)
    else none

end Decimal

/-- A JSON document. -/
inductive Json where
  /-- The value `null`. -/
  | null
  /-- A boolean. -/
  | bool (value : Bool)
  /-- A number. -/
  | number (value : Decimal)
  /-- A string. -/
  | str (text : String)
  /-- An array. -/
  | arr (items : List Json)
  /-- An object, its members in the order of their keys. -/
  | obj (members : List (String × Json))
  deriving Inhabited, Repr

namespace Json

/-- A whole number. -/
def int (value : Int) : Json :=
  .number (.ofInt value)

/-- Adds a member to those of an object, in the place of its key. A member with the same key is replaced. -/
def insertMember (key : String) (value : Json) : List (String × Json) → List (String × Json)
  | [] => [(key, value)]
  | (k, v) :: rest =>
    if key < k then (key, value) :: (k, v) :: rest
    else if key = k then (key, value) :: rest
    else (k, v) :: insertMember key value rest

/-- The object with some members, of which the last one with a key counts. -/
def ofMembers (members : List (String × Json)) : Json :=
  .obj (members.foldl (fun sofar (key, value) => insertMember key value sofar) [])

/-- The value of a key among the members of an object. -/
def member? (key : String) (members : List (String × Json)) : Option Json :=
  members.lookup key

/-- The value if it is a boolean. -/
def bool? : Json → Option Bool
  | .bool value => some value
  | _ => none

/-- The value if it is a string. -/
def str? : Json → Option String
  | .str text => some text
  | _ => none

/-- The value if it is a number that is whole and fits a signed 64-bit word. -/
def int64? : Json → Option Int64
  | .number value => value.toInt64?
  | _ => none

/-- The items if it is an array. -/
def arr? : Json → Option (List Json)
  | .arr items => some items
  | _ => none

/-- The members if it is an object. -/
def obj? : Json → Option (List (String × Json))
  | .obj members => some members
  | _ => none

end Json

end UnalignedPer
