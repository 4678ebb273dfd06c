import UnalignedPer.Octets

/-!
# UTF-8

The octet sequences of the characters, as the Unicode standard lists them: no overlong forms, no surrogates, nothing above
10FFFF. `Utf8.scalar?` reads one character, `Utf8.isLegal` accepts the texts made of whole characters.
-/

namespace UnalignedPer

namespace Utf8

/-- Whether an octet continues a character. -/
def isTail (octet : UInt8) : Bool :=
  0x80 ≤ octet && octet ≤ 0xBF

/-- The number of octets after a lead octet, none for an octet that starts no character. -/
def tailCount? (lead : UInt8) : Option Nat :=
  if lead ≤ 0x7F then some 0
  else if 0xC2 ≤ lead && lead ≤ 0xDF then some 1
  else if 0xE0 ≤ lead && lead ≤ 0xEF then some 2
  else if 0xF0 ≤ lead && lead ≤ 0xF4 then some 3
  else none

/-- Whether the second octet of a character may follow its lead octet. -/
def isSecond (lead second : UInt8) : Bool :=
  isTail second &&
    (if lead = 0xE0 then 0xA0 ≤ second
     else if lead = 0xED then second ≤ 0x9F
     else if lead = 0xF0 then 0x90 ≤ second
     else if lead = 0xF4 then second ≤ 0x8F
     else true)

/-- The bits that a lead octet brings to its character, when `tails` octets follow it. -/
def leadBits (lead : UInt8) (tails : Nat) : UInt32 :=
  (if tails = 0 then lead else if tails = 1 then lead &&& 0x1F else if tails = 2 then lead &&& 0x0F else lead &&& 0x07)
    |>.toUInt32

/-- Adds the six bits of a tail octet to a character. -/
def addTail (code : UInt32) (octet : UInt8) : UInt32 :=
  (code <<< 6) ||| (octet &&& 0x3F).toUInt32

/-- Reads the tail octets of a character; the list holds them all and what follows. -/
def takeTails (code : UInt32) : Nat → List UInt8 → Option (UInt32 × List UInt8)
  | 0, rest => some (code, rest)
  | count + 1, octet :: rest => if isTail octet then takeTails (addTail code octet) count rest else none
  | _ + 1, [] => none

/-- Reads the character at the front of a text: its code and what follows it. -/
def scalar? : List UInt8 → Option (UInt32 × List UInt8)
  | [] => none
  | lead :: rest =>
    match tailCount? lead, rest with
    | none, _ => none
    | some 0, _ => some (leadBits lead 0, rest)
    | some _, [] => none
    | some tails, second :: _ => if isSecond lead second then takeTails (leadBits lead tails) tails rest else none

theorem takeTails_length (code : UInt32) (count : Nat) (text : List UInt8) (found : UInt32 × List UInt8)
    (h : takeTails code count text = some found) : found.2.length ≤ text.length := by
  induction count generalizing code text with
  | zero =>
    simp only [takeTails, Option.some.injEq] at h
    subst h
    exact Nat.le_refl _
  | succ count ih =>
    cases text with
    | nil => simp [takeTails] at h
    | cons octet rest =>
      simp only [takeTails] at h
      split at h
      · have := ih _ _ h
        simp only [List.length_cons]
        omega
      · simp at h

/-- A character takes at least one octet. -/
theorem scalar?_length (text : List UInt8) (found : UInt32 × List UInt8) (h : scalar? text = some found) :
    found.2.length < text.length := by
  cases text with
  | nil => simp [scalar?] at h
  | cons lead rest =>
    simp only [scalar?] at h
    split at h
    · simp at h
    · simp only [Option.some.injEq] at h
      subst h
      exact Nat.lt_succ_self _
    · simp at h
    · split at h
      · have := takeTails_length _ _ _ _ h
        simp only [List.length_cons] at this ⊢
        omega
      · simp at h

/-- Whether a text is made of whole characters. -/
def isLegalList (text : List UInt8) : Bool :=
  if text.isEmpty then true
  else
    match _h : scalar? text with
    | none => false
    | some found => isLegalList found.2
termination_by text.length
decreasing_by exact scalar?_length text found _h

/-- Whether some octets are legal UTF-8. -/
def isLegal (text : Octets) : Bool :=
  isLegalList text.toList

/-- The code of the character that starts at an index; the octet itself where no legal character starts. -/
def codeAt (text : Octets) (index : Nat) : UInt32 :=
  match scalar? (text.extract index (index + 4)).toList with
  | some (code, _) => code
  | none => (Octets.octetAt text index).toUInt32

/-- The characters that some octets spell, after those read so far, last first. An octet that starts no character stands for the
replacement character. -/
def decodeList (sofar : List Char) (text : List UInt8) : List Char :=
  match text with
  | [] => sofar.reverse
  | octet :: rest =>
    match _h : scalar? (octet :: rest) with
    | some found => decodeList (Char.ofNat found.1.toNat :: sofar) found.2
    | none => decodeList ('\uFFFD' :: sofar) rest
termination_by text.length
decreasing_by
  · exact scalar?_length _ found _h
  · simp

/-- The text that some octets spell. -/
def toText (text : Octets) : String :=
  String.ofList (decodeList [] text.toList)

/-- The octets of a text. -/
def ofText (text : String) : Octets :=
  text.toUTF8.data

end Utf8

end UnalignedPer
