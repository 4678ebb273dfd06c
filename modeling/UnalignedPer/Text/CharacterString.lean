import UnalignedPer.SizedContent
import UnalignedPer.OctetString
import UnalignedPer.Text.Alphabet
import UnalignedPer.Text.Utf8

/-!
# Character strings

A UTF8String is the octet string of its octets, whatever its size constraint. A string of any other type is a sized run of
characters of fixed width. A text is a run of octets; only legal ones are written and read.
-/

namespace UnalignedPer

namespace CharacterString

/-- Whether an octet is a character of a restricted alphabet. -/
def permitsOctet (alphabet : Alphabet) (octet : UInt8) : Bool :=
  octet < 0x80 && alphabet.permits octet.toUInt32

/-- Checks a text against the alphabet. The fault names the first character outside it. -/
def validate (alphabet : Alphabet) (text : Octets) : Except Fault Unit :=
  match alphabet with
  | .utf8 => if Utf8.isLegal text then .ok () else .error .malformedUtf8
  | _ =>
    match text.findIdx? (fun octet => !permitsOctet alphabet octet) with
    | none => .ok ()
    | some index => .error (.invalidCharacter alphabet.name (Utf8.codeAt text index) index)

section Pack

variable {τ : Type} [BitSink τ]

/-- Writes `count` characters from an index on. -/
def packCharacters (alphabet : Alphabet) (text : Octets) (index : Nat) : Nat → Packer τ Unit
  | 0 => pure ()
  | count + 1 => do
    Packer.word (alphabet.packedCode (Octets.octetAt text index)) alphabet.bitsPerCharacter
    packCharacters alphabet text (index + 1) count

/-- Writes a text, if it is legal. -/
def pack (alphabet : Alphabet) (size : Bounds Nat) (extensible : Bool) (text : Octets) : Packer τ Unit :=
  match validate alphabet text with
  | .error fault => throw fault
  | .ok () =>
    match alphabet with
    | .utf8 => OctetString.pack .free false text
    | _ => SizedContent.pack size extensible text.size (packCharacters alphabet text)

end Pack

section Unpack

variable {σ : Type} [BitSource σ]

/-- Reads one character bit by bit; `index` is the number of characters before it. -/
def unpackCharacter (alphabet : Alphabet) (index : Nat) : Unpacker σ UInt8 := do
  let code ← Unpacker.bitsBelow 0 alphabet.bitsPerCharacter
  match alphabet.ofPackedCode? code with
  | none => throw (.invalidCharacter alphabet.name code.toUInt32 index)
  | some octet =>
    if alphabet.permits octet.toUInt32 then return octet
    else throw (.invalidCharacter alphabet.name octet.toUInt32 index)

/-- Reads `count` characters onto a text. -/
def unpackCharacters (alphabet : Alphabet) (text : Octets) : Nat → Unpacker σ Octets
  | 0 => pure text
  | count + 1 => do
    let octet ← unpackCharacter alphabet text.size
    unpackCharacters alphabet (text.push octet) count

/-- Reads a text, of at most `limit` characters, or octets of a UTF8String, if there is a limit. -/
def unpack (alphabet : Alphabet) (size : Bounds Nat) (extensible : Bool) (limit : Option Nat) : Unpacker σ Octets :=
  match alphabet with
  | .utf8 => do
    let text ← OctetString.unpack .free false limit
    if Utf8.isLegal text then return text else throw .malformedUtf8
  | _ => SizedContent.unpack size extensible alphabet.bitsPerCharacter limit #[] (unpackCharacters alphabet)

end Unpack

end CharacterString

end UnalignedPer
