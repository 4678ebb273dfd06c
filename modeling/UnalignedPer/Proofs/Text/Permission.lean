import UnalignedPer.Proofs.Text.CharacterString

/-!
# Who permits a character

An alphabet is asked in several places: a code is looked up in it, a text is checked against it before it is written, and every
character is looked up when a text is read. The places agree (`alphabet_agreement`): the check finds the first octet that is not
permitted, nothing is written of a text that fails it, and what is read passes it, whatever it is read from.

There is one exception. A code has thirty-two bits and punctuation is looked up by its low octet, so that a PrintableString also
permits the codes that have a punctuation character there and something above it (`Alphabet.Aliased`).
-/

namespace UnalignedPer

variable {σ τ α β : Type}

/-! ## One character -/

namespace Alphabet

/-- A code outside the seven-bit characters of which the low octet is punctuation. -/
def Aliased (alphabet : Alphabet) (code : UInt32) : Prop :=
  alphabet = .printable ∧ 0x80 ≤ code ∧ code.toUInt8 ∈ punctuation

/-- Octets are permitted as the codes that they are. None of eight bits is. -/
theorem permits_octet {alphabet : Alphabet} (h : alphabet ≠ .utf8) (octet : UInt8) :
    alphabet.permits octet.toUInt32 = CharacterString.permitsOctet alphabet octet := by
  -- There are few characters, so each alphabet is gone through.
  have key : ∀ a ∈ [numeric, printable, ia5, visible], ∀ b : BitVec 8,
      a.permits (UInt8.ofBitVec b).toUInt32 = CharacterString.permitsOctet a (UInt8.ofBitVec b) := by
    decide +kernel
  refine key alphabet ?_ octet.toBitVec
  cases alphabet with
  | utf8 => exact absurd rfl h
  | _ => decide

/-- A code of seven bits is permitted as its octet. -/
theorem permits_of_lt {alphabet : Alphabet} (h : alphabet ≠ .utf8) {code : UInt32} (hc : code < 0x80) :
    alphabet.permits code = CharacterString.permitsOctet alphabet code.toUInt8 := by
  have hcode : code.toUInt8.toUInt32 = code := by
    rw [UInt32.lt_iff_toNat_lt] at hc
    apply UInt32.toNat_inj.mp
    rw [UInt8.toNat_toUInt32, UInt32.toNat_toUInt8]
    exact Nat.mod_eq_of_lt (Nat.lt_trans hc (by decide))
  rw [← permits_octet h, hcode]

/-- A code of more than seven bits is permitted only by its low octet. -/
theorem permits_of_ge {alphabet : Alphabet} (h : alphabet ≠ .utf8) {code : UInt32} (hc : 0x80 ≤ code) :
    alphabet.permits code = true ↔ alphabet.Aliased code := by
  have hgreat : ∀ limit : UInt32, limit < 0x80 → ¬code ≤ limit := fun limit hl =>
    UInt32.not_le.mpr (UInt32.lt_of_lt_of_le hl hc)
  cases alphabet with
  | utf8 => exact absurd rfl h
  | numeric =>
    have hspace : code ≠ 0x20 := by
      rintro rfl
      exact absurd hc (by decide)
    simp [permits, Aliased, hgreat, hspace]
  | printable => simp [permits, isAlphanumeric, Aliased, hgreat, hc]
  | ia5 => simp [permits, Aliased, hc]
  | visible => simp [permits, Aliased, hgreat]

end Alphabet

namespace CharacterString

/-! ## The check of a text -/

/-- A text of a restricted alphabet is searched for an octet that is not permitted. -/
theorem validate_of_ne {alphabet : Alphabet} (h : alphabet ≠ .utf8) (text : Octets) :
    validate alphabet text =
      match text.findIdx? fun octet => !permitsOctet alphabet octet with
      | none => .ok ()
      | some index => .error (.invalidCharacter alphabet.name (Utf8.codeAt text index) index) := by
  cases alphabet <;> first | exact absurd rfl h | rfl

/-- A text passes the check if all its octets are permitted. -/
theorem validate_eq_ok_iff {alphabet : Alphabet} (h : alphabet ≠ .utf8) (text : Octets) :
    validate alphabet text = .ok () ↔ ∀ i (hi : i < text.size), alphabet.permits text[i].toUInt32 = true := by
  simp only [validate_eq_ok, legal_iff h, Alphabet.permits_octet h]

/-- A text fails the check at its first octet that is not permitted. -/
theorem validate_eq_error_iff {alphabet : Alphabet} (h : alphabet ≠ .utf8) (text : Octets) (fault : Fault) :
    validate alphabet text = .error fault ↔
      ∃ i, ∃ hi : i < text.size, alphabet.permits text[i].toUInt32 = false ∧
        (∀ j (hj : j < i), alphabet.permits text[j].toUInt32 = true) ∧
        fault = .invalidCharacter alphabet.name (Utf8.codeAt text i) i := by
  rw [validate_of_ne h]
  simp only [Alphabet.permits_octet h]
  constructor
  · intro hv
    split at hv
    · cases hv
    · rename_i i hfind
      cases hv
      obtain ⟨hi, hhere, hbefore⟩ := Array.findIdx?_eq_some_iff_getElem.mp hfind
      exact ⟨i, hi, by simpa using hhere, fun j hj => by simpa using hbefore j hj, rfl⟩
  · rintro ⟨i, hi, hhere, hbefore, rfl⟩
    have hfind : text.findIdx? (fun octet => !permitsOctet alphabet octet) = some i :=
      Array.findIdx?_eq_some_iff_getElem.mpr ⟨hi, by simpa using hhere, fun j hj => by simpa using hbefore j hj⟩
    rw [hfind]

/-- A text of one octet passes the check if the octet is permitted. -/
theorem validate_single {alphabet : Alphabet} (h : alphabet ≠ .utf8) (octet : UInt8) :
    validate alphabet #[octet] = .ok () ↔ permitsOctet alphabet octet = true := by
  rw [validate_eq_ok, legal_iff h]
  simp

/-- Of a text that fails the check nothing is written. -/
theorem pack_of_validate {alphabet : Alphabet} {text : Octets} {fault : Fault} (h : validate alphabet text = .error fault)
    [BitSink τ] (size : Bounds Nat) (extensible : Bool) (s : τ) :
    pack alphabet size extensible text s = .error fault s := by
  unfold pack
  rw [h]
  rfl

end CharacterString

/-! ## What is read -/

namespace Unpacker

/-- Whatever an action reads has a property, from whatever state it reads. -/
def Returns (action : Unpacker σ α) (P : α → Prop) : Prop :=
  ∀ ⦃s x s'⦄, action s = .ok x s' → P x

variable {P : α → Prop} {Q : β → Prop}

/-- Nothing need be known of what is read. -/
theorem returns_any (action : Unpacker σ α) : Returns action fun _ => True :=
  fun _ _ _ _ => trivial

/-- A result that has the property. -/
theorem returns_pure {x : α} (h : P x) : Returns (pure x : Unpacker σ α) P := by
  intro s y s' hs
  cases hs
  exact h

/-- A failure reads nothing. -/
theorem returns_throw (fault : Fault) : Returns (throw fault : Unpacker σ α) P := by
  intro s y s' hs
  cases hs

/-- What is known of a first result may be used for the second one. -/
theorem Returns.bind {m : Unpacker σ α} {f : α → Unpacker σ β} (h : Returns m P) (h' : ∀ x, P x → Returns (f x) Q) :
    Returns (m >>= f) Q := by
  intro s y s' hs
  rw [run_bind] at hs
  split at hs
  · rename_i x s1 hm
    exact h' x (h hm) hs
  · cases hs

/-- A choice between actions, each under its condition. -/
theorem returns_ite {c : Prop} [Decidable c] {m m' : Unpacker σ α} (h : c → Returns m P) (h' : ¬c → Returns m' P) :
    Returns (if c then m else m') P := by
  by_cases hc : c
  · rw [if_pos hc]
    exact h hc
  · rw [if_neg hc]
    exact h' hc

end Unpacker

namespace SizedContent

open Unpacker

section

variable [BitSource σ] {consume : α → Nat → Unpacker σ α} {P : α → Prop}
  (h : ∀ sofar count, P sofar → Returns (consume sofar count) P)

include h

/-- Chunks from some point on have the property if each of them keeps it. -/
theorem returns_unpackFrom (bounds : Bounds Nat) (unitBits : Nat) (limit : Option Nat) (total : Nat) {sofar : α}
    (chunk : LengthDeterminant.Chunk) (fuel : Nat) (hp : P sofar) :
    Returns (unpackFrom bounds unitBits limit consume total sofar chunk fuel) fun found => P found.2 := by
  induction fuel generalizing total sofar chunk with
  | zero => exact returns_throw _
  | succ fuel ih =>
    refine (returns_any _).bind fun _ _ => (h sofar chunk.units hp).bind fun next hnext => ?_
    exact returns_ite (fun _ => (returns_any _).bind fun chunk' _ => ih _ chunk' hnext) fun _ => returns_pure hnext

/-- Counted units have the property if each chunk keeps it. -/
theorem returns_unpackCounted (size : Bounds Nat) (unitBits : Nat) (limit : Option Nat) {start : α} (hp : P start) :
    Returns (unpackCounted size unitBits limit start consume) P := by
  refine (returns_any _).bind fun ahead _ => (returns_any _).bind fun chunk _ => ?_
  refine (returns_unpackFrom h _ unitBits limit 0 chunk (ahead + 1) hp).bind fun found hfound => ?_
  exact returns_ite (fun _ => returns_pure hfound) fun _ => returns_throw _

/-- A content within its bounds has the property if each chunk keeps it. -/
theorem returns_unpackRoot (size : Bounds Nat) (unitBits : Nat) (limit : Option Nat) {start : α} (hp : P start) :
    Returns (unpackRoot size unitBits limit start consume) P := by
  refine returns_ite (fun _ => returns_pure hp) fun _ => ?_
  split
  · exact (returns_any _).bind fun _ _ => h start _ hp
  · exact returns_unpackCounted h size unitBits limit hp

/-- What every chunk keeps is a property of the whole content. -/
theorem returns_unpack (size : Bounds Nat) (extensible : Bool) (unitBits : Nat) (limit : Option Nat) {start : α}
    (hp : P start) : Returns (unpack size extensible unitBits limit start consume) P := by
  refine returns_ite (fun _ => (returns_any _).bind fun _ _ => ?_) fun _ => returns_unpackRoot h size unitBits limit hp
  exact returns_ite (fun _ => returns_unpackCounted h .free unitBits limit hp) fun _ =>
    returns_unpackRoot h size unitBits limit hp

end

end SizedContent

namespace CharacterString

open Unpacker

variable [BitSource σ]

/-- A character that is read is permitted. -/
theorem returns_unpackCharacter {alphabet : Alphabet} (h : alphabet ≠ .utf8) (index : Nat) :
    Returns (unpackCharacter alphabet index : Unpacker σ UInt8) fun octet => permitsOctet alphabet octet = true := by
  refine (returns_any _).bind fun code _ => ?_
  split
  · exact returns_throw _
  · rename_i octet _
    exact returns_ite (fun hperm => returns_pure (by rwa [← Alphabet.permits_octet h])) fun _ => returns_throw _

/-- Characters are read onto a text that passes the check. -/
theorem returns_unpackCharacters {alphabet : Alphabet} (h : alphabet ≠ .utf8) (text : Octets) (count : Nat)
    (hl : legal alphabet text = true) :
    Returns (unpackCharacters alphabet text count : Unpacker σ Octets) fun found => legal alphabet found = true := by
  induction count generalizing text with
  | zero => exact returns_pure hl
  | succ count ih =>
    refine (returns_unpackCharacter h text.size).bind fun octet ho => ih (text.push octet) ?_
    rw [legal_iff h] at hl ⊢
    intro i hi
    rw [Array.getElem_push]
    split
    · exact hl i _
    · exact ho

/-- What is read passes the check. -/
theorem returns_unpack (alphabet : Alphabet) (size : Bounds Nat) (extensible : Bool) (limit : Option Nat) :
    Returns (unpack alphabet size extensible limit : Unpacker σ Octets) fun text => validate alphabet text = .ok () := by
  simp only [validate_eq_ok]
  by_cases h : alphabet = .utf8
  · subst h
    exact (returns_any _).bind fun text _ => returns_ite (fun hl => returns_pure hl) fun _ => returns_throw _
  · have hempty : legal alphabet #[] = true := (legal_iff h #[]).mpr fun i hi => absurd hi (Nat.not_lt_zero i)
    have hsized := SizedContent.returns_unpack (σ := σ) (returns_unpackCharacters h) size extensible
      alphabet.bitsPerCharacter limit hempty
    cases alphabet <;> first | exact absurd rfl h | exact hsized

end CharacterString

/-! ## All who ask an alphabet -/

/-- Whoever asks an alphabet gets the same answer. A code is permitted exactly when it is one of seven bits and the text of its
octet passes the check, other than the aliases of punctuation. The check finds the first octet that is not permitted, a text that
fails it is not written, and every text that is read passes it, whatever the source is. -/
theorem alphabet_agreement (alphabet : Alphabet) :
    (alphabet ≠ .utf8 →
      (∀ code, (alphabet.permits code = true ↔
          code < 0x80 ∧ CharacterString.validate alphabet #[code.toUInt8] = .ok ()) ↔ ¬alphabet.Aliased code) ∧
      ∀ text : Octets,
        (CharacterString.validate alphabet text = .ok () ↔
          ∀ i (hi : i < text.size), alphabet.permits text[i].toUInt32 = true) ∧
        ∀ fault, CharacterString.validate alphabet text = .error fault ↔
          ∃ i, ∃ hi : i < text.size, alphabet.permits text[i].toUInt32 = false ∧
            (∀ j (hj : j < i), alphabet.permits text[j].toUInt32 = true) ∧
            fault = .invalidCharacter alphabet.name (Utf8.codeAt text i) i) ∧
    (∀ (text : Octets) (fault : Fault), CharacterString.validate alphabet text = .error fault →
      ∀ (τ : Type) [BitSink τ] (size : Bounds Nat) (extensible : Bool) (s : τ),
        CharacterString.pack alphabet size extensible text s = .error fault s) ∧
    ∀ (σ : Type) [BitSource σ] (size : Bounds Nat) (extensible : Bool) (limit : Option Nat) (s s' : σ) (text : Octets),
      CharacterString.unpack alphabet size extensible limit s = .ok text s' →
        CharacterString.validate alphabet text = .ok () := by
  refine ⟨fun h => ⟨fun code => ?_, fun text => ⟨CharacterString.validate_eq_ok_iff h text, ?_⟩⟩, ?_, ?_⟩
  · rw [CharacterString.validate_single h]
    by_cases hc : code < 0x80
    · have hseven : ¬alphabet.Aliased code := fun ha => absurd ha.2.1 (UInt32.not_le.mpr hc)
      simp only [Alphabet.permits_of_lt h hc, hc, true_and, hseven, not_false_eq_true]
    · simp only [Alphabet.permits_of_ge h (UInt32.not_lt.mp hc), hc, false_and, iff_false]
  · exact CharacterString.validate_eq_error_iff h text
  · exact fun text fault hv τ _ size extensible s => CharacterString.pack_of_validate hv size extensible s
  · exact fun σ _ size extensible limit s s' text hread =>
      CharacterString.returns_unpack alphabet size extensible limit hread

/-- An asterisk is no character of a PrintableString, and a full stop is one. -/
theorem alphabet_agreement_printable :
    let asterisk : Fault := .invalidCharacter "PrintableString" 0x2A 1
    Alphabet.printable ≠ .utf8 ∧ ¬Alphabet.printable.Aliased 0x2A ∧
      CharacterString.validate .printable #[0x2A] ≠ .ok () ∧
      CharacterString.validate .printable #[0x41, 0x2A] = .error asterisk ∧
      CharacterString.pack .printable .free false #[0x41, 0x2A] BitBuffer.empty = .error asterisk BitBuffer.empty ∧
      resultOf (CharacterString.unpack .printable .free false none) (BitView.ofOctets #[0x02, 0x82, 0xB8] 22) =
        some #[0x41, 0x2E] ∧
      CharacterString.validate .printable #[0x41, 0x2E] = .ok () := by
  intro asterisk
  have h : Alphabet.printable ≠ .utf8 := by decide
  obtain ⟨hrestricted, hpack, hunpack⟩ := alphabet_agreement .printable
  obtain ⟨hcode, htext⟩ := hrestricted h
  have hseven : ¬Alphabet.printable.Aliased 0x2A := fun ha => absurd ha.2.1 (by decide)
  have hsingle : CharacterString.validate .printable #[0x2A] ≠ .ok () := fun hv =>
    absurd (((hcode 0x2A).mpr hseven).mpr ⟨by decide, hv⟩) (by decide)
  have hcheck : CharacterString.validate .printable #[0x41, 0x2A] = .error asterisk := by
    refine ((htext _).2 asterisk).mpr ⟨1, by decide, by decide, fun j hj => ?_, rfl⟩
    obtain rfl : j = 0 := by omega
    rfl
  have hread : resultOf (CharacterString.unpack .printable .free false none) (BitView.ofOctets #[0x02, 0x82, 0xB8] 22) =
      some #[0x41, 0x2E] := by decide +kernel
  obtain ⟨s', hs⟩ := resultOf_eq_some.mp hread
  exact ⟨h, hseven, hsingle, hcheck, hpack _ _ hcheck BitBuffer .free false .empty, hread,
    hunpack BitView .free false none _ s' _ hs⟩

/-- The code of a capital letter outside ASCII is permitted by the space in its low octet, although no text of it passes. -/
theorem not_permits_only_seven_bits :
    ¬∀ alphabet : Alphabet, alphabet ≠ .utf8 → ∀ code : UInt32, alphabet.permits code = true ↔
      code < 0x80 ∧ CharacterString.validate alphabet #[code.toUInt8] = .ok () := by
  intro h
  have hwide := (h .printable (by decide) 0x120).mp (by decide)
  exact absurd hwide.1 (by decide)

end UnalignedPer
