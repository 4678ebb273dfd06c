import UnalignedPer.Proofs.OctetString
import UnalignedPer.Text.CharacterString

/-!
# Character strings are read back

A legal text is one made of characters of its alphabet, or legal UTF-8. A text of fixed width is the run of the packed codes of
its characters; only legal texts are written, and what is read is legal.
-/

namespace UnalignedPer

namespace Alphabet

/-- The packed code of a character of fixed width fits into the width and leads back to the character. -/
theorem packedCode_spec {alphabet : Alphabet} (h : alphabet ≠ .utf8) {octet : UInt8}
    (hp : CharacterString.permitsOctet alphabet octet = true) :
    (alphabet.packedCode octet).toNat < 2 ^ alphabet.bitsPerCharacter ∧
      alphabet.ofPackedCode? (alphabet.packedCode octet) = some octet := by
  -- There are few characters, so each alphabet is gone through.
  have key : ∀ a ∈ [numeric, printable, ia5, visible], ∀ b : BitVec 8,
      CharacterString.permitsOctet a (UInt8.ofBitVec b) = true →
        (a.packedCode (UInt8.ofBitVec b)).toNat < 2 ^ a.bitsPerCharacter ∧
          a.ofPackedCode? (a.packedCode (UInt8.ofBitVec b)) = some (UInt8.ofBitVec b) := by
    decide +kernel
  refine key alphabet ?_ octet.toBitVec hp
  cases alphabet with
  | utf8 => exact absurd rfl h
  | _ => decide

/-- The character of a packed code of fixed width is a seven-bit one. -/
theorem ofPackedCode?_lt {alphabet : Alphabet} (h : alphabet ≠ .utf8) {code : UInt64} {octet : UInt8}
    (hc : code.toNat < 2 ^ alphabet.bitsPerCharacter) (ho : alphabet.ofPackedCode? code = some octet) : octet < 0x80 := by
  have hseven : ∀ code : UInt64, code.toNat < 2 ^ 7 → code.toUInt8 < 0x80 := by
    intro code hlt
    rw [UInt8.lt_iff_toNat_lt, UInt64.toNat_toUInt8]
    exact Nat.lt_of_le_of_lt (Nat.mod_le _ _) hlt
  cases alphabet with
  | utf8 => exact absurd rfl h
  | numeric =>
    have hmem := List.mem_of_getElem? ho
    have key : ∀ o ∈ digits, o < 0x80 := by decide +kernel
    exact key octet hmem
  | _ =>
    cases ho
    exact hseven code hc

end Alphabet

namespace CharacterString

/-- Whether a text is made of characters of an alphabet. -/
def legal (alphabet : Alphabet) (text : Octets) : Bool :=
  match alphabet with
  | .utf8 => Utf8.isLegal text
  | _ => text.all (permitsOctet alphabet)

/-- The characters of a text in their packed codes. -/
def units (alphabet : Alphabet) (text : Octets) : List (List Bool) :=
  text.toList.map fun octet => Bits.ofNat (alphabet.packedCode octet).toNat alphabet.bitsPerCharacter

/-- The form of a text. The size of a UTF8String is free. -/
def form (alphabet : Alphabet) (size : Bounds Nat) (extensible : Bool) (text : Octets) : List Bool :=
  match alphabet with
  | .utf8 => OctetString.form .free false text
  | _ => SizedContent.form size extensible (units alphabet text)

@[simp] theorem length_units (alphabet : Alphabet) (text : Octets) : (units alphabet text).length = text.size := by
  simp [units]

/-- A text of fixed width is legal when all its octets are. -/
theorem legal_iff {alphabet : Alphabet} (h : alphabet ≠ .utf8) (text : Octets) :
    legal alphabet text = true ↔ ∀ i (hi : i < text.size), permitsOctet alphabet text[i] = true := by
  have hl : legal alphabet text = text.all (permitsOctet alphabet) := by
    cases alphabet <;> first | exact absurd rfl h | rfl
  rw [hl, Array.all_eq_true]

/-- The check before writing lets legal texts pass and no others. -/
theorem validate_eq_ok (alphabet : Alphabet) (text : Octets) : validate alphabet text = .ok () ↔ legal alphabet text = true := by
  by_cases h : alphabet = .utf8
  · subst h
    simp only [validate, legal]
    split <;> simp_all
  · have hv : validate alphabet text = .ok () ↔ text.findIdx? (fun octet => !permitsOctet alphabet octet) = none := by
      cases hfind : text.findIdx? fun octet => !permitsOctet alphabet octet with
      | none =>
        refine iff_of_true ?_ rfl
        cases alphabet <;> first | exact absurd rfl h | simp only [validate, hfind]
      | some index =>
        refine iff_of_false ?_ (by simp)
        cases alphabet <;> first | exact absurd rfl h | simp [validate, hfind]
    rw [hv, legal_iff h, Array.findIdx?_eq_none_iff]
    constructor
    · intro hall i hi
      simpa using hall text[i] (Array.getElem_mem hi)
    · intro hall octet hmem
      obtain ⟨i, hi, rfl⟩ := Array.mem_iff_getElem.mp hmem
      simpa using hall i hi

/-- The form of a text of fixed width. -/
theorem form_of_ne {alphabet : Alphabet} (h : alphabet ≠ .utf8) (size : Bounds Nat) (extensible : Bool) (text : Octets) :
    form alphabet size extensible text = SizedContent.form size extensible (units alphabet text) := by
  cases alphabet <;> first | exact absurd rfl h | rfl

/-- The units of a text from an index on: its character there and those behind it. -/
theorem drop_units (alphabet : Alphabet) (text : Octets) {index : Nat} (h : index < text.size) :
    (units alphabet text).drop index =
      Bits.ofNat (alphabet.packedCode text[index]).toNat alphabet.bitsPerCharacter ::
        (units alphabet text).drop (index + 1) := by
  rw [List.drop_eq_getElem_cons (by rw [length_units]; exact h)]
  simp [units]

theorem bitsPerCharacter_le (alphabet : Alphabet) : alphabet.bitsPerCharacter ≤ 64 := by
  cases alphabet <;> decide

section Pack

variable {τ : Type} [BitSink τ] [LawfulBitSink τ]

theorem writes_packCharacters (s : τ) (alphabet : Alphabet) (text : Octets) (index count : Nat)
    (h : index + count ≤ text.size) :
    Packer.Writes s (packCharacters alphabet text index count) (((units alphabet text).drop index).take count).flatten () := by
  induction count generalizing s index with
  | zero => exact Packer.writes_pure s ()
  | succ count ih =>
    have hi : index < text.size := by omega
    have hoct : Octets.octetAt text index = text[index] := by
      unfold Octets.octetAt
      rw [Array.getD_eq_getD_getElem?, Array.getElem?_eq_getElem hi]
      rfl
    rw [packCharacters, hoct, drop_units alphabet text hi, List.take_succ_cons, List.flatten_cons]
    exact (Packer.writes_word s _ (bitsPerCharacter_le alphabet)).bind fun s1 _ => ih s1 (index + 1) (by omega)

/-- A text is written when it is legal and its size lies within the bounds, the type is extensible, or the size is free. -/
theorem writesIf_pack (s : τ) (alphabet : Alphabet) (size : Bounds Nat) (extensible : Bool) (text : Octets) :
    Packer.WritesIf s
      (legal alphabet text = true ∧
        (alphabet = .utf8 ∨ extensible = true ∨ SizedContent.inRoot size text.size = true))
      (pack alphabet size extensible text) (form alphabet size extensible text) () := by
  unfold pack
  cases hv : validate alphabet text with
  | error fault =>
    refine (Packer.fails_throw s fault).writesIf ?_ _ _
    rintro ⟨hl, _⟩
    rw [(validate_eq_ok alphabet text).mpr hl] at hv
    cases hv
  | ok _ =>
    have hl := (validate_eq_ok alphabet text).mp hv
    by_cases h : alphabet = .utf8
    · subst h
      refine Packer.Writes.writesIf ?_ ⟨hl, Or.inl rfl⟩
      exact (OctetString.writesIf_pack s .free false text).1 (Or.inr (SizedContent.inRoot_free _))
    · have hemit : SizedContent.Emits s (packCharacters alphabet text) (units alphabet text) fun _ => True := by
        intro s' bits offset count _ hc
        rw [length_units] at hc
        exact (writes_packCharacters s' alphabet text offset count hc).writesIf fun _ _ _ => trivial
      have hw := SizedContent.writesIf_pack hemit size extensible
      rw [length_units] at hw
      have hc : (extensible = true ∨ SizedContent.inRoot size text.size = true) ∧ (∀ i, i < text.size → True) ↔
          legal alphabet text = true ∧
            (alphabet = .utf8 ∨ extensible = true ∨ SizedContent.inRoot size text.size = true) :=
        ⟨fun hs => ⟨hl, Or.inr hs.1⟩, fun hs => ⟨hs.2.resolve_left h, fun _ _ => trivial⟩⟩
      rw [form_of_ne h]
      cases alphabet <;> first | exact absurd rfl h | exact hw.congr hc

end Pack

section Unpack

variable {σ : Type} [BitSource σ] [LawfulBitSource σ]

/-- A character of the alphabet is read back. -/
theorem takes_unpackCharacter (s : σ) {alphabet : Alphabet} (h : alphabet ≠ .utf8) {octet : UInt8}
    (hp : permitsOctet alphabet octet = true) (index : Nat) :
    Unpacker.Takes s (unpackCharacter alphabet index)
      (Bits.ofNat (alphabet.packedCode octet).toNat alphabet.bitsPerCharacter) octet := by
  obtain ⟨hlt, hcode⟩ := Alphabet.packedCode_spec h hp
  have hperm : alphabet.permits octet.toUInt32 = true := by
    simp only [permitsOctet, Bool.and_eq_true] at hp
    exact hp.2
  have hb := Unpacker.takes_bitsBelow s 0 (Bits.ofNat (alphabet.packedCode octet).toNat alphabet.bitsPerCharacter)
  rw [Bits.length_ofNat, ← Bits.toNat, Bits.toNat_ofNat hlt, UInt64.ofNat_toNat] at hb
  rw [← List.append_nil (Bits.ofNat _ _)]
  refine hb.bind fun s1 _ => ?_
  simp only [hcode, hperm, if_true]
  exact Unpacker.takes_pure s1 octet

/-- A character that is read belongs to the alphabet. -/
theorem gives_unpackCharacter (s : σ) {alphabet : Alphabet} (h : alphabet ≠ .utf8) (index : Nat) :
    Unpacker.Gives s (unpackCharacter alphabet index) fun octet => permitsOctet alphabet octet = true := by
  refine (Unpacker.gives_bitsBelow s 0 _).bind fun code s1 _ hc _ => ?_
  rw [show (0 : UInt64).toNat = 0 from rfl, Nat.zero_add, Nat.one_mul] at hc
  cases ho : alphabet.ofPackedCode? code with
  | none => exact Unpacker.gives_throw s1 _ _
  | some octet =>
    refine Unpacker.gives_ite (fun hperm => Unpacker.gives_pure s1 ?_) fun _ => Unpacker.gives_throw s1 _ _
    simp only [permitsOctet, Bool.and_eq_true, decide_eq_true_eq]
    exact ⟨Alphabet.ofPackedCode?_lt h hc ho, hperm⟩

/-- Characters are read behind those read before. -/
theorem takes_unpackCharacters (s : σ) {alphabet : Alphabet} (h : alphabet ≠ .utf8) {text : Octets}
    (hl : legal alphabet text = true) (index count : Nat) (hc : index + count ≤ text.size) :
    Unpacker.Takes s (unpackCharacters alphabet (text.extract 0 index) count)
      (((units alphabet text).drop index).take count).flatten (text.extract 0 (index + count)) := by
  induction count generalizing s index with
  | zero => exact Unpacker.takes_pure s _
  | succ count ih =>
    have hi : index < text.size := by omega
    have hp := (legal_iff h text).mp hl index hi
    rw [unpackCharacters, drop_units alphabet text hi, List.take_succ_cons, List.flatten_cons]
    refine (takes_unpackCharacter s h hp _).bind fun s1 _ => ?_
    rw [Array.push_extract_getElem hi, Nat.zero_min, show index + (count + 1) = index + 1 + count by omega]
    exact ih s1 (index + 1) (by omega)

/-- Characters that are read belong to the alphabet. -/
theorem gives_unpackCharacters (s : σ) {alphabet : Alphabet} (h : alphabet ≠ .utf8) (text : Octets) (count : Nat)
    (hl : legal alphabet text = true) :
    Unpacker.Gives s (unpackCharacters alphabet text count)
      fun found => found.size = text.size + count ∧ legal alphabet found = true := by
  induction count generalizing s text with
  | zero => exact Unpacker.gives_pure s ⟨rfl, hl⟩
  | succ count ih =>
    rw [unpackCharacters]
    refine (gives_unpackCharacter s h _).bind fun octet s1 _ ho _ => ?_
    have hpush : legal alphabet (text.push octet) = true := by
      rw [legal_iff h] at hl ⊢
      intro i hi
      rw [Array.getElem_push]
      split
      · exact hl i _
      · exact ho
    refine (ih s1 (text.push octet) hpush).weaken fun found hf => ⟨?_, hf.2⟩
    rw [hf.1, Array.size_push]
    omega

/-- The characters of a legal text are read onto those before them. -/
theorem consumes_unpackCharacters (s : σ) {alphabet : Alphabet} (h : alphabet ≠ .utf8) {text : Octets}
    (hlegal : legal alphabet text = true) :
    SizedContent.Consumes s (unpackCharacters alphabet) (units alphabet text) fun count => text.extract 0 count := by
  intro s' n offset count _ hc
  rw [length_units] at hc
  exact takes_unpackCharacters s' h hlegal offset count hc

theorem readable_units (alphabet : Alphabet) {text : Octets} {limit : Option Nat}
    (hl : ∀ l, limit = some l → text.size ≤ l) :
    SizedContent.Readable alphabet.bitsPerCharacter limit (units alphabet text) := by
  refine ⟨by rw [length_units]; exact hl, fun u hu => ?_⟩
  obtain ⟨octet, _, rfl⟩ := List.mem_map.mp hu
  exact Nat.le_of_eq (Bits.length_ofNat _ _).symm

/-- A legal text is read back if its size lies within the limit. -/
theorem takes_unpack (s : σ) {alphabet : Alphabet} {size : Bounds Nat} {extensible : Bool} {text : Octets}
    {limit : Option Nat} (hlegal : legal alphabet text = true) (hl : ∀ l, limit = some l → text.size ≤ l)
    (hs : alphabet = .utf8 ∨ extensible = true ∨ SizedContent.inRoot size text.size = true) :
    Unpacker.Takes s (unpack alphabet size extensible limit) (form alphabet size extensible text) text := by
  by_cases h : alphabet = .utf8
  · subst h
    simp only [unpack, form]
    rw [← List.append_nil (OctetString.form _ _ _)]
    refine (OctetString.takes_unpack s hl (Or.inr (SizedContent.inRoot_free _))).bind fun s1 _ => ?_
    rw [if_pos (show Utf8.isLegal text = true from hlegal)]
    exact Unpacker.takes_pure s1 text
  · have ht := SizedContent.takes_unpack (consumes_unpackCharacters s h hlegal) (readable_units alphabet hl) size
      (by rw [length_units]; exact hs.resolve_left h)
    rw [length_units, Array.extract_size, Array.extract_zero] at ht
    rw [form_of_ne h]
    cases alphabet <;> first | exact absurd rfl h | exact ht

/-- A text that is read is legal; its size lies within the limit, and within the bounds unless it is extensible or free. -/
theorem gives_unpack (s : σ) (alphabet : Alphabet) {size : Bounds Nat} (ho : size.Ordered) (extensible : Bool)
    (limit : Option Nat) :
    Unpacker.Gives s (unpack alphabet size extensible limit) fun text =>
      legal alphabet text = true ∧ (∀ l, limit = some l → text.size ≤ l) ∧
        (alphabet = .utf8 ∨ extensible = true ∨ SizedContent.inRoot size text.size = true) := by
  by_cases h : alphabet = .utf8
  · subst h
    refine (OctetString.gives_unpack s Bounds.ordered_free false limit).bind fun text s1 _ ht _ => ?_
    exact Unpacker.gives_ite (fun hlegal => Unpacker.gives_pure s1 ⟨hlegal, ht.1, Or.inl rfl⟩)
      fun _ => Unpacker.gives_throw s1 _ _
  · have hk : SizedContent.Keeps s (unpackCharacters alphabet) fun total (text : Octets) =>
        text.size = total ∧ legal alphabet text = true := by
      rintro s' n total text count _ ⟨rfl, hl⟩
      exact gives_unpackCharacters s' h text count hl
    have hg := SizedContent.gives_unpack hk ho extensible alphabet.bitsPerCharacter limit
      ⟨rfl, (legal_iff h #[]).mpr fun i hi => absurd hi (Nat.not_lt_zero i)⟩
    have hw := hg.weaken (Q := fun text => legal alphabet text = true ∧ (∀ l, limit = some l → text.size ≤ l) ∧
        (alphabet = .utf8 ∨ extensible = true ∨ SizedContent.inRoot size text.size = true)) (by
      rintro text ⟨total, ⟨rfl, hl⟩, hlim, hs⟩
      exact ⟨hl, hlim, Or.inr hs⟩)
    cases alphabet <;> first | exact absurd rfl h | exact hw

end Unpack

end CharacterString

end UnalignedPer
