import UnalignedPer.Proofs.Message.Uniqueness

/-!
# The same values, the same encodings

Values that are the same may hold their bit strings in different octets. They are written by the same action
(`Descriptor.write_congr`), since no bit string is looked at past its end. So they are encoded alike, and they fail alike. In the
other direction the bits tell the value: `encode_same` has both.

The number of octets of a bit string is counted in a word, which is exact below 2^63 bits.
-/

namespace UnalignedPer

/-! ## Contents that agree -/

/-- Runs of the same bits are appended alike. -/
theorem Packer.run_congr {τ : Type} [BitSink τ] {a b : Octets} {offset length : Nat}
    (h : Octets.bitsFrom a offset length = Octets.bitsFrom b offset length) :
    (Packer.run a offset length : Packer τ Unit) = Packer.run b offset length := by
  have happend : ∀ buffer : BitBuffer, buffer.append a offset length = buffer.append b offset length := by
    intro buffer
    simp only [BitBuffer.append, Octets.copyBits_eq_overlay, h]
  simp only [Packer.run, happend]

namespace SizedContent

variable {τ : Type} [BitSink τ] {emit emit' : Nat → Nat → Packer τ Unit} {total : Nat}

section

variable (h : ∀ offset count, offset + count ≤ total → emit offset count = emit' offset count)

include h

/-- Chunks of units that are written alike are written alike. -/
theorem packFree_congr {offset rest : Nat} (hr : offset + rest ≤ total) : packFree emit offset rest = packFree emit' offset rest := by
  induction rest using Nat.strongRecOn generalizing offset with
  | _ rest ih =>
    have hle := LengthDeterminant.covered_le rest
    rw [packFree.eq_def emit, packFree.eq_def emit', h offset _ (by omega)]
    by_cases hlast : rest < LengthDeterminant.fragmentUnit
    · simp only [dif_pos hlast]
    · have hcovered := LengthDeterminant.covered_bounds rest hlast
      simp only [dif_neg hlast]
      rw [ih (rest - LengthDeterminant.covered rest) (by omega) (by omega)]

/-- Only the units of a content are asked for. -/
theorem pack_congr (size : Bounds Nat) (extensible : Bool) : pack size extensible total emit = pack size extensible total emit' := by
  have hall := h 0 total (Nat.le_of_eq (Nat.zero_add total))
  have hfree := packFree_congr h (Nat.le_of_eq (Nat.zero_add total))
  simp only [pack, packRoot, hall, hfree]

end

end SizedContent

/-- Bit strings that are the same are written alike. -/
theorem BitString.pack_congr {τ : Type} [BitSink τ] {a b : BitString} (h : a.same b = true) (hlt : a.length.toNat < 2 ^ 63)
    (size : Bounds Nat) (extensible : Bool) : (pack size extensible a : Packer τ Unit) = pack size extensible b := by
  simp only [same, Octets.agreeOn_eq, Bool.and_eq_true, beq_iff_eq, decide_eq_true_eq] at h
  obtain ⟨⟨⟨hlength, ha⟩, hb⟩, hbits⟩ := h
  have hcount : (octetCount a.length).toNat = (a.length.toNat + 7) / 8 := by
    rw [octetCount, UInt64.toNat_div, UInt64.toNat_add, show (7 : UInt64).toNat = 7 from rfl, show (8 : UInt64).toNat = 8 from rfl,
      Nat.mod_eq_of_lt (by omega)]
  have hrun : ∀ offset count, offset + count ≤ a.length.toNat →
      (Packer.run a.octets offset count : Packer τ Unit) = Packer.run b.octets offset count := by
    intro offset count hle
    refine Packer.run_congr (Octets.bitsFrom_congr fun i hi => ?_)
    have hbit := congrArg (·[offset + i]?) hbits
    simp only [Octets.getElem?_bitsFrom, Nat.zero_add] at hbit
    rw [if_pos (by omega), if_pos (by omega)] at hbit
    exact Option.some.inj hbit
  rw [pack, pack, ← hlength, if_neg (by omega), if_neg (by omega)]
  exact SizedContent.pack_congr hrun size extensible

namespace Value

mutual

/-- Whether every bit string in a value has fewer bits than a limit. -/
def bitsBelow (limit : Nat) : Value → Bool
  | bits run => run.length.toNat < limit
  | sequence fields => bitsBelowList limit fields
  | sequenceOf elements => bitsBelowList limit elements
  | choice _ payload => bitsBelowOption limit payload
  | _ => true

/-- Whether every bit string in a place has fewer bits than a limit. -/
def bitsBelowOption (limit : Nat) : Option Value → Bool
  | none => true
  | some value => bitsBelow limit value

/-- Whether every bit string in some places has fewer bits than a limit. -/
def bitsBelowList (limit : Nat) : List (Option Value) → Bool
  | [] => true
  | entry :: entries => bitsBelowOption limit entry && bitsBelowList limit entries

end

/-- The same values are of one kind. -/
theorem kind_of_same {a b : Value} (h : a.same b = true) : a.kind = b.kind := by
  cases a <;> cases b <;> first
    | rfl
    | exact absurd h Bool.false_ne_true

/-- Lists that are the same are as long. -/
theorem length_of_sameList {as bs : List (Option Value)} (h : sameList as bs = true) : as.length = bs.length := by
  induction as generalizing bs with
  | nil =>
    cases bs with
    | nil => rfl
    | cons b bs => exact absurd h Bool.false_ne_true
  | cons a as ih =>
    cases bs with
    | nil => exact absurd h Bool.false_ne_true
    | cons b bs =>
      rw [sameList, Bool.and_eq_true] at h
      rw [List.length_cons, List.length_cons, ih h.2]

end Value

namespace Descriptor

/-- Values that are the same are written alike, if their bit strings are not too long. -/
def Steadfast (type : Descriptor) : Prop :=
  ∀ a b : Value, a.same b = true → a.bitsBelow (2 ^ 63) = true → type.write a = type.write b

/-- Values that are the same are refused in the same words. -/
theorem refuse_congr (type : Descriptor) {a b : Value} (h : a.same b = true) : type.refuse a = type.refuse b := by
  rw [refuse, refuse, Value.kind_of_same h]

/-- Values without parts that are the same are written alike. -/
theorem writeSimple_congr (type : Descriptor) (plain : SimpleType) {a b : Value} (h : a.same b = true)
    (hlt : a.bitsBelow (2 ^ 63) = true) : type.writeSimple plain a = type.writeSimple plain b := by
  have hrefuse := type.refuse_congr h
  cases a <;> cases b <;> first
    | exact absurd h Bool.false_ne_true
    | rfl
    | skip
  case bits.bits a b =>
    cases plain
    case bitString size =>
      have hpack : (BitString.pack type.constraint.size type.constraint.extensible a : WriterM Unit) = BitString.pack _ _ b :=
        BitString.pack_congr h (of_decide_eq_true hlt) _ _
      exact congrArg Writer.field hpack
    all_goals exact hrefuse
  case sequence.sequence => cases plain <;> exact hrefuse
  case sequenceOf.sequenceOf => cases plain <;> exact hrefuse
  case choice.choice => cases plain <;> exact hrefuse
  all_goals
    obtain rfl := beq_iff_eq.mp h
    rfl

/-- Entries that are the same are written alike, if what writes their values does so. -/
theorem writeEntry_congr (name : String) (optional : Bool) {write : Value → WriterM Unit}
    (hw : ∀ a b : Value, a.same b = true → a.bitsBelow (2 ^ 63) = true → write a = write b) {a b : Option Value}
    (h : Value.sameOption a b = true) (hlt : Value.bitsBelowOption (2 ^ 63) a = true) :
    writeEntry name optional write a = writeEntry name optional write b := by
  cases a with
  | none =>
    cases b with
    | none => rfl
    | some b => exact absurd h Bool.false_ne_true
  | some a =>
    cases b with
    | none => exact absurd h Bool.false_ne_true
    | some b => simp only [writeEntry, hw a b h hlt]

/-- Entries of fields that are the same are written alike, if their types do so. -/
theorem writeFields_congr {fields : List (Field Descriptor)} (hf : ∀ field ∈ fields, field.type.Steadfast)
    {as bs : List (Option Value)} (h : Value.sameList as bs = true) (hlt : Value.bitsBelowList (2 ^ 63) as = true) :
    writeFields fields as = writeFields fields bs := by
  induction fields generalizing as bs with
  | nil => rw [writeFields.eq_def, writeFields.eq_def]
  | cons field fields ih =>
    cases as with
    | nil =>
      cases bs with
      | nil => rfl
      | cons b bs => exact absurd h Bool.false_ne_true
    | cons a as =>
      cases bs with
      | nil => exact absurd h Bool.false_ne_true
      | cons b bs =>
        rw [Value.sameList, Bool.and_eq_true] at h
        rw [Value.bitsBelowList, Bool.and_eq_true] at hlt
        rw [writeFields, writeFields, ih (fun f hm => hf f (List.mem_cons_of_mem _ hm)) h.2 hlt.2,
          writeEntry_congr field.name field.optional (hf field (List.mem_cons_self ..)) h.1 hlt.1]

/-- Elements that are the same are written alike, if what writes their values does so. -/
theorem writeElement_congr {write : Value → WriterM Unit}
    (hw : ∀ a b : Value, a.same b = true → a.bitsBelow (2 ^ 63) = true → write a = write b) {as bs : List (Option Value)}
    (h : Value.sameList as bs = true) (hlt : Value.bitsBelowList (2 ^ 63) as = true) (index : Nat) :
    writeElement write as.toArray index = writeElement write bs.toArray index := by
  unfold writeElement
  rw [List.getElem?_toArray, List.getElem?_toArray]
  induction as generalizing bs index with
  | nil =>
    cases bs with
    | nil => rfl
    | cons b bs => exact absurd h Bool.false_ne_true
  | cons a as ih =>
    cases bs with
    | nil => exact absurd h Bool.false_ne_true
    | cons b bs =>
      rw [Value.sameList, Bool.and_eq_true] at h
      rw [Value.bitsBelowList, Bool.and_eq_true] at hlt
      cases index with
      | succ index => exact ih h.2 hlt.2 index
      | zero =>
        cases a with
        | none =>
          cases b with
          | none => rfl
          | some b => exact absurd h.1 Bool.false_ne_true
        | some a =>
          cases b with
          | none => exact absurd h.1 Bool.false_ne_true
          | some b => exact hw a b h.1 hlt.1

/-- Payloads that are the same are written alike, if the types of the alternatives do so. -/
theorem writeAlternative_congr {alternatives : List (String × Descriptor)}
    (ha : ∀ alternative ∈ alternatives, alternative.2.Steadfast) {a b : Value} (h : a.same b = true)
    (hlt : a.bitsBelow (2 ^ 63) = true) (index : Nat) :
    writeAlternative alternatives index a = writeAlternative alternatives index b := by
  induction alternatives generalizing index with
  | nil => rfl
  | cons alternative alternatives ih =>
    cases index with
    | zero => exact ha alternative (List.mem_cons_self ..) a b h hlt
    | succ index => exact ih (fun other hm => ha other (List.mem_cons_of_mem _ hm)) index

/-- The same values are written by the same action. -/
theorem write_congr (type : Descriptor) : type.Steadfast := by
  induction type using Descriptor.induction with
  | simple name plain extensible => exact fun a b h hlt => writeSimple_congr _ plain h hlt
  | enumerated name items standard =>
    intro a b h _
    have hrefuse := (enumerated name items standard).refuse_congr h
    cases a <;> cases b <;> first
      | exact absurd h Bool.false_ne_true
      | exact hrefuse
      | skip
    obtain rfl := beq_iff_eq.mp h
    rfl
  | sequence name fields standard ih =>
    intro a b h hlt
    have hrefuse := (sequence name fields standard).refuse_congr h
    cases a <;> cases b <;> first
      | exact absurd h Bool.false_ne_true
      | exact hrefuse
      | skip
    rename_i as bs
    simp only [write, Value.length_of_sameList h, writeFields_congr ih h hlt]
  | sequenceOf name element size extensible ih =>
    intro a b h hlt
    have hrefuse := (sequenceOf name element size extensible).refuse_congr h
    cases a <;> cases b <;> first
      | exact absurd h Bool.false_ne_true
      | exact hrefuse
      | skip
    rename_i as bs
    simp only [write, List.size_toArray, Value.length_of_sameList h, funext (writeElement_congr ih h hlt)]
  | choice name alternatives standard ih =>
    intro a b h hlt
    have hrefuse := (choice name alternatives standard).refuse_congr h
    cases a <;> cases b <;> first
      | exact absurd h Bool.false_ne_true
      | exact hrefuse
      | skip
    rename_i i a j b
    obtain ⟨hij, hpayload⟩ := Bool.and_eq_true_iff.mp h
    obtain rfl := beq_iff_eq.mp hij
    cases a with
    | none =>
      cases b with
      | none => rfl
      | some b => exact absurd hpayload Bool.false_ne_true
    | some a =>
      cases b with
      | none => exact absurd hpayload Bool.false_ne_true
      | some b => simp only [write, writeAlternative_congr ih hpayload hlt]

end Descriptor

/-- Values that are the same are encoded alike or fail with the same fault, and values with the same bits are the same. -/
theorem encode_same (settings : Settings) {type : Descriptor} (ht : type.everywhere Descriptor.countable = true) {a b : Value}
    (hlt : a.bitsBelow (2 ^ 63) = true) :
    (a.same b = true → encode settings type a = encode settings type b) ∧
      ∀ e e', (encode settings type a).1 = .ok e → (encode settings type b).1 = .ok e' → e.toList = e'.toList →
        a.same b = true := by
  refine ⟨fun h => by rw [encode, encode, type.write_congr a b h hlt], fun e e' he he' heq => ?_⟩
  have hholds := holds_of_encode ht he
  have hholds' := holds_of_encode ht he'
  rw [hholds.bits, hholds'.bits] at heq
  exact (type.telling ht a b hholds.conforms hholds'.conforms).of_eq heq

/-- Lists of bit strings. -/
def Descriptor.masks : Descriptor :=
  .sequenceOf "Masks" (.simple "" (.bitString .free) false) .free false

/-- A list of one bit string of five bits, held in some octets. -/
def Value.mask (octets : Octets) : Value :=
  .sequenceOf [some (.bits ⟨octets, 5⟩)]

/-- Five bits, held in an octet with other bits behind them or in two octets. -/
theorem encode_same_masks :
    encode .standard .masks (.mask #[0xA7]) = encode .standard .masks (.mask #[0xA0, 0xFF]) ∧
      (encode .standard .masks (.mask #[0xA0, 0xFF])).1 = .ok ⟨#[0x01, 0x05, 0xA0], 21⟩ ∧
      (Value.mask #[0xA7]).same (.mask #[0xA0, 0xFF]) = true := by
  have ht : Descriptor.masks.everywhere Descriptor.countable = true := by decide +kernel
  have hsame := @encode_same .standard _ ht (.mask #[0xA7]) (.mask #[0xA0, 0xFF]) (by decide)
  have hb : (encode .standard .masks (.mask #[0xA0, 0xFF])).1 = .ok ⟨#[0x01, 0x05, 0xA0], 21⟩ := by cbv
  have hab := hsame.1 (by decide +kernel)
  exact ⟨hab, hb, hsame.2 _ _ (hab ▸ hb) hb rfl⟩

end UnalignedPer
