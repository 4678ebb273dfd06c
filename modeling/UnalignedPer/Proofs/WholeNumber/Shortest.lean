import UnalignedPer.Proofs.SizedContent.Recovery
import UnalignedPer.Proofs.WholeNumber

/-!
# Free numbers are written in their shortest form

A free number is an octet that counts, and as many octets behind it (`WholeNumber.counted`). A number of 64 bits can be read from
several such forms. The one that is written has as few octets as hold the number, no other form with that few is read as it, and
the longer ones are those with copies of the sign in front (`WholeNumber.Shortest`). So it is for numbers in two's complement and
for unsigned ones (`WholeNumber.free_forms_shortest`).
-/

namespace UnalignedPer

namespace Octets

/-- An octet that is filled with one bit. -/
def filled (bit : Bool) : UInt8 :=
  if bit then 0xFF else 0

/-- An octet of two parts in a row is one of the front or one of the back. -/
theorem octetAt_append (front back : Octets) (i : Nat) :
    octetAt (front ++ back) i = if i < front.size then octetAt front i else octetAt back (i - front.size) := by
  simp only [octetAt, Array.getD_eq_getD_getElem?]
  split
  · rename_i h
    rw [Array.getElem?_append_left h]
  · rename_i h
    rw [Array.getElem?_append_right (Nat.not_lt.mp h)]

/-- All bits of a filled octet are the same. -/
theorem getLsbD_filled (bit : Bool) {i : Nat} (h : i < 8) : (filled bit).toBitVec.getLsbD i = bit := by
  have key : ∀ (bit : Bool) (i : Fin 8), (filled bit).toBitVec.getLsbD i.val = bit := by decide
  exact key bit ⟨i, h⟩

/-- The bits of octets with filled ones in front. -/
theorem bitsFrom_filled_append (bit : Bool) (count : Nat) (octets : Octets) :
    bitsFrom (Array.replicate count (filled bit) ++ octets) 0 ((count + octets.size) * 8) =
      List.replicate (count * 8) bit ++ bitsFrom octets 0 (octets.size * 8) := by
  apply List.ext_getElem
  · simp only [length_bitsFrom, List.length_append, List.length_replicate]
    omega
  · intro i h1 h2
    rw [length_bitsFrom] at h1
    rw [getElem_bitsFrom, Nat.zero_add, getBit_eq, octetAt_append, Array.size_replicate]
    by_cases hi : i < count * 8
    · have hoctet : octetAt (Array.replicate count (filled bit)) (i / 8) = filled bit := by
        rw [octetAt, Array.getD_eq_getD_getElem?, Array.getElem?_replicate, if_pos (by omega), Option.getD_some]
      rw [if_pos (by omega), hoctet, getLsbD_filled bit (by omega), List.getElem_append_left (by simpa using hi),
        List.getElem_replicate]
    · rw [if_neg (by omega), List.getElem_append_right (by simpa using hi), getElem_bitsFrom, getBit_eq,
        List.length_replicate, Nat.zero_add, show (i - count * 8) / 8 = i / 8 - count by omega,
        show (i - count * 8) % 8 = i % 8 by omega]

end Octets

namespace Bits

/-- Digits are read on behind other digits. -/
theorem below_append (high : Nat) (front back : List Bool) : below high (front ++ back) = below (below high front) back := by
  induction front generalizing high with
  | nil => rfl
  | cons bit rest ih => exact ih _

/-- The number of digits behind those of another one. -/
theorem below_eq (high : Nat) (bits : List Bool) : below high bits = high * 2 ^ bits.length + toNat bits := by
  have h := below_ofNat high (toNat bits) bits.length
  rwa [ofNat_toNat, Nat.mod_eq_of_lt (toNat_lt bits)] at h

/-- The number of digits in two parts counts the first part higher by the length of the second. -/
theorem toNat_append (front back : List Bool) : toNat (front ++ back) = toNat front * 2 ^ back.length + toNat back := by
  rw [toNat, below_append, below_eq]
  rfl

/-- The number of copies of one digit. -/
theorem toNat_replicate (bit : Bool) (count : Nat) : toNat (List.replicate count bit) = if bit then 2 ^ count - 1 else 0 := by
  induction count with
  | zero => cases bit <;> rfl
  | succ count ih =>
    have hpos := Nat.two_pow_pos count
    rw [List.replicate_succ, toNat, below, below_eq, ih, List.length_replicate]
    cases bit with
    | false => simp
    | true =>
      rw [if_pos rfl, if_pos rfl, Nat.pow_succ, Bool.toNat_true]
      omega

end Bits

namespace WholeNumber

open LengthDeterminant

/-! ## Octets that are counted -/

/-- An octet with the number of some octets, and these octets. -/
def counted (octets : Octets) : List Bool :=
  Bits.ofNat octets.size 8 ++ Octets.bitsFrom octets 0 (octets.size * 8)

/-- The number that some octets are the digits of. -/
def magnitude (octets : Octets) : Nat :=
  Bits.toNat (Octets.bitsFrom octets 0 (octets.size * 8))

/-- The word that some octets are the digits of. -/
def unsigned (octets : Octets) : UInt64 :=
  UInt64.ofNat (magnitude octets)

/-- The number that some octets stand for in two's complement. -/
def signed (octets : Octets) : Int64 :=
  Width.signExtend (unsigned octets) (octets.size * 8)

/-- The number of some octets is below the power of two of their digits. -/
theorem magnitude_lt (octets : Octets) : magnitude octets < 2 ^ (octets.size * 8) := by
  have h := Bits.toNat_lt (Octets.bitsFrom octets 0 (octets.size * 8))
  rwa [Octets.length_bitsFrom] at h

/-- As many octets with the same number are the same. -/
theorem eq_of_magnitude {a b : Octets} (hsize : a.size = b.size) (h : magnitude a = magnitude b) : a = b := by
  have hbits : Octets.bitsFrom a 0 (a.size * 8) = Octets.bitsFrom b 0 (b.size * 8) := by
    rw [← Bits.ofNat_toNat (Octets.bitsFrom a 0 _), ← Bits.ofNat_toNat (Octets.bitsFrom b 0 _), Octets.length_bitsFrom,
      Octets.length_bitsFrom]
    exact congrArg₂ Bits.ofNat h (congrArg (· * 8) hsize)
  rw [← Octets.ofBits_bitsFrom a, hbits, Octets.ofBits_bitsFrom]

/-- Filled octets in front are the highest digits. -/
theorem magnitude_filled_append (bit : Bool) (count : Nat) (octets : Octets) :
    magnitude (Array.replicate count (Octets.filled bit) ++ octets) =
      (if bit then 2 ^ (count * 8) - 1 else 0) * 2 ^ (octets.size * 8) + magnitude octets := by
  rw [magnitude, Array.size_append, Array.size_replicate, Octets.bitsFrom_filled_append, Bits.toNat_append, Bits.toNat_replicate,
    Octets.length_bitsFrom]
  rfl

/-- The octets of the low digits of a number. -/
theorem size_ofBits_ofNat (value count : Nat) : (Octets.ofBits (Bits.ofNat value (count * 8))).size = count := by
  rw [Octets.size_ofBits, Bits.length_ofNat, Octets.countFor]
  omega

/-- The digits of a number are the bits of the octets that are made of them. -/
theorem bitsFrom_ofBits_ofNat (value count : Nat) :
    Octets.bitsFrom (Octets.ofBits (Bits.ofNat value (count * 8))) 0 (count * 8) = Bits.ofNat value (count * 8) := by
  have hlen := Bits.length_ofNat value (count * 8)
  rw [Octets.bitsFrom_ofBits _ _ _ (by omega), List.drop_zero, List.take_of_length_le (by omega)]

/-- Octets that are made of the digits of a number have it for their number, as far as they reach. -/
theorem magnitude_ofBits_ofNat (value count : Nat) :
    magnitude (Octets.ofBits (Bits.ofNat value (count * 8))) = value % 2 ^ (count * 8) := by
  rw [magnitude, size_ofBits_ofNat, bitsFrom_ofBits_ofNat, Bits.toNat, Bits.below_ofNat, Nat.zero_mul, Nat.zero_add]

/-! ## The numbers that octets stand for -/

/-- Up to eight octets are a word without loss. -/
theorem toNat_unsigned {octets : Octets} (h8 : octets.size ≤ 8) : (unsigned octets).toNat = magnitude octets := by
  have hword : 2 ^ (octets.size * 8) ≤ 2 ^ 64 := Nat.pow_le_pow_right (by decide) (by omega)
  exact UInt64.toNat_ofNat_of_lt' (Nat.lt_of_lt_of_le (magnitude_lt octets) hword)

/-- Up to eight octets stand for their number in two's complement. -/
theorem toInt_signed {octets : Octets} (h8 : octets.size ≤ 8) :
    (signed octets).toInt = Int.bmod (magnitude octets) (2 ^ (octets.size * 8)) := by
  have hword := toNat_unsigned h8
  rw [signed, Width.toInt_signExtend _ (by omega) (by rw [hword]; exact magnitude_lt octets), hword]

/-- The octets of a number in two's complement are the digits of the number modulo their range. -/
theorem magnitude_eq_emod {octets : Octets} (h8 : octets.size ≤ 8) :
    (magnitude octets : Int) = (signed octets).toInt % 2 ^ (octets.size * 8) := by
  rw [toInt_signed h8, ← Width.natCast_two_pow, Int.bmod_emod, ← Int.natCast_emod, Nat.mod_eq_of_lt (magnitude_lt octets)]

/-- A number in two's complement lies in the range of its octets. -/
theorem signed_fits {octets : Octets} (h1 : 1 ≤ octets.size) (h8 : octets.size ≤ 8) :
    -2 ^ (octets.size * 8 - 1) ≤ (signed octets).toInt ∧ (signed octets).toInt < 2 ^ (octets.size * 8 - 1) := by
  rw [toInt_signed h8]
  exact (Width.bmod_two_pow _ (by omega)).1

/-- Octets with copies of the sign in front have the digits of the same number modulo the larger range. -/
theorem magnitude_sign_append {octets : Octets} (count : Nat) (h1 : 1 ≤ octets.size) (h8 : octets.size ≤ 8) :
    (magnitude (Array.replicate count (Octets.filled (signed octets < 0)) ++ octets) : Int) =
      if (signed octets).toInt < 0 then (signed octets).toInt + (2 ^ ((count + octets.size) * 8) : Nat)
      else (signed octets).toInt := by
  have hmag := magnitude_eq_emod h8
  have hfits := signed_fits h1 h8
  have hneg : signed octets < 0 ↔ (signed octets).toInt < 0 := Int64.lt_iff_toInt_lt
  have hfront : 2 ^ ((count + octets.size) * 8) = 2 ^ (count * 8) * 2 ^ (octets.size * 8) := by
    rw [← Nat.pow_add, Nat.add_mul]
  have hhalf : 2 ^ (octets.size * 8 - 1) ≤ 2 ^ (octets.size * 8) := Nat.pow_le_pow_right (by decide) (by omega)
  have hle : 2 ^ (octets.size * 8) ≤ 2 ^ (count * 8) * 2 ^ (octets.size * 8) :=
    Nat.le_mul_of_pos_left _ (Nat.two_pow_pos _)
  rw [← Width.natCast_two_pow] at hmag hfits
  rw [magnitude_filled_append, hfront]
  by_cases h : (signed octets).toInt < 0
  · rw [if_pos h, decide_eq_true (hneg.mpr h), if_pos rfl, Nat.sub_one_mul]
    rw [← Int.add_emod_right, Int.emod_eq_of_lt (by omega) (by omega)] at hmag
    omega
  · rw [if_neg h, decide_eq_false (fun hn => h (hneg.mp hn)), if_neg Bool.false_ne_true, Nat.zero_mul, Nat.zero_add, hmag]
    exact Int.emod_eq_of_lt (by omega) (by omega)

/-- Octets with copies of the sign in front stand for the same number. -/
theorem signed_filled_append {octets : Octets} {count : Nat} (h1 : 1 ≤ octets.size) (h8 : count + octets.size ≤ 8) :
    signed (Array.replicate count (Octets.filled (signed octets < 0)) ++ octets) = signed octets := by
  have hsize : (Array.replicate count (Octets.filled (signed octets < 0)) ++ octets).size = count + octets.size := by
    rw [Array.size_append, Array.size_replicate]
  have hfits := signed_fits h1 (by omega)
  have hpow : 2 ^ (octets.size * 8 - 1) ≤ 2 ^ ((count + octets.size) * 8 - 1) := Nat.pow_le_pow_right (by decide) (by omega)
  have hwidth : 1 ≤ (count + octets.size) * 8 := by omega
  have hself := (Width.bmod_two_pow (signed octets).toInt hwidth).2
  rw [← Width.natCast_two_pow] at hfits hself
  apply Int64.toInt.inj
  rw [toInt_signed (by omega), hsize, magnitude_sign_append count h1 (by omega)]
  split
  · rw [Int.add_bmod_right]
    exact hself (by omega) (by omega)
  · exact hself (by omega) (by omega)

/-- As many octets with the same number in two's complement are the same. -/
theorem eq_of_signed {a b : Octets} (h8 : b.size ≤ 8) (hsize : a.size = b.size) (h : signed a = signed b) : a = b := by
  have ha := magnitude_eq_emod (hsize ▸ h8)
  have hb := magnitude_eq_emod h8
  rw [h, hsize, ← hb] at ha
  exact eq_of_magnitude hsize (Int.ofNat_inj.mp ha)

/-- As many octets with the same unsigned number are the same. -/
theorem eq_of_unsigned {a b : Octets} (h8 : b.size ≤ 8) (hsize : a.size = b.size) (h : unsigned a = unsigned b) : a = b := by
  refine eq_of_magnitude hsize ?_
  rw [← toNat_unsigned (hsize ▸ h8), ← toNat_unsigned h8, h]

/-! ## How many octets a number takes -/

/-- No fewer octets than those of a number in two's complement have a range that holds it. -/
theorem signedOctets_le {value : Int64} {count : Nat} (h1 : 1 ≤ count) (hlo : -2 ^ (count * 8 - 1) ≤ value.toInt)
    (hhi : value.toInt < 2 ^ (count * 8 - 1)) : Width.signedOctets value ≤ count := by
  have hmag := Width.toNat_magnitude value
  have hlt : (if value < 0 then ~~~value.toUInt64 else value.toUInt64).toNat < 2 ^ (count * 8 - 1) := by
    rw [← Width.natCast_two_pow] at hlo hhi
    by_cases hv : value.toInt < 0
    · rw [if_pos hv] at hmag
      omega
    · rw [if_neg hv] at hmag
      omega
  have hwidth := Width.ofNat_le hlt
  simp only [Width.signedOctets, Width.ofWord]
  omega

/-- No fewer octets than those of a natural number have a range that holds it. -/
theorem octetsOf_le {value count : Nat} (h1 : 1 ≤ count) (h : value < 2 ^ (count * 8)) : octetsOf value ≤ count := by
  have hwidth := Width.ofNat_le h
  simp only [octetsOf, Octets.countFor]
  omega

/-! ## Reading and writing counted octets -/

/-- Up to eight octets are counted in one octet. -/
theorem freeForm_eq_ofNat {count : Nat} (h : count ≤ 8) : freeForm count = Bits.ofNat count 8 := by
  have htop : count.testBit 7 = false := Nat.testBit_lt_two_pow (by omega)
  rw [freeForm, if_pos (by simp only [shortLimit]; omega), ← htop]
  rfl

section Unpack

variable {σ : Type} [BitSource σ] [LawfulBitSource σ]

/-- Counted octets are read as the word that they are the digits of. -/
theorem takes_unpackMagnitude_counted (s : σ) {octets : Octets} (h1 : 1 ≤ octets.size) (h8 : octets.size ≤ 8) :
    Unpacker.Takes s unpackMagnitude (counted octets) (unsigned octets) := by
  rw [counted, ← freeForm_eq_ofNat h8]
  refine (takes_unpackOctetCount s ⟨h1, h8⟩).bind fun s1 _ => ?_
  exact Unpacker.takes_word s1 (Octets.length_bitsFrom _ _ _) (by omega)

/-- Counted octets are read as the number that they stand for. -/
theorem takes_unpackFree_counted (s : σ) {octets : Octets} (h1 : 1 ≤ octets.size) (h8 : octets.size ≤ 8) :
    Unpacker.Takes s unpackFree (counted octets) (signed octets) := by
  rw [counted, ← freeForm_eq_ofNat h8]
  refine (takes_unpackOctetCount s ⟨h1, h8⟩).bind fun s1 _ => ?_
  exact (Unpacker.takes_word s1 (Octets.length_bitsFrom _ _ _) (by omega)).map (Width.signExtend · (octets.size * 8))

end Unpack

/-- The number is written as some octets that are counted, as few as have a range that holds it. Of all counted octets that it is
read from, these are the fewest and the only ones that are so few, and copies of the fill octet in front of them change nothing. -/
structure Shortest {α : Type} (holds : Nat → Prop) (fill : UInt8) (pack : ∀ (τ : Type) [BitSink τ], Packer τ Unit)
    (unpack : ∀ (σ : Type) [BitSource σ], Unpacker σ α) (value : α) (octets : Octets) : Prop where
  /-- There are one to eight octets. -/
  size : 1 ≤ octets.size ∧ octets.size ≤ 8
  /-- Their range holds the number. -/
  enough : holds octets.size
  /-- The range of fewer octets does not. -/
  least : ∀ count, 1 ≤ count → holds count → octets.size ≤ count
  /-- The number is written as them, whatever was written before. -/
  written : ∀ (τ : Type) [BitSink τ] [LawfulBitSink τ] (t : τ), Packer.Writes t (pack τ) (counted octets) ()
  /-- Octets that it is read from are no fewer, and no others if they are as many. -/
  only : ∀ other : Octets, 1 ≤ other.size → other.size ≤ 8 →
    ∀ (σ : Type) [BitSource σ] [LawfulBitSource σ] (s s' : σ),
      counted other <+: LawfulBitSource.ahead s → unpack σ s = .ok value s' →
        octets.size ≤ other.size ∧ (other.size = octets.size → other = octets)
  /-- It is read from the longer forms with fill octets in front, and from the octets alone. -/
  filled : ∀ count, count + octets.size ≤ 8 → ∀ (σ : Type) [BitSource σ] [LawfulBitSource σ] (s : σ),
    Unpacker.Takes s (unpack σ) (counted (Array.replicate count fill ++ octets)) value

/-- It is enough to know which number counted octets are read as. -/
theorem Shortest.of_number {α : Type} {holds : Nat → Prop} {fill : UInt8} {pack : ∀ (τ : Type) [BitSink τ], Packer τ Unit}
    {unpack : ∀ (σ : Type) [BitSource σ], Unpacker σ α} {value : α} {octets : Octets} (number : Octets → α)
    (htakes : ∀ (σ : Type) [BitSource σ] [LawfulBitSource σ] (s : σ) (other : Octets), 1 ≤ other.size → other.size ≤ 8 →
      Unpacker.Takes s (unpack σ) (counted other) (number other))
    (hholds : ∀ other : Octets, 1 ≤ other.size → other.size ≤ 8 → number other = value → holds other.size)
    (heq : ∀ other : Octets, other.size = octets.size → number other = value → other = octets)
    (hfilled : ∀ count, count + octets.size ≤ 8 → number (Array.replicate count fill ++ octets) = value)
    (hsize : 1 ≤ octets.size ∧ octets.size ≤ 8) (hleast : ∀ count, 1 ≤ count → holds count → octets.size ≤ count)
    (hwrites : ∀ (τ : Type) [BitSink τ] [LawfulBitSink τ] (t : τ), Packer.Writes t (pack τ) (counted octets) ()) :
    Shortest holds fill pack unpack value octets where
  size := hsize
  enough := hholds octets hsize.1 hsize.2 (by simpa using hfilled 0 (by omega))
  least := hleast
  written := hwrites
  only other h1 h8 σ _ _ s s' hahead hread := by
    obtain ⟨s1, htaken, -⟩ := htakes σ s other h1 h8 hahead
    have hnumber : number other = value := by
      rw [hread] at htaken
      cases htaken
      rfl
    exact ⟨hleast _ h1 (hholds other h1 h8 hnumber), fun hsame => heq other hsame hnumber⟩
  filled count hcount σ _ _ s := by
    have hlonger : (Array.replicate count fill ++ octets).size = count + octets.size := by
      rw [Array.size_append, Array.size_replicate]
    have htaken := htakes σ s (Array.replicate count fill ++ octets) (by omega) (by omega)
    rwa [hfilled count hcount] at htaken

/-- A free number is written as the fewest octets that hold it in two's complement. -/
theorem shortest_signed (value : Int64) :
    Shortest (fun count => -2 ^ (count * 8 - 1) ≤ value.toInt ∧ value.toInt < 2 ^ (count * 8 - 1))
      (Octets.filled (value < 0)) (fun _ _ => packFree value) (fun _ _ => unpackFree) value
      (Octets.ofBits (Bits.ofNat value.toUInt64.toNat (Width.signedOctets value * 8))) := by
  have hsize := size_ofBits_ofNat value.toUInt64.toNat (Width.signedOctets value)
  have hb := Width.signedOctets_bounds value
  have hfits := Width.signedOctets_fits value
  have hnumber : signed (Octets.ofBits (Bits.ofNat value.toUInt64.toNat (Width.signedOctets value * 8))) = value := by
    rw [signed, unsigned, magnitude_ofBits_ofNat, hsize]
    exact Width.signExtend_low value (by omega) (by omega) hfits.1 hfits.2
  refine .of_number signed (fun σ _ _ s other => takes_unpackFree_counted s) ?_ ?_ ?_ (by omega) ?_ ?_
  · rintro other h1 h8 rfl
    exact signed_fits h1 h8
  · intro other hother h
    exact eq_of_signed (by omega) hother (h.trans hnumber.symm)
  · intro count hcount
    have hfilled := signed_filled_append (by omega) hcount
    rwa [hnumber] at hfilled
  · rintro count h1 ⟨hlo, hhi⟩
    rw [hsize]
    exact signedOctets_le h1 hlo hhi
  · intro τ _ _ t
    have hwrites := writes_packFree_signed t value
    rw [signedForm, freeForm_eq_ofNat hb.2] at hwrites
    rwa [counted, hsize, bitsFrom_ofBits_ofNat]

/-- An unsigned number without bounds is written as the fewest octets that it is the digits of. -/
theorem shortest_unsigned (value : UInt64) :
    Shortest (fun count => value.toNat < 2 ^ (count * 8)) 0 (fun _ _ => packUnsigned .free value)
      (fun _ _ => unpackUnsigned .free) value (Octets.ofBits (Bits.ofNat value.toNat (octetsOf value.toNat * 8))) := by
  have hsize := size_ofBits_ofNat value.toNat (octetsOf value.toNat)
  have hb := octetsOf_bounds value.toNat_lt
  have hnumber : unsigned (Octets.ofBits (Bits.ofNat value.toNat (octetsOf value.toNat * 8))) = value := by
    rw [unsigned, magnitude_ofBits_ofNat, Nat.mod_eq_of_lt (lt_octetsOf _), UInt64.ofNat_toNat]
  refine .of_number unsigned (fun σ _ _ s other => takes_unpackMagnitude_counted s) ?_ ?_ ?_ (by omega) ?_ ?_
  · rintro other - h8 rfl
    rw [toNat_unsigned h8]
    exact magnitude_lt other
  · intro other hother h
    exact eq_of_unsigned (by omega) hother (h.trans hnumber.symm)
  · intro count hcount
    have hzeros := magnitude_filled_append false count (Octets.ofBits (Bits.ofNat value.toNat (octetsOf value.toNat * 8)))
    rw [if_neg Bool.false_ne_true, Nat.zero_mul, Nat.zero_add] at hzeros
    exact (congrArg UInt64.ofNat hzeros).trans hnumber
  · intro count h1 h
    rw [hsize]
    exact octetsOf_le h1 h
  · intro τ _ _ t
    have hwrites := writes_packMagnitude t value
    rw [magnitudeForm, freeForm_eq_ofNat hb.2] at hwrites
    rwa [counted, hsize, bitsFrom_ofBits_ofNat]

/-- Free numbers of 64 bits, signed or not, are written in a shortest form, which is the only one of its length that they are read
from. The longer forms that they are read from as well have copies of the sign in front, or zeros. -/
theorem free_forms_shortest :
    (∀ value : Int64, ∃ octets,
        Shortest (fun count => -2 ^ (count * 8 - 1) ≤ value.toInt ∧ value.toInt < 2 ^ (count * 8 - 1))
          (Octets.filled (value < 0)) (fun _ _ => packFree value) (fun _ _ => unpackFree) value octets) ∧
      ∀ value : UInt64, ∃ octets,
        Shortest (fun count => value.toNat < 2 ^ (count * 8)) 0 (fun _ _ => packUnsigned .free value)
          (fun _ _ => unpackUnsigned .free) value octets :=
  ⟨fun value => ⟨_, shortest_signed value⟩, fun value => ⟨_, shortest_unsigned value⟩⟩

/-- The least number of eight octets takes all of them, and the greatest of one octet may have zeros in front. -/
example :
    Width.signedOctets Int64.minValue = 8 ∧ Width.signedOctets 127 = 1 ∧ Width.signedOctets 128 = 2 ∧
      signed #[0, 0, 0x7F] = 127 ∧ signed #[0xFF, 0x80] = -128 := by
  decide +kernel

end WholeNumber

end UnalignedPer
