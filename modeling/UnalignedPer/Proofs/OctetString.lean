import UnalignedPer.OctetString
import UnalignedPer.Proofs.SizedContent

/-!
# Octet strings and open types are read back

An octet string is a sized run of the octets of its bits, an open type the run of the octets of some bits that are filled up
with zeros. What is read in either is the octets of the bits that stand there (`Octets.ofBits`).
-/

namespace UnalignedPer

namespace OctetString

/-- The octets of an octet string as units of its content. -/
def units (value : Octets) : List (List Bool) :=
  Bits.octets (Octets.bitsFrom value 0 (value.size * 8))

/-- The form of an octet string. -/
def form (size : Bounds Nat) (extensible : Bool) (value : Octets) : List Bool :=
  SizedContent.form size extensible (units value)

@[simp] theorem length_units (value : Octets) : (units value).length = value.size := by
  rw [units, Bits.length_octets, Octets.length_bitsFrom]
  omega

theorem emits_run {τ : Type} [BitSink τ] [LawfulBitSink τ] (s : τ) (value : Octets) :
    SizedContent.Emits s (fun offset count => Packer.run value (offset * 8) (count * 8)) (units value) fun _ => True := by
  intro s' bits offset count _ hc
  rw [length_units] at hc
  have hflat := Bits.flatten_octets (Octets.bitsFrom value 0 (value.size * 8)) offset count
    (by rw [Octets.length_bitsFrom]; omega)
  rw [Octets.drop_bitsFrom, Octets.take_bitsFrom, Nat.zero_add, Nat.min_eq_left (by omega)] at hflat
  rw [units, hflat]
  exact (Packer.writes_run s' value _ _).writesIf fun _ _ _ => trivial

/-- An octet string is written when its size lies within the bounds or the type is extensible. -/
theorem writesIf_pack {τ : Type} [BitSink τ] [LawfulBitSink τ] (s : τ) (size : Bounds Nat) (extensible : Bool)
    (value : Octets) :
    Packer.WritesIf s (extensible = true ∨ SizedContent.inRoot size value.size = true) (pack size extensible value)
      (form size extensible value) () := by
  have h := SizedContent.writesIf_pack (emits_run s value) size extensible
  rw [length_units] at h
  exact h.congr (and_iff_left fun _ _ => trivial)

section Unpack

variable {σ : Type} [BitSource σ] [LawfulBitSource σ]

/-- The octets of some bits are readable if there are few enough of them. -/
theorem readable_octets {bits : List Bool} {limit : Option Nat} (hl : ∀ l, limit = some l → bits.length / 8 ≤ l) :
    SizedContent.Readable 8 limit (Bits.octets bits) :=
  ⟨by rw [Bits.length_octets]; exact hl, fun _ hu => Nat.le_of_eq (Bits.length_of_mem_octets hu).symm⟩

theorem readable_units (value : Octets) {limit : Option Nat} (hl : ∀ l, limit = some l → value.size ≤ l) :
    SizedContent.Readable 8 limit (units value) := by
  refine readable_octets fun l hsome => ?_
  have := hl l hsome
  rw [Octets.length_bitsFrom]
  omega

/-- The octets of all bits of an octet string are the octet string. -/
theorem ofBits_units (value : Octets) :
    Octets.ofBits ((Octets.bitsFrom value 0 (value.size * 8)).take (value.size * 8)) = value := by
  rw [Octets.take_bitsFrom, Nat.min_self, Octets.ofBits_bitsFrom]

/-- Octets are read onto the octets of the bits read before. -/
theorem consumes_unpackChunk (s : σ) (bits : List Bool) :
    SizedContent.Consumes s unpackChunk (Bits.octets bits) fun count => Octets.ofBits (bits.take (count * 8)) := by
  intro s' n offset count _ hc
  rw [Bits.length_octets] at hc
  rw [Bits.flatten_octets bits offset count hc]
  have hfront : (bits.take (offset * 8)).length = offset * 8 := by
    rw [List.length_take]
    omega
  have hback : ((bits.drop (offset * 8)).take (count * 8)).length = count * 8 := by
    rw [List.length_take, List.length_drop]
    omega
  have hr := Unpacker.takes_run s' (Octets.growTo (Octets.ofBits (bits.take (offset * 8)))
    (Octets.countFor ((bits.take (offset * 8)).length + ((bits.drop (offset * 8)).take (count * 8)).length)))
    (bits.take (offset * 8)).length ((bits.drop (offset * 8)).take (count * 8))
  rw [Octets.overlay_ofBits, hfront, hback, ← List.take_add, ← Nat.add_mul] at hr
  have hsize : (Octets.ofBits (bits.take (offset * 8))).size = offset := by
    rw [Octets.size_ofBits, hfront, Octets.countFor]
    omega
  have hroom : Octets.countFor ((offset + count) * 8) = offset + count := by
    rw [Octets.countFor]
    omega
  rw [hroom] at hr
  unfold unpackChunk
  rw [hsize]
  exact hr

/-- An octet string is read back if its size lies within the limit. -/
theorem takes_unpack (s : σ) {size : Bounds Nat} {extensible : Bool} {value : Octets} {limit : Option Nat}
    (hl : ∀ l, limit = some l → value.size ≤ l)
    (hs : extensible = true ∨ SizedContent.inRoot size value.size = true) :
    Unpacker.Takes s (unpack size extensible limit) (form size extensible value) value := by
  have h := SizedContent.takes_unpack (consumes_unpackChunk s (Octets.bitsFrom value 0 (value.size * 8)))
    (readable_units value hl) size (by rw [← units, length_units]; exact hs)
  rw [← units, length_units, ofBits_units, Nat.zero_mul, List.take_zero, Octets.ofBits_nil] at h
  exact h

/-- The size of an octet string that is read lies within the limit, and within the bounds unless the type is extensible. -/
theorem gives_unpack (s : σ) {size : Bounds Nat} (ho : size.Ordered) (extensible : Bool) (limit : Option Nat) :
    Unpacker.Gives s (unpack size extensible limit) fun value =>
      (∀ l, limit = some l → value.size ≤ l) ∧ (extensible = true ∨ SizedContent.inRoot size value.size = true) := by
  have hk : SizedContent.Keeps s unpackChunk fun total (data : Octets) => data.size = total := by
    intro s' n total before count _ hb
    refine (Unpacker.gives_run s' _ _ _).weaken fun data hd => ?_
    simp only [hd, Octets.size_growTo, hb]
    omega
  refine (SizedContent.gives_unpack hk ho extensible 8 limit rfl).weaken ?_
  rintro value ⟨total, rfl, hl, hs⟩
  exact ⟨hl, hs⟩

end Unpack

end OctetString

namespace OpenType

/-- The number of octets of an open type that holds some bits, at least one. -/
def octetCount (bits : List Bool) : Nat :=
  max 1 (Octets.countFor bits.length)

/-- Some bits filled up with zeros to whole octets, at least one. -/
def padded (bits : List Bool) : List Bool :=
  bits ++ List.replicate (octetCount bits * 8 - bits.length) false

/-- The form of an open type that holds some bits. -/
def form (bits : List Bool) : List Bool :=
  SizedContent.fragments (Bits.octets (padded bits))

theorem length_padded (bits : List Bool) : (padded bits).length = octetCount bits * 8 := by
  simp only [padded, octetCount, Octets.countFor, List.length_append, List.length_replicate]
  omega

@[simp] theorem length_octets_padded (bits : List Bool) : (Bits.octets (padded bits)).length = octetCount bits := by
  rw [Bits.length_octets, length_padded]
  omega

/-- An open type takes its octets at least. -/
theorem octetCount_le_length_form (bits : List Bool) : octetCount bits * 8 ≤ (form bits).length := by
  have hwide := SizedContent.le_length_flatten (Bits.octets (padded bits)) fun u hu =>
    Nat.le_of_eq (Bits.length_of_mem_octets hu).symm
  rw [length_octets_padded] at hwide
  exact Nat.le_trans hwide (SizedContent.length_flatten_le_fragments _)

/-- An open type holds its bits. -/
theorem length_le_octetCount (bits : List Bool) : bits.length ≤ octetCount bits * 8 := by
  rw [← length_padded, padded, List.length_append]
  omega

/-- The octets that a clean buffer hands to an open type are its bits, filled up with zeros. -/
theorem bitsFrom_content {b : BitBuffer} (hc : b.Clean) :
    OctetString.units (if b.writePosition = 0 then #[0] else b.content) = Bits.octets (padded b.toList) := by
  have hsize : (if b.writePosition = 0 then #[0] else b.content).size = octetCount b.toList := by
    rw [octetCount, BitBuffer.length_toList]
    split
    · rename_i h
      rw [h]
      rfl
    · rw [BitBuffer.size_content hc]
      simp only [Octets.countFor]
      omega
  have hbit : ∀ q, Octets.getBit (if b.writePosition = 0 then #[0] else b.content) q = Octets.getBit b.storage q := by
    intro q
    split
    · rename_i h
      rw [hc.blank q (by omega)]
      by_cases hq : q / 8 = 0
      · rw [Octets.getBit_eq, hq]
        simp [Octets.octetAt]
      · exact Octets.getBit_of_le _ (by simp only [List.size_toArray, List.length_singleton]; omega)
    · exact BitBuffer.getBit_content hc q
  rw [OctetString.units, hsize]
  congr 1
  apply List.ext_getElem
  · rw [Octets.length_bitsFrom, length_padded]
  · intro i h1 h2
    rw [Octets.getElem_bitsFrom, Nat.zero_add, hbit]
    simp only [padded, List.getElem_append, BitBuffer.length_toList, List.getElem_replicate]
    split
    · simp only [BitBuffer.toList, Octets.getElem_bitsFrom, Nat.zero_add]
    · exact hc.blank i (by omega)

/-- The content of a clean buffer is written as an open type of its bits. -/
theorem writes_pack {τ : Type} [BitSink τ] [LawfulBitSink τ] (s : τ) {b : BitBuffer} (hc : b.Clean) :
    Packer.Writes s (pack (if b.writePosition = 0 then #[0] else b.content)) (form b.toList) () := by
  have h := (OctetString.writesIf_pack s .free false (if b.writePosition = 0 then #[0] else b.content)).1
    (Or.inr (SizedContent.inRoot_free _))
  rw [OctetString.form, bitsFrom_content hc, SizedContent.form_free] at h
  exact h

section Skip

variable {σ : Type} [BitSource σ]

@[simp] theorem skipOctets_zero : (skipOctets 0 : Unpacker σ Unit) = pure () := by
  rw [skipOctets, dif_neg (Nat.lt_irrefl 0)]

/-- Octets are skipped by one step and those behind it. -/
theorem skipOctets_pos {count : Nat} (h : 0 < count) :
    (skipOctets count : Unpacker σ Unit) = Unpacker.run (Octets.growTo #[] stepSize) 0 (min count stepSize * 8) >>=
      fun _ => skipOctets (count - min count stepSize) := by
  rw [skipOctets, dif_pos h]

omit [BitSource σ] in
/-- What goes for no octets, and for a step if it goes for those behind it, goes for any number of octets. -/
@[elab_as_elim]
theorem stepwise {P : Nat → Prop} (zero : P 0) (step : ∀ count, 0 < count → P (count - min count stepSize) → P count)
    (count : Nat) : P count :=
  skipOctets.induct P step (fun _ none => Nat.eq_zero_of_not_pos none ▸ zero) count

variable [LawfulBitSource σ]

/-- However many steps it takes, all of the octets are skipped, and nothing behind them. -/
theorem takes_skipOctets (s : σ) {count : Nat} {bits : List Bool} (hl : bits.length = count * 8) :
    Unpacker.Takes s (skipOctets count) bits () := by
  induction count using stepwise generalizing s bits with
  | zero =>
    rw [skipOctets_zero, List.eq_nil_of_length_eq_zero (hl.trans (Nat.zero_mul 8))]
    exact Unpacker.takes_pure s ()
  | step count more ih =>
    rw [skipOctets_pos more]
    have hstep := Nat.min_le_left count stepSize
    generalize min count stepSize = step at *
    have hfirst : (bits.take (step * 8)).length = step * 8 := by
      rw [List.length_take]
      omega
    have hrun := Unpacker.takes_run s (Octets.growTo #[] stepSize) 0 (bits.take (step * 8))
    rw [hfirst] at hrun
    rw [← List.take_append_drop (step * 8) bits]
    refine hrun.bind fun s1 _ => ih s1 ?_
    rw [List.length_drop]
    omega

/-- Octets that are skipped are read and forgotten. -/
theorem consumes_skipOctets (s : σ) (bits : List Bool) :
    SizedContent.Consumes s (fun (_ : Unit) count => skipOctets count) (Bits.octets bits) fun _ => () := by
  intro s' n offset count _ hc
  rw [Bits.length_octets] at hc
  rw [Bits.flatten_octets _ offset count hc]
  refine takes_skipOctets s' ?_
  rw [List.length_take, List.length_drop]
  omega

/-- Whatever is skipped, the cursor has moved forward. -/
theorem gives_skipOctets (s : σ) (count : Nat) : Unpacker.Gives s (skipOctets count) fun _ => True := by
  induction count using stepwise generalizing s with
  | zero =>
    rw [skipOctets_zero]
    exact Unpacker.gives_pure s trivial
  | step count more ih =>
    rw [skipOctets_pos more]
    exact (Unpacker.gives_run s _ _ _).bind fun _ s1 _ _ _ => ih s1

end Skip

/-- An open type of any length is skipped. -/
theorem takes_skip {σ : Type} [BitSource σ] [LawfulBitSource σ] (s : σ) (bits : List Bool) :
    Unpacker.Takes s skip (form bits) () := by
  have h : Unpacker.Takes s skip (SizedContent.form .free false (Bits.octets (padded bits))) () :=
    SizedContent.takes_unpack (consumes_skipOctets s (padded bits)) (OctetString.readable_octets fun _ hl => (by cases hl)) .free
      (Or.inr (SizedContent.inRoot_free _))
  rw [SizedContent.form_free] at h
  exact h

end OpenType

end UnalignedPer
