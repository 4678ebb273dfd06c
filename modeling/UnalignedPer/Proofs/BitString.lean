import UnalignedPer.BitString
import UnalignedPer.Proofs.SizedContent

/-!
# Bit strings are read back

A bit string stands for its bits (`BitString.toList`). What is read is the bit string that holds the same bits in as few octets
as possible (`BitString.tidy`), which is the same as the one written (`BitString.same_tidy`).
-/

namespace UnalignedPer

namespace BitString

/-- The bits of a bit string. -/
def toList (value : BitString) : List Bool :=
  Octets.bitsFrom value.octets 0 value.length.toNat

/-- Whether the octets hold all of the bit string. -/
def covered (value : BitString) : Bool :=
  value.length.toNat ≤ value.octets.size * 8

/-- The same bits in as few octets as hold them. -/
def tidy (value : BitString) : BitString :=
  ⟨Octets.ofBits value.toList, value.length⟩

/-- The form of a bit string. -/
def form (size : Bounds Nat) (extensible : Bool) (value : BitString) : List Bool :=
  SizedContent.form size extensible (Bits.singles value.toList)

@[simp] theorem length_toList (value : BitString) : value.toList.length = value.length.toNat :=
  Octets.length_bitsFrom _ _ _

/-- Octets that are counted in words are no more than there are. -/
theorem toNat_octetCount_le (length : UInt64) : (octetCount length).toNat ≤ Octets.countFor length.toNat := by
  rw [octetCount, UInt64.toNat_div, UInt64.toNat_add]
  exact Nat.div_le_div_right (Nat.mod_le _ _)

/-- A bit string is the same as its tidy form. -/
theorem same_tidy {value : BitString} (h : value.covered = true) : value.tidy.same value = true := by
  have hcov := of_decide_eq_true h
  have hn := toNat_octetCount_le value.length
  have hbits : Octets.bitsFrom (Octets.ofBits value.toList) 0 value.length.toNat =
      Octets.bitsFrom value.octets 0 value.length.toNat := by
    rw [Octets.bitsFrom_ofBits _ _ _ (by rw [length_toList]; omega), List.drop_zero,
      List.take_of_length_le (Nat.le_of_eq (length_toList value)), toList]
  simp only [same, tidy, Octets.agreeOn_eq, hbits, decide_true, Bool.and_true, beq_self_eq_true, Bool.true_and,
    Bool.and_eq_true, decide_eq_true_eq, Octets.size_ofBits, length_toList]
  refine ⟨hn, decide_eq_true (Nat.le_trans hn ?_)⟩
  simp only [Octets.countFor]
  omega

/-- A bit string is written when its octets hold all of it and its size lies within the bounds or the type is extensible. -/
theorem writesIf_pack {τ : Type} [BitSink τ] [LawfulBitSink τ] (s : τ) (size : Bounds Nat) (extensible : Bool)
    (value : BitString) :
    Packer.WritesIf s
      (value.covered = true ∧ (extensible = true ∨ SizedContent.inRoot size value.length.toNat = true))
      (pack size extensible value) (form size extensible value) () := by
  unfold pack
  by_cases hc : value.length.toNat > value.octets.size * 8
  · rw [if_pos hc]
    refine (Packer.fails_throw s _).writesIf ?_ _ _
    rintro ⟨h, _⟩
    have := of_decide_eq_true h
    omega
  · rw [if_neg hc]
    have hcov : value.covered = true := decide_eq_true (Nat.not_lt.mp hc)
    have hemit : SizedContent.Emits s (Packer.run value.octets) (Bits.singles value.toList) fun _ => True := by
      intro s' bits offset count _ hle
      rw [Bits.length_singles, length_toList] at hle
      rw [Bits.flatten_singles, toList, Octets.drop_bitsFrom, Octets.take_bitsFrom, Nat.zero_add, Nat.min_eq_left (by omega)]
      exact (Packer.writes_run s' value.octets offset count).writesIf fun _ _ _ => trivial
    have h := SizedContent.writesIf_pack hemit size extensible
    rw [Bits.length_singles, length_toList] at h
    exact h.congr ⟨fun hs => ⟨hcov, hs.1⟩, fun hs => ⟨hs.2, fun _ _ => trivial⟩⟩

section Unpack

variable {σ : Type} [BitSource σ] [LawfulBitSource σ]

/-- Bits are read onto the octets of the bits read before. -/
theorem consumes_unpackChunk (s : σ) (bits : List Bool) :
    SizedContent.Consumes s unpackChunk (Bits.singles bits) fun count => (Octets.ofBits (bits.take count), count) := by
  intro s' n offset count _ hc
  rw [Bits.length_singles] at hc
  rw [Bits.flatten_singles]
  have hfront : (bits.take offset).length = offset := by
    rw [List.length_take]
    omega
  have hback : ((bits.drop offset).take count).length = count := by
    rw [List.length_take, List.length_drop]
    omega
  have hr := Unpacker.takes_run s' (Octets.growTo (Octets.ofBits (bits.take offset))
    (Octets.countFor ((bits.take offset).length + ((bits.drop offset).take count).length)))
    (bits.take offset).length ((bits.drop offset).take count)
  rw [Octets.overlay_ofBits, hfront, hback, ← List.take_add] at hr
  rw [← List.append_nil ((bits.drop offset).take count)]
  exact hr.bind fun s1 _ => Unpacker.takes_pure s1 _

theorem readable_singles (value : BitString) {limit : Option Nat} (hl : ∀ l, limit = some l → value.length.toNat ≤ l) :
    SizedContent.Readable 1 limit (Bits.singles value.toList) := by
  refine ⟨by rw [Bits.length_singles, length_toList]; exact hl, fun u hu => ?_⟩
  obtain ⟨bit, _, rfl⟩ := List.mem_map.mp hu
  exact Nat.le_refl 1

/-- A bit string is read back in its tidy form if its size lies within the limit. -/
theorem takes_unpack (s : σ) {size : Bounds Nat} {extensible : Bool} {value : BitString} {limit : Option Nat}
    (hl : ∀ l, limit = some l → value.length.toNat ≤ l)
    (hs : extensible = true ∨ SizedContent.inRoot size value.length.toNat = true) :
    Unpacker.Takes s (unpack size extensible limit) (form size extensible value) value.tidy := by
  have h := SizedContent.takes_unpack (consumes_unpackChunk s value.toList) (readable_singles value hl) size
    (by rw [Bits.length_singles, length_toList]; exact hs)
  have hall : value.toList.take value.length.toNat = value.toList :=
    List.take_of_length_le (Nat.le_of_eq (length_toList value))
  rw [Bits.length_singles, length_toList, hall, List.take_zero, Octets.ofBits_nil] at h
  unfold unpack form
  rw [← List.append_nil (SizedContent.form _ _ _)]
  refine h.bind fun s1 _ => ?_
  simp only [UInt64.ofNat_toNat]
  exact Unpacker.takes_pure s1 _

/-- The octets of a bit string that is read hold all of it; its size lies within the limit, and within the bounds unless the type
is extensible. -/
theorem gives_unpack (s : σ) {size : Bounds Nat} (ho : size.Ordered) (extensible : Bool) (limit : UInt64) :
    Unpacker.Gives s (unpack size extensible (some limit.toNat)) fun value =>
      value.covered = true ∧ value.length.toNat ≤ limit.toNat ∧
        (extensible = true ∨ SizedContent.inRoot size value.length.toNat = true) := by
  have hk : SizedContent.Keeps s unpackChunk fun total (found : Octets × Nat) =>
      found.2 = total ∧ total ≤ found.1.size * 8 := by
    rintro s' n total ⟨octets, length⟩ count _ ⟨rfl, hle⟩
    refine (Unpacker.gives_run s' _ _ _).bind fun data s1 n1 hd _ => Unpacker.gives_pure s1 ⟨rfl, ?_⟩
    rw [hd, Octets.size_growTo]
    simp only [Octets.countFor]
    omega
  refine (SizedContent.gives_unpack hk ho extensible 1 (some limit.toNat) ⟨rfl, Nat.zero_le _⟩).bind ?_
  rintro ⟨octets, length⟩ s1 n ⟨total, ⟨rfl, hle⟩, hl, hs⟩ _
  have hlim := hl _ rfl
  have hlt := limit.toNat_lt
  have hn : (UInt64.ofNat length).toNat = length := by
    rw [UInt64.toNat_ofNat']
    omega
  refine Unpacker.gives_pure s1 ⟨decide_eq_true ?_, ?_, ?_⟩
  · rw [hn]
    exact hle
  · rw [hn]
    exact hlim
  · rw [hn]
    exact hs

end Unpack

end BitString

end UnalignedPer
