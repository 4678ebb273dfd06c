import UnalignedPer.ChoiceIndex
import UnalignedPer.Proofs.WholeNumber

/-!
# Indices of alternatives are read back

The bits of an index (`ChoiceIndex.form`) are what is written and what is read again. The number of alternatives has to be a
word, as it is wherever members are counted in words.
-/

namespace UnalignedPer

namespace ChoiceIndex

/-- The form of an index, where `standard` alternatives belong to the root. -/
def form (standard : Nat) (extensible : Bool) (index : Nat) : List Bool :=
  if standard ≤ index then true :: WholeNumber.smallForm (index - standard)
  else (if extensible then [false] else []) ++ Bits.offset 0 (standard - 1 : Nat) index

/-- The last alternative of the root, as a word. -/
theorem toNat_lastRoot {standard : Nat} (h : standard ≤ 2 ^ 64) : (lastRoot standard).toNat = standard - 1 := by
  rw [lastRoot, UInt64.toNat_ofNat']
  omega

/-- The place of an extension among the extensions, in words. -/
theorem toNat_sub_standard {standard : Nat} {index : UInt64} (h : standard ≤ index.toNat) :
    (index - UInt64.ofNat standard).toNat = index.toNat - standard := by
  have hlt := index.toNat_lt
  have hs : (UInt64.ofNat standard).toNat = standard := by
    rw [UInt64.toNat_ofNat']
    omega
  rw [UInt64.toNat_sub_of_le _ _ (UInt64.le_iff_toNat_le.mpr (by omega)), hs]

/-- An index is written when it belongs to the root or the type is extensible. -/
theorem writesIf_pack {τ : Type} [BitSink τ] [LawfulBitSink τ] (s : τ) {standard : Nat} (hs : standard ≤ 2 ^ 64)
    (extensible : Bool) (index : UInt64) :
    Packer.WritesIf s (extensible = true ∨ index.toNat < standard) (pack standard extensible index)
      (form standard extensible index.toNat) () := by
  unfold pack form
  by_cases h : standard ≤ index.toNat
  · rw [if_pos h, if_pos h]
    cases extensible with
    | false =>
      refine (Packer.fails_throw s _).writesIf ?_ _ _
      rintro (he | hi)
      · exact Bool.false_ne_true he
      · omega
    | true =>
      refine Packer.Writes.writesIf (Packer.writes_bit_bind fun s1 _ => ?_) (Or.inl rfl)
      rw [← toNat_sub_standard h]
      exact WholeNumber.writes_packSmall s1 _
  · rw [if_neg h, if_neg h]
    have hroot : ∀ s1 : τ, Packer.Writes s1 (WholeNumber.packWithin 0 (lastRoot standard) index)
        (Bits.offset 0 (standard - 1 : Nat) index.toNat) () := by
      intro s1
      rw [← toNat_lastRoot hs]
      refine (WholeNumber.writesIf_packWithin s1 0 (lastRoot standard) index).1 ⟨UInt64.le_iff_toNat_le.mpr ?_, ?_⟩
      · exact Nat.zero_le _
      · exact UInt64.le_iff_toNat_le.mpr (by rw [toNat_lastRoot hs]; omega)
    refine Packer.Writes.writesIf ?_ (Or.inr (by omega))
    cases extensible with
    | false => exact hroot s
    | true => exact Packer.writes_bit_bind fun s1 _ => hroot s1

section Unpack

variable {σ : Type} [BitSource σ] [LawfulBitSource σ]

/-- The index of an alternative of the root is read from its offset. -/
theorem takes_unpackRoot (s : σ) {standard : Nat} (hs : standard ≤ 2 ^ 64) {index : UInt64} (h : index.toNat < standard) :
    Unpacker.Takes s (unpackRoot standard) (Bits.offset 0 (standard - 1 : Nat) index.toNat) index := by
  intro hp
  have hhi : index ≤ lastRoot standard := UInt64.le_iff_toNat_le.mpr (by rw [toNat_lastRoot hs]; omega)
  rw [← toNat_lastRoot hs] at hp ⊢
  obtain ⟨s1, h1, hm⟩ :=
    WholeNumber.takes_unpackWithin s (UInt64.le_iff_toNat_le.mpr (Nat.zero_le _) : 0 ≤ index) hhi hp
  refine ⟨s1, ?_, hm⟩
  have hne : ¬standard = 0 := by omega
  refine (congrFun (if_neg hne) s).trans ?_
  simp only [h1]

/-- Reading an index of the root goes forward, whatever the bits are. -/
theorem gives_unpackRoot (s : σ) (standard : Nat) : Unpacker.Gives s (unpackRoot standard) fun _ => True := by
  unfold unpackRoot
  refine Unpacker.gives_ite (fun _ => Unpacker.gives_throw s _ _) fun _ => ?_
  intro index s1 hs
  have hlast : (0 : UInt64) ≤ lastRoot standard := UInt64.le_iff_toNat_le.mpr (Nat.zero_le _)
  refine ⟨trivial, ?_⟩
  simp only [] at hs
  split at hs
  · cases hs
  · exact (WholeNumber.gives_unpackWithin s hlast hs).2

/-- The index of an extension is read from its place among the extensions, which is normally small. -/
theorem takes_unpackExtension (s : σ) {standard : Nat} {index : UInt64} (h : standard ≤ index.toNat) :
    Unpacker.Takes s (unpackExtension standard) (WholeNumber.smallForm (index.toNat - standard)) index := by
  have hlt := index.toNat_lt
  rw [← List.append_nil (WholeNumber.smallForm _)]
  refine (WholeNumber.takes_unpackSmall s (by omega)).bind fun s1 _ => ?_
  rw [UInt64.toNat_ofNat', Nat.mod_eq_of_lt (by omega), Nat.add_sub_cancel' h, if_neg (by simp only [UInt64.size]; omega),
    UInt64.ofNat_toNat]
  exact Unpacker.takes_pure s1 index

/-- Reading an index of the extensions goes forward, whatever the bits are. -/
theorem gives_unpackExtension (s : σ) (standard : Nat) : Unpacker.Gives s (unpackExtension standard) fun _ => True := by
  refine (WholeNumber.gives_unpackSmall s).bind fun offset s1 _ _ _ => ?_
  exact Unpacker.gives_ite (fun _ => Unpacker.gives_throw s1 _ _) fun _ => Unpacker.gives_pure s1 trivial

/-- An index is read back. -/
theorem takes_unpack (s : σ) {standard : Nat} (hs : standard ≤ 2 ^ 64) {extensible : Bool} {index : UInt64}
    (h : extensible = true ∨ index.toNat < standard) :
    Unpacker.Takes s (unpack standard extensible) (form standard extensible index.toNat) index := by
  unfold unpack form
  by_cases hi : standard ≤ index.toNat
  · obtain rfl : extensible = true := h.resolve_right (by omega)
    rw [if_pos hi, if_pos rfl]
    refine Unpacker.takes_bit_bind fun s1 _ => ?_
    rw [if_pos rfl]
    exact takes_unpackExtension s1 hi
  · rw [if_neg hi]
    cases extensible with
    | false => exact takes_unpackRoot s hs (by omega)
    | true =>
      rw [if_pos rfl, if_pos rfl]
      refine Unpacker.takes_bit_bind fun s1 _ => ?_
      rw [if_neg Bool.false_ne_true]
      exact takes_unpackRoot s1 hs (by omega)

/-- Reading an index goes forward, whatever the bits are. -/
theorem gives_unpack (s : σ) (standard : Nat) (extensible : Bool) :
    Unpacker.Gives s (unpack standard extensible) fun _ => True := by
  refine Unpacker.gives_ite (fun _ => ?_) fun _ => gives_unpackRoot s standard
  refine (Unpacker.gives_bit s).bind fun isExtension s1 _ _ _ => ?_
  exact Unpacker.gives_ite (fun _ => gives_unpackExtension s1 standard) fun _ => gives_unpackRoot s1 standard

end Unpack

end ChoiceIndex

end UnalignedPer
