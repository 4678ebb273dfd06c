import UnalignedPer.Proofs.BitBuffer
import UnalignedPer.Proofs.BitSource
import UnalignedPer.Proofs.Octets.Access

/-!
# Slices end at a word

A slice of some octets is an offset and a length, both words, and the test that it lies inside looks at their sum as a word.
What a slice should do is stated with their sum as a number (`WritesSlice`, `ReadsSlice`): it is refused, and nothing changes,
when it ends outside, and otherwise exactly its bits move, with no octet touched outside the octets that take part. Writing and
reading do this for exactly the slices whose end the word tells from an end inside (`EndsTold`, `slices_exact_iff`). A sum that
wraps to an end inside passes the test, and the copy behind the test then has to touch octets that are not there
(`not_writesSlice_wrapped`).
-/

namespace UnalignedPer

namespace Octets

/-- `dst'` is `dst` with a run of bits of `src` in place of its own, and no octet outside the two was touched for it. -/
structure Transfers (dst : Octets) (d : Nat) (src : Octets) (s length : Nat) (dst' : Octets) : Prop where
  /-- The run is that of the source. -/
  moved : ∀ i < length, getBit dst' (d + i) = getBit src (s + i)
  /-- All other bits stay. -/
  kept : ∀ q, q < d ∨ d + length ≤ q → getBit dst' q = getBit dst q
  /-- No octet is added or dropped. -/
  size : dst'.size = dst.size
  /-- The copy comes to the same when it ends at the first octet outside. -/
  inside : (Accesses.copyBits (Accesses.checked src) d s length).run dst = some ((), dst')

/-- A copy between runs that are inside moves them. -/
theorem transfers_copyBits {dst src : Octets} {d s length : Nat} (h : Accesses.Fits dst d src s length) :
    Transfers dst d src s length (copyBits dst d src s length) where
  moved i hi := by
    have hd := h.1
    simp only [Accesses.Inside] at hd
    rw [getBit_copyBits, if_pos (by omega), Nat.add_sub_cancel_left]
  kept q hq := by rw [getBit_copyBits, if_neg (by omega)]
  size := size_copyBits dst d src s length
  inside := (Accesses.result_copyBits dst src d s length).some h

/-- Whether the word in which a slice of some octets ends tells that it ends inside or outside. It does unless the sum of offset
and length wraps from an end outside to one inside. -/
def EndsTold (data : Octets) (offset length : UInt64) : Prop :=
  offset.toNat + length.toNat < UInt64.size ∨ data.size * 8 + UInt64.size < offset.toNat + length.toNat
    ∨ offset.toNat + length.toNat ≤ data.size * 8

/-- The test that a slice ends inside is right about the slices whose end is told. -/
theorem endsTold_iff (data : Octets) (offset length : UInt64) :
    EndsTold data offset length ↔
      ((offset + length).toNat ≤ data.size * 8 ↔ offset.toNat + length.toNat ≤ data.size * 8) := by
  have ho := offset.toNat_lt
  have hl := length.toNat_lt
  rw [UInt64.toNat_add]
  simp only [EndsTold, UInt64.size]
  omega

/-- Otherwise the slice passes the test and ends outside. -/
theorem not_endsTold_iff (data : Octets) (offset length : UInt64) :
    ¬EndsTold data offset length ↔
      (offset + length).toNat ≤ data.size * 8 ∧ data.size * 8 < offset.toNat + length.toNat := by
  have ho := offset.toNat_lt
  have hl := length.toNat_lt
  rw [UInt64.toNat_add]
  simp only [EndsTold, UInt64.size]
  omega

end Octets

open Octets

/-- A slice is appended to a buffer as it should be. The bits go to storage that holds the bits of the buffer and has room. -/
def WritesSlice (b : BitBuffer) (src : Octets) (offset length : UInt64) : Prop :=
  (src.size * 8 < offset.toNat + length.toNat → Packer.slice src offset length b = .error .endOfStream b)
  ∧ (offset.toNat + length.toNat ≤ src.size * 8 → ∃ room storage : Octets,
      (∀ q, getBit room q = getBit b.storage q)
      ∧ Transfers room b.writePosition src offset.toNat length.toNat storage
      ∧ Packer.slice src offset length b = .ok () ⟨storage, b.writePosition + length.toNat, b.readPosition⟩)

/-- A slice is read over as it should be from a source that holds its bits in `data`; `moved n` is the source `n` bits on. -/
def ReadsSlice {σ : Type} [BitSource σ] (source : σ) (data : Octets) (moved : Nat → σ) (dst : Octets)
    (offset length : UInt64) : Prop :=
  (BitSource.remaining source < length.toNat ∨ dst.size * 8 < offset.toNat + length.toNat →
    Unpacker.slice dst offset length source = .error .endOfStream source)
  ∧ (length.toNat ≤ BitSource.remaining source ∧ offset.toNat + length.toNat ≤ dst.size * 8 → ∃ dst' : Octets,
      Transfers dst offset.toNat data (BitSource.position source) length.toNat dst'
      ∧ Unpacker.slice dst offset length source = .ok dst' (moved length.toNat))

/-! ## Writing -/

/-- A slice that passes the test is appended. -/
theorem slice_of_le (b : BitBuffer) {src : Octets} {offset length : UInt64} (h : (offset + length).toNat ≤ src.size * 8)
    (hl : length ≠ 0) : Packer.slice src offset length b = .ok () (b.append src offset.toNat length.toNat) := by
  rw [Packer.slice, if_neg (Nat.not_lt.mpr h), if_neg hl]
  rfl

theorem writesSlice_of_endsTold (b : BitBuffer) {src : Octets} {offset length : UInt64} (h : EndsTold src offset length) :
    WritesSlice b src offset length := by
  have htest := (endsTold_iff src offset length).mp h
  refine ⟨fun hout => ?_, fun hin => ?_⟩
  · rw [Packer.slice, if_pos (Nat.not_le.mp (mt htest.mp (Nat.not_le.mpr hout)))]
    rfl
  · have hpass := htest.mpr hin
    by_cases hl : length = 0
    · -- Nothing is copied, and the storage does not grow.
      subst hl
      exact ⟨b.storage, b.storage, fun _ => rfl, transfers_copyBits ⟨Or.inl rfl, Or.inl rfl⟩,
        by rw [Packer.slice, if_neg (Nat.not_lt.mpr hpass)]; rfl⟩
    · have hroom := BitBuffer.le_size_reserve b (b.writePosition + length.toNat)
      refine ⟨(b.reserve (b.writePosition + length.toNat)).storage, _, BitBuffer.getBit_reserve b _,
        transfers_copyBits ⟨Or.inr hroom, Or.inr hin⟩, ?_⟩
      rw [slice_of_le b hpass hl]
      simp only [BitBuffer.append, BitBuffer.writePosition_reserve, BitBuffer.readPosition_reserve]

/-- A slice whose end wraps passes the test. -/
theorem not_writesSlice (b : BitBuffer) {src : Octets} {offset length : UInt64} (h : ¬EndsTold src offset length) :
    ¬WritesSlice b src offset length := by
  obtain ⟨hpass, hout⟩ := (not_endsTold_iff src offset length).mp h
  have hl : length ≠ 0 := by
    rintro rfl
    rw [UInt64.add_zero] at hpass
    exact absurd hout (Nat.not_lt.mpr hpass)
  intro hw
  have hrefused := hw.1 hout
  rw [slice_of_le b hpass hl] at hrefused
  cases hrefused

/-! ## Reading -/

section Reading

variable {σ : Type} [BitSource σ] {source : σ} {data dst : Octets} {moved : Nat → σ} {offset length : UInt64}

/-- What `slice` needs of a source: it refuses to read more bits than are ahead, and else copies them out of its octets, which hold
all of them. -/
structure CopiesFrom (source : σ) (data : Octets) (moved : Nat → σ) : Prop where
  short : ∀ dst offset length, BitSource.remaining source < length →
    BitSource.readInto dst offset length source = .error .endOfStream source
  enough : ∀ dst offset length, length ≤ BitSource.remaining source →
    BitSource.readInto dst offset length source
      = .ok (copyBits dst offset data (BitSource.position source) length) (moved length)
  covered : ∀ length, length ≤ BitSource.remaining source → Accesses.Inside data.size (BitSource.position source) length

theorem copiesFrom_buffer {b : BitBuffer} (h : b.writePosition ≤ b.capacity) :
    CopiesFrom b b.storage fun n => { b with readPosition := b.readPosition + n } where
  short _ _ _ hl := if_pos hl
  enough _ _ _ hl := if_neg (Nat.not_lt.mpr hl)
  covered length hl := by
    simp only [BitSource.remaining, BitBuffer.remaining, BitSource.position, BitBuffer.capacity, Accesses.Inside] at h hl ⊢
    omega

theorem copiesFrom_view {v : BitView} (h : v.stop ≤ v.data.size * 8) :
    CopiesFrom v v.data fun n => { v with position := v.position + n } where
  short _ _ _ hl := if_pos hl
  enough _ _ _ hl := if_neg (Nat.not_lt.mpr hl)
  covered length hl := by
    simp only [BitSource.remaining, BitView.remaining, BitSource.position, Accesses.Inside] at hl ⊢
    omega

/-- A slice that passes the test is read. -/
theorem slice_of_copiesFrom (h : CopiesFrom source data moved) (hpass : (offset + length).toNat ≤ dst.size * 8)
    (hl : length.toNat ≤ BitSource.remaining source) :
    Unpacker.slice dst offset length source
      = .ok (copyBits dst offset.toNat data (BitSource.position source) length.toNat) (moved length.toNat) := by
  rw [Unpacker.slice, if_neg (Nat.not_lt.mpr hpass)]
  exact h.enough dst _ _ hl

/-- A slice of more bits than are ahead is refused, whatever the test says. -/
theorem slice_of_short (h : CopiesFrom source data moved) (hl : BitSource.remaining source < length.toNat) :
    Unpacker.slice dst offset length source = .error .endOfStream source := by
  unfold Unpacker.slice
  split
  · rfl
  · exact h.short dst _ _ hl

theorem readsSlice_of_short (h : CopiesFrom source data moved) (hl : BitSource.remaining source < length.toNat) :
    ReadsSlice source data moved dst offset length :=
  ⟨fun _ => slice_of_short h hl, fun hin => absurd hin.1 (by omega)⟩

theorem readsSlice_of_endsTold (h : CopiesFrom source data moved) (ht : EndsTold dst offset length) :
    ReadsSlice source data moved dst offset length := by
  have htest := (endsTold_iff dst offset length).mp ht
  refine ⟨fun hout => ?_, fun ⟨hl, hin⟩ => ?_⟩
  · rcases hout with hl | hout
    · exact slice_of_short h hl
    · rw [Unpacker.slice, if_pos (Nat.not_le.mp (mt htest.mp (Nat.not_le.mpr hout)))]
      rfl
  · exact ⟨_, transfers_copyBits ⟨Or.inr hin, h.covered _ hl⟩, slice_of_copiesFrom h (htest.mpr hin) hl⟩

/-- A slice whose end wraps passes the test. -/
theorem not_readsSlice (h : CopiesFrom source data moved) (hl : length.toNat ≤ BitSource.remaining source)
    (ht : ¬EndsTold dst offset length) : ¬ReadsSlice source data moved dst offset length := by
  obtain ⟨hpass, hout⟩ := (not_endsTold_iff dst offset length).mp ht
  intro hr
  have hrefused := hr.1 (Or.inr hout)
  rw [slice_of_copiesFrom h hpass hl] at hrefused
  cases hrefused

/-- Reading a slice is as it should be when too few bits are ahead, and otherwise when its end is told. -/
theorem readsSlice_iff (h : CopiesFrom source data moved) :
    ReadsSlice source data moved dst offset length ↔
      BitSource.remaining source < length.toNat ∨ EndsTold dst offset length := by
  constructor
  · intro hr
    by_cases hl : BitSource.remaining source < length.toNat
    · exact Or.inl hl
    · exact Or.inr (Classical.byContradiction fun ht => not_readsSlice h (by omega) ht hr)
  · intro hor
    rcases hor with hl | ht
    · exact readsSlice_of_short h hl
    · exact readsSlice_of_endsTold h ht

end Reading

/-- Slices are exact, for writing to a buffer and for reading from a buffer and from a view, for exactly those offsets and lengths
whose sum does not wrap to an end inside. -/
theorem slices_exact_iff (octets : Octets) (offset length : UInt64) (b : BitBuffer) (v : BitView)
    (hb : b.writePosition ≤ b.capacity) (hv : v.stop ≤ v.data.size * 8) :
    (WritesSlice b octets offset length ↔ EndsTold octets offset length)
    ∧ (ReadsSlice b b.storage (fun n => { b with readPosition := b.readPosition + n }) octets offset length
        ↔ b.remaining < length.toNat ∨ EndsTold octets offset length)
    ∧ (ReadsSlice v v.data (fun n => { v with position := v.position + n }) octets offset length
        ↔ v.remaining < length.toNat ∨ EndsTold octets offset length) :=
  ⟨⟨fun h => Classical.byContradiction fun ht => not_writesSlice b ht h, writesSlice_of_endsTold b⟩,
    readsSlice_iff (copiesFrom_buffer hb), readsSlice_iff (copiesFrom_view hv)⟩

/-- Four bits of an octet from bit 4 on end inside it, so they are written as they should be. -/
theorem slices_exact_iff_octet :
    WritesSlice BitBuffer.empty #[0xFF] 4 4 ↔ EndsTold #[0xFF] 4 4 :=
  (slices_exact_iff #[0xFF] 4 4 BitBuffer.empty (BitView.ofOctets #[0xFF] 8) (by decide) (by decide)).1

/-- From bit 8 of two octets on, 2 ^ 64 - 8 bits are accepted, although there are 8. No storage lets the copy stay inside. -/
theorem not_writesSlice_wrapped :
    ¬WritesSlice ⟨#[0xFF], 8, 0⟩ #[0xFF, 0xFF] 8 18446744073709551608
    ∧ ((8 : UInt64) + 18446744073709551608).toNat ≤ 16
    ∧ ∀ room : Octets, (Accesses.copyBits (Accesses.checked #[0xFF, 0xFF]) 8 8 18446744073709551608).run room = none := by
  refine ⟨not_writesSlice _ ?_, by decide, fun room => (Accesses.result_copyBits room #[0xFF, 0xFF] 8 8 _).none fun h => ?_⟩
  · simp [EndsTold, UInt64.size]
  · have h2 := h.2
    simp [Accesses.Inside] at h2

end UnalignedPer
