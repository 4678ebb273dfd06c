import UnalignedPer.Proofs.BitString
import UnalignedPer.Proofs.OctetString

/-!
# What is read takes bits

A content may say that it is as long as it likes; what is read of it was in the source. `Unpacker.Pays` counts both: what an
action reads grows by no more than the number of bits that it moves over. So a string that was read is no longer than the source
(`BitString.pays_unpack`, `OctetString.pays_unpackFrom`), whatever limit there is on lengths.
-/

namespace UnalignedPer

/-- Moving leaves no more bits ahead. -/
theorem LawfulBitSource.remaining_le {σ : Type} [BitSource σ] [LawfulBitSource σ] {s s' : σ} {n : Nat} (h : Moved s n s') :
    BitSource.remaining s' ≤ BitSource.remaining s := by
  rw [remaining_eq, remaining_eq, ahead_of_moved h, List.length_drop]
  exact Nat.sub_le _ _

/-- A part of a view is no longer than the view. -/
theorem BitView.remaining_part_le {v part : BitView} {length : Nat} (h : v.part length = .ok part) :
    part.remaining ≤ v.remaining := by
  unfold BitView.part at h
  split at h
  · cases h
  · rename_i hl
    cases h
    simp only [remaining] at hl ⊢
    omega

namespace Unpacker

variable {σ α β : Type} [BitSource σ]

/-- A measure of what is read is, together with the bits that stay ahead, no greater than a number was before. -/
def Pays (s : σ) (action : Unpacker σ α) (before : Nat) (measure : α → Nat) : Prop :=
  ∀ ⦃x s'⦄, action s = .ok x s' → measure x + BitSource.remaining s' ≤ before + BitSource.remaining s

theorem pays_pure (s : σ) {x : α} {before : Nat} {measure : α → Nat} (h : measure x ≤ before) :
    Pays s (pure x) before measure := by
  intro y s' hs
  cases hs
  exact Nat.add_le_add_right h _

theorem pays_throw (s : σ) (fault : Fault) (before : Nat) (measure : α → Nat) : Pays s (throw fault) before measure := by
  intro y s' hs
  cases hs

theorem Pays.bind {s : σ} {m : Unpacker σ α} {f : α → Unpacker σ β} {before : Nat} {measure : α → Nat} {measure' : β → Nat}
    (h : Pays s m before measure) (h' : ∀ x s', Pays s' (f x) (measure x) measure') : Pays s (m >>= f) before measure' := by
  intro y s'' hs
  simp only [run_bind] at hs
  split at hs
  · rename_i x s' hm
    exact Nat.le_trans (h' x s' hs) (h hm)
  · cases hs

theorem pays_ite {s : σ} {c : Prop} [Decidable c] {m m' : Unpacker σ α} {before : Nat} {measure : α → Nat}
    (h : Pays s m before measure) (h' : Pays s m' before measure) : Pays s (if c then m else m') before measure := by
  split
  · exact h
  · exact h'

/-- A measure may be replaced by a lesser one. -/
theorem Pays.weaken {s : σ} {m : Unpacker σ α} {before : Nat} {measure measure' : α → Nat} (h : Pays s m before measure)
    (hle : ∀ x s', m s = .ok x s' → measure' x ≤ measure x) : Pays s m before measure' :=
  fun x s' hs => Nat.le_trans (Nat.add_le_add_right (hle x s' hs) _) (h hs)

/-- What is read from nothing on is no more than the source held. -/
theorem Pays.le_remaining {s s' : σ} {m : Unpacker σ α} {before : Nat} {measure : α → Nat} {x : α} (h : Pays s m before measure)
    (hb : before = 0) (hm : m s = .ok x s') : measure x ≤ BitSource.remaining s := by
  have hle := h hm
  omega

variable [LawfulBitSource σ]

/-- Whatever is read, there are no more bits ahead than before. -/
theorem Gives.pays {s : σ} {m : Unpacker σ α} {P : α → Prop} (h : Gives s m P) (before : Nat) :
    Pays s m before fun _ => before := by
  intro x s' hs
  obtain ⟨-, n, hn⟩ := h hs
  exact Nat.add_le_add_left (LawfulBitSource.remaining_le hn) _

/-- A run takes its bits. -/
theorem pays_run (s : σ) (dst : Octets) (offset length before : Nat) :
    Pays s (run dst offset length) before fun _ => before + length := by
  intro x s' hs
  by_cases hl : length ≤ (LawfulBitSource.ahead s).length
  · obtain ⟨s1, h1, hm⟩ := LawfulBitSource.readInto_ok dst offset hl
    rw [run, h1] at hs
    cases hs
    rw [LawfulBitSource.remaining_eq, LawfulBitSource.remaining_eq, LawfulBitSource.ahead_of_moved hm, List.length_drop]
    show before + length + (_ - length) ≤ before + _
    omega
  · rw [run, LawfulBitSource.readInto_short dst offset (by omega)] at hs
    cases hs

end Unpacker

namespace SizedContent

variable {σ α : Type} [BitSource σ] [LawfulBitSource σ] {consume : α → Nat → Unpacker σ α} {measure : α → Nat}

/-- What is read in chunks takes bits if every chunk does. -/
theorem pays_unpackFrom (h : ∀ s before count, Unpacker.Pays s (consume before count) (measure before) measure)
    (bounds : Bounds Nat) (unitBits : Nat) (limit : Option Nat) (fuel : Nat) :
    ∀ s total before chunk, Unpacker.Pays s (unpackFrom bounds unitBits limit consume total before chunk fuel)
      (measure before) fun found => measure found.2 := by
  induction fuel with
  | zero => exact fun s _ _ _ => Unpacker.pays_throw s _ _ _
  | succ fuel ih =>
    intro s total before chunk
    rw [unpackFrom]
    refine ((gives_checkChunk s _ _ _ _).pays _).bind fun _ s1 => (h s1 before chunk.units).bind fun after s2 => ?_
    refine Unpacker.pays_ite ?_ (Unpacker.pays_pure s2 (Nat.le_refl _))
    exact ((LengthDeterminant.gives_unpack s2 bounds).pays _).bind fun next s3 => ih s3 _ after next

theorem pays_unpackCounted (h : ∀ s before count, Unpacker.Pays s (consume before count) (measure before) measure)
    (size : Bounds Nat) (unitBits : Nat) (limit : Option Nat) (start : α) (s : σ) :
    Unpacker.Pays s (unpackCounted size unitBits limit start consume) (measure start) measure := by
  refine ((Unpacker.gives_remaining s).pays _).bind fun ahead s1 => ?_
  refine ((LengthDeterminant.gives_unpack s1 _).pays _).bind fun chunk s2 => ?_
  refine (pays_unpackFrom h _ unitBits limit (ahead + 1) s2 0 start chunk).bind fun found s3 => ?_
  exact Unpacker.pays_ite (Unpacker.pays_pure s3 (Nat.le_refl _)) (Unpacker.pays_throw s3 _ _ _)

theorem pays_unpackRoot (h : ∀ s before count, Unpacker.Pays s (consume before count) (measure before) measure)
    (size : Bounds Nat) (unitBits : Nat) (limit : Option Nat) (start : α) (s : σ) :
    Unpacker.Pays s (unpackRoot size unitBits limit start consume) (measure start) measure := by
  unfold unpackRoot
  refine Unpacker.pays_ite (Unpacker.pays_pure s (Nat.le_refl _)) ?_
  cases fixedSize size with
  | none => exact pays_unpackCounted h size unitBits limit start s
  | some count => exact ((gives_checkChunk s _ _ _ _).pays _).bind fun _ s1 => h s1 start count

/-- A content takes bits if every chunk of it does. -/
theorem pays_unpack (h : ∀ s before count, Unpacker.Pays s (consume before count) (measure before) measure)
    (size : Bounds Nat) (extensible : Bool) (unitBits : Nat) (limit : Option Nat) (start : α) (s : σ) :
    Unpacker.Pays s (unpack size extensible unitBits limit start consume) (measure start) measure := by
  unfold unpack
  refine Unpacker.pays_ite ?_ (pays_unpackRoot h size unitBits limit start s)
  refine ((Unpacker.gives_bit s).pays _).bind fun outside s1 => ?_
  exact Unpacker.pays_ite (pays_unpackCounted h _ unitBits limit start s1) (pays_unpackRoot h size unitBits limit start s1)

end SizedContent

variable {σ : Type} [BitSource σ] [LawfulBitSource σ]

/-- A chunk of a bit string takes its bits. -/
theorem BitString.pays_unpackChunk (s : σ) (before : Octets × Nat) (count : Nat) :
    Unpacker.Pays s (unpackChunk before count) before.2 (·.2) :=
  (Unpacker.pays_run s _ _ count _).bind fun _ s1 => Unpacker.pays_pure s1 (Nat.le_refl _)

/-- A bit string is no longer than the source was. -/
theorem BitString.pays_unpack (size : Bounds Nat) (extensible : Bool) (limit : Option Nat) (s : σ) :
    Unpacker.Pays s (unpack size extensible limit) 0 fun value => value.length.toNat := by
  refine (SizedContent.pays_unpack pays_unpackChunk size extensible 1 limit (#[], 0) s).bind fun found s1 =>
    Unpacker.pays_pure s1 ?_
  show (UInt64.ofNat found.2).toNat ≤ found.2
  rw [UInt64.toNat_ofNat']
  exact Nat.mod_le _ _

/-- A chunk of an octet string takes its octets. -/
theorem OctetString.pays_unpackChunk (s : σ) (before : Octets) (count : Nat) :
    Unpacker.Pays s (unpackChunk before count) (before.size * 8) fun data => data.size * 8 := by
  refine (Unpacker.pays_run s _ _ _ _).weaken fun data s' hs => ?_
  rw [(Unpacker.gives_run s _ _ _ hs).1, Octets.size_growTo]
  omega

/-- The octets that were read in chunks are no more than the source held. -/
theorem OctetString.pays_unpackFrom (bounds : Bounds Nat) (limit : Option Nat) (chunk : LengthDeterminant.Chunk) (fuel : Nat)
    (s : σ) : Unpacker.Pays s (SizedContent.unpackFrom bounds 8 limit unpackChunk 0 #[] chunk fuel) 0
      fun found => found.2.size * 8 := by
  have hfrom := SizedContent.pays_unpackFrom pays_unpackChunk bounds 8 limit fuel s 0 #[] chunk
  rwa [show (#[] : Octets).size * 8 = 0 from rfl] at hfrom

end UnalignedPer
