import UnalignedPer.Proofs.Octets.Copy

/-!
# The octets a copy touches

`Octets.copyBits` reads zeros outside its storage and writes nothing there, so it does not show whether a copy stays inside.
Here the copy is written over the accesses it makes: it reads octets of its source, and reads and writes octets of its
target (`Octets.Accesses`), so no octet is touched unseen. Over storage that reads as zero outside it is `Octets.copyBits`,
whatever it is asked for (`Octets.Accesses.run_plain_copyBits`). Over storage that ends the copy at the first octet outside
it is the same copy exactly when both runs of bits are inside (`Octets.Accesses.result_copyBits`), and has no result
otherwise.
-/

namespace UnalignedPer

namespace Octets

/-- The accesses a copy makes to the octets of its source and of its target. -/
structure Accesses (m : Type → Type) where
  /-- Reads an octet of the source. -/
  source : Nat → m UInt8
  /-- Reads an octet of the target. -/
  target : Nat → m UInt8
  /-- Replaces an octet of the target. -/
  put : Nat → UInt8 → m Unit

namespace Accesses

section Program

variable {m : Type → Type} [Monad m] (a : Accesses m)

/-- Sets a bit of the target to one of the source. -/
def copyBit (dstBit srcBit : Nat) : m Unit := do
  let octet ← a.source (srcBit / 8)
  let old ← a.target (dstBit / 8)
  a.put (dstBit / 8) (if octet &&& bitMask srcBit != 0 then old ||| bitMask dstBit else old &&& ~~~bitMask dstBit)

/-- `Octets.copyEach`, access by access. -/
def copyEach (dstBit srcBit : Nat) : Nat → m Unit
  | 0 => pure ()
  | count + 1 => do
    copyBit a dstBit srcBit
    copyEach (dstBit + 1) (srcBit + 1) count

/-- `Octets.joinedOctet`, access by access. The second octet is not touched when the source is aligned. -/
def joinedOctet (index shift : Nat) : m UInt8 := do
  let front ← a.source index
  if shift = 0 then return front
  let back ← a.source (index + 1)
  return (front <<< UInt8.ofNat shift) ||| (back >>> UInt8.ofNat (8 - shift))

/-- Replaces an octet of the target by eight bits of the source. -/
def copyOctet (dstIndex srcIndex shift : Nat) : m Unit := do
  a.put dstIndex (← joinedOctet a srcIndex shift)

/-- `Octets.copyOctets`, access by access. -/
def copyOctets (dstIndex srcIndex shift : Nat) : Nat → m Unit
  | 0 => pure ()
  | count + 1 => do
    copyOctet a dstIndex srcIndex shift
    copyOctets (dstIndex + 1) (srcIndex + 1) shift count

/-- `Octets.copyAligned`, access by access. -/
def copyAligned (dstBit srcBit length : Nat) : m Unit := do
  let whole := length / 8
  let moved := whole * 8
  copyOctets a (dstBit / 8) (srcBit / 8) (srcBit % 8) whole
  copyEach a (dstBit + moved) (srcBit + moved) (length - moved)

/-- `Octets.copyBits`, access by access. -/
def copyBits (dstBit srcBit length : Nat) : m Unit := do
  if length ≤ bulkThreshold then copyEach a dstBit srcBit length
  else
    let head := (8 - dstBit % 8) % 8
    copyEach a dstBit srcBit head
    copyAligned a (dstBit + head) (srcBit + head) (length - head)

end Program

/-- Storage that reads as zero outside and drops what is put there. -/
def plain (src : Octets) : Accesses (StateM Octets) where
  source index := pure (octetAt src index)
  target index := return octetAt (← get) index
  put index octet := modify (·.setIfInBounds index octet)

/-- Storage that ends the copy at the first octet outside. -/
def checked (src : Octets) : Accesses (StateT Octets Option) where
  source index := StateT.lift src[index]?
  target index := do StateT.lift (← get)[index]?
  put index octet := do if index < (← get).size then modify (·.setIfInBounds index octet) else StateT.lift none

/-! ## Without checks -/

/-- Setting a bit replaces its octet. -/
theorem setBit_eq_setIfInBounds (dst : Octets) (p : Nat) (v : Bool) :
    setBit dst p v = dst.setIfInBounds (p / 8)
      (if v then octetAt dst (p / 8) ||| bitMask p else octetAt dst (p / 8) &&& ~~~bitMask p) := by
  unfold setBit octetAt
  apply Array.ext_getElem?
  intro i
  rw [Array.getElem?_modify, Array.getElem?_setIfInBounds, Array.getD_eq_getD_getElem?]
  split
  · subst_vars
    by_cases hi : p / 8 < dst.size
    · rw [if_pos hi, Array.getElem?_eq_getElem hi]
      rfl
    · rw [if_neg hi, Array.getElem?_eq_none (by omega)]
      rfl
  · rfl

/-- Bit by bit the accesses copy as the function does. -/
theorem run_plain_copyEach (dst src : Octets) (d s count : Nat) :
    (copyEach (plain src) d s count).run dst = ((), Octets.copyEach dst d src s count) := by
  induction count generalizing dst d s with
  | zero => rfl
  | succ count ih =>
    rw [Octets.copyEach, setBit_eq_setIfInBounds, ← ih]
    rfl

/-- Octet by octet the accesses copy as the function does. -/
theorem run_plain_copyOctets (dst src : Octets) (d s shift count : Nat) :
    (copyOctets (plain src) d s shift count).run dst = ((), Octets.copyOctets dst d src s shift count) := by
  induction count generalizing dst d s with
  | zero => rfl
  | succ count ih =>
    rw [Octets.copyOctets, ← ih, copyOctets, copyOctet, joinedOctet, Octets.joinedOctet]
    split <;> rfl

/-- From a whole octet on the accesses copy as the function does. -/
theorem run_plain_copyAligned (dst src : Octets) (d s length : Nat) :
    (copyAligned (plain src) d s length).run dst = ((), Octets.copyAligned dst d src s length) := by
  simp only [copyAligned]
  rw [StateT.run_bind, run_plain_copyOctets]
  exact run_plain_copyEach _ src _ _ _

/-- Without checks, the accesses are those of the copy. -/
theorem run_plain_copyBits (dst src : Octets) (d s length : Nat) :
    (copyBits (plain src) d s length).run dst = ((), Octets.copyBits dst d src s length) := by
  simp only [copyBits, Octets.copyBits]
  split
  · exact run_plain_copyEach dst src d s length
  · rw [StateT.run_bind, run_plain_copyEach]
    exact run_plain_copyAligned _ src _ _ _

/-! ## With checks -/

/-- Accesses have a result when a condition holds and none otherwise. -/
structure Result {α : Type} (x : StateT Octets Option α) (dst : Octets) (inside : Prop) (a : α) (after : Octets) : Prop where
  some : inside → x.run dst = some (a, after)
  none : ¬inside → x.run dst = none

namespace Result

variable {α β : Type} {x : StateT Octets Option α} {f : α → StateT Octets Option β} {p q : Prop} {dst dst' dst'' : Octets}
  {a : α} {b : β}

/-- Without an access there is a result. -/
theorem of_pure (a : α) (dst : Octets) : Result (pure a) dst True a dst :=
  ⟨fun _ => rfl, fun h => absurd trivial h⟩

/-- Accesses after others have a result when both have one. -/
theorem bind (hx : Result x dst p a dst') (hf : Result (f a) dst' q b dst'') : Result (x >>= f) dst (p ∧ q) b dst'' where
  some h := by
    rw [StateT.run_bind, hx.some h.1]
    exact hf.some h.2
  none h := by
    rw [StateT.run_bind]
    by_cases hp : p
    · rw [hx.some hp]
      exact hf.none fun hq => h ⟨hp, hq⟩
    · rw [hx.none hp]
      rfl

/-- The condition may be put in other words. -/
theorem congr (hx : Result x dst p a dst') (h : p ↔ q) : Result x dst q a dst' where
  some hq := hx.some (h.mpr hq)
  none hq := hx.none fun hp => hq (h.mp hp)

end Result

/-- A look at the source has a result inside the source. -/
theorem result_source (src dst : Octets) (index : Nat) :
    Result ((checked src).source index) dst (index < src.size) (octetAt src index) dst where
  some h := by simp [checked, octetAt, Array.getD_eq_getD_getElem?, h]
  none h := by simp [checked, Array.getElem?_eq_none (by omega : src.size ≤ index)]

/-- A look at the target has a result inside the target. -/
theorem result_target (src dst : Octets) (index : Nat) :
    Result ((checked src).target index) dst (index < dst.size) (octetAt dst index) dst where
  some h := by simp [checked, octetAt, Array.getD_eq_getD_getElem?, h]
  none h := by simp [checked, Array.getElem?_eq_none (by omega : dst.size ≤ index)]

/-- A change of the target has a result inside the target. -/
theorem result_put (src dst : Octets) (index : Nat) (octet : UInt8) :
    Result ((checked src).put index octet) dst (index < dst.size) () (dst.setIfInBounds index octet) where
  some h := by simp [checked, h]
  none h := by simp [checked, h]

/-- Whether a run of bits is inside some octets. No bit at all is inside wherever it starts. -/
def Inside (size start count : Nat) : Prop := count = 0 ∨ start + count ≤ size * 8

/-- Both runs of a copy are inside. -/
def Fits (dst : Octets) (d : Nat) (src : Octets) (s count : Nat) : Prop := Inside dst.size d count ∧ Inside src.size s count

/-- Two neighbouring runs are inside when the run of both is. -/
theorem fits_add {dst dst' : Octets} (hsize : dst'.size = dst.size) (d : Nat) (src : Octets) (s front back : Nat) :
    Fits dst d src s front ∧ Fits dst' (d + front) src (s + front) back ↔ Fits dst d src s (front + back) := by
  unfold Fits Inside
  omega

/-- One bit is copied when its octets are there. -/
theorem result_copyBit (dst src : Octets) (d s : Nat) :
    Result (copyBit (checked src) d s) dst (Fits dst d src s 1) () (setBit dst d (getBit src s)) := by
  rw [setBit_eq_setIfInBounds]
  refine Result.congr (Result.bind (result_source src dst _) (Result.bind (result_target src dst _) (result_put src dst _ _))) ?_
  unfold Fits Inside
  omega

/-- Bits are copied one by one when both runs are inside. -/
theorem result_copyEach (dst src : Octets) (d s count : Nat) :
    Result (copyEach (checked src) d s count) dst (Fits dst d src s count) () (Octets.copyEach dst d src s count) := by
  induction count generalizing dst d s with
  | zero => exact (Result.of_pure () dst).congr (iff_of_true trivial ⟨Or.inl rfl, Or.inl rfl⟩)
  | succ count ih =>
    refine ((result_copyBit dst src d s).bind (ih _ _ _)).congr ?_
    rw [fits_add (size_setBit ..), Nat.add_comm 1 count]

/-- The eight bits of a joined octet are read when they are there: the second octet is touched only for a bit of its own. -/
theorem result_joinedOctet (src dst : Octets) (index shift : Nat) (hs : shift < 8) :
    Result (joinedOctet (checked src) index shift) dst (Inside src.size (index * 8 + shift) 8)
      (Octets.joinedOctet src index shift) dst := by
  unfold joinedOctet Octets.joinedOctet
  by_cases h0 : shift = 0
  · simp only [if_pos h0]
    refine Result.congr (Result.bind (result_source src dst _) (Result.of_pure _ dst)) ?_
    simp only [Inside, and_true]
    omega
  · simp only [if_neg h0]
    refine Result.congr (Result.bind (result_source src dst _) (Result.bind (result_source src dst _) (Result.of_pure _ dst))) ?_
    simp only [Inside, and_true]
    omega

/-- Octets are copied when both runs are inside, from any bit of an octet on. -/
theorem result_copyOctets (dst src : Octets) (d s shift count : Nat) (hs : shift < 8) :
    Result (copyOctets (checked src) d s shift count) dst (Fits dst (d * 8) src (s * 8 + shift) (count * 8)) ()
      (Octets.copyOctets dst d src s shift count) := by
  induction count generalizing dst d s with
  | zero => exact (Result.of_pure () dst).congr (iff_of_true trivial ⟨Or.inl (Nat.zero_mul 8), Or.inl (Nat.zero_mul 8)⟩)
  | succ count ih =>
    have hone : Result (copyOctet (checked src) d s shift) dst (Fits dst (d * 8) src (s * 8 + shift) 8) ()
        (dst.setIfInBounds d (Octets.joinedOctet src s shift)) := by
      refine ((result_joinedOctet src dst s shift hs).bind (result_put src dst _ _)).congr ?_
      unfold Fits Inside
      omega
    refine (hone.bind (ih _ _ _)).congr ?_
    rw [show (d + 1) * 8 = d * 8 + 8 by omega, show (s + 1) * 8 + shift = s * 8 + shift + 8 by omega,
      show (count + 1) * 8 = 8 + count * 8 by omega, fits_add Array.size_setIfInBounds]

/-- A run to the start of an octet is copied when both runs are inside. -/
theorem result_copyAligned (dst src : Octets) (d s length : Nat) (hd : d % 8 = 0) :
    Result (copyAligned (checked src) d s length) dst (Fits dst d src s length) () (Octets.copyAligned dst d src s length) := by
  refine ((result_copyOctets dst src _ _ _ _ (Nat.mod_lt s (by omega))).bind (result_copyEach _ src _ _ _)).congr ?_
  rw [show d / 8 * 8 = d by omega, show s / 8 * 8 + s % 8 = s by omega, fits_add (size_copyOctets ..),
    show length / 8 * 8 + (length - length / 8 * 8) = length by omega]

/-- A copy touches octets of its two runs and no others: with checks, it is the copy exactly when both runs are inside. -/
theorem result_copyBits (dst src : Octets) (d s length : Nat) :
    Result (copyBits (checked src) d s length) dst (Fits dst d src s length) () (Octets.copyBits dst d src s length) := by
  unfold copyBits Octets.copyBits
  by_cases hl : length ≤ bulkThreshold
  · simp only [if_pos hl]
    exact result_copyEach dst src d s length
  · simp only [if_neg hl]
    refine ((result_copyEach dst src d s _).bind (result_copyAligned _ src _ _ _ (by omega))).congr ?_
    rw [fits_add (size_copyEach ..), show (8 - d % 8) % 8 + (length - (8 - d % 8) % 8) = length by
      simp only [bulkThreshold] at hl; omega]

end Accesses

/-- Every path of a copy of a run that is inside is exact: the run becomes that of the source, nothing else changes, the
result is that of the path that copies one bit at a time, and no octet outside is touched. -/
theorem copyBits_exact (dst src : Octets) (d s length : Nat) (hd : d + length ≤ 8 * dst.size) (hs : s + length ≤ 8 * src.size) :
    (∀ i < length, getBit (copyBits dst d src s length) (d + i) = getBit src (s + i))
    ∧ (∀ q, q < d ∨ d + length ≤ q → getBit (copyBits dst d src s length) q = getBit dst q)
    ∧ (copyBits dst d src s length).size = dst.size
    ∧ copyBits dst d src s length = copyEach dst d src s length
    ∧ (Accesses.copyBits (Accesses.plain src) d s length).run dst = ((), copyBits dst d src s length)
    ∧ (Accesses.copyBits (Accesses.checked src) d s length).run dst = some ((), copyBits dst d src s length) := by
  refine ⟨?_, ?_, size_copyBits dst d src s length, copyBits_eq dst d src s length,
    Accesses.run_plain_copyBits dst src d s length,
    (Accesses.result_copyBits dst src d s length).some ⟨Or.inr (by omega), Or.inr (by omega)⟩⟩
  · intro i hi
    rw [getBit_copyBits, if_pos (by omega), Nat.add_sub_cancel_left]
  · intro q hq
    rw [getBit_copyBits, if_neg (by omega)]

/-- Twenty bits from bit 5 of four octets to bit 3 of three, neither at an octet: no access goes outside. -/
theorem copyBits_exact_unaligned :
    (Accesses.copyBits (Accesses.checked #[0xA5, 0x3C, 0x0F, 0xF0]) 3 5 20).run #[0, 0, 0]
      = some ((), copyBits #[0, 0, 0] 3 #[0xA5, 0x3C, 0x0F, 0xF0] 5 20) :=
  (copyBits_exact #[0, 0, 0] #[0xA5, 0x3C, 0x0F, 0xF0] 3 5 20 (by decide) (by decide)).2.2.2.2.2

end Octets

end UnalignedPer
