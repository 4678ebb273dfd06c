import UnalignedPer.BitSource
import UnalignedPer.Proofs.Bits
import UnalignedPer.Proofs.Octets.Copy
import UnalignedPer.Proofs.Running

/-!
# What is read from a source

A source is the list of the bits ahead of its cursor (`LawfulBitSource.ahead`). Whatever holds the bits, a read depends on
that list alone and drops what it read from its front. `Unpacker.Takes` says what an action reads from bits that stand in
front; such statements chain. `Unpacker.Gives` says what is known of whatever an action reads, from any bits at all.
-/

namespace UnalignedPer

/-- A source is read from its front. -/
class LawfulBitSource (σ : Type) [BitSource σ] where
  /-- The bits that can still be read. -/
  ahead : σ → List Bool
  /-- Whether a state is another one with the cursor some bits further on. -/
  Moved : σ → Nat → σ → Prop
  /-- The cursor can stay. -/
  moved_refl (s : σ) : Moved s 0 s
  /-- Moves add up. -/
  moved_trans {s s' s'' : σ} {m n : Nat} : Moved s m s' → Moved s' n s'' → Moved s (m + n) s''
  /-- The bits moved over are no longer ahead. -/
  ahead_of_moved {s s' : σ} {n : Nat} : Moved s n s' → ahead s' = (ahead s).drop n
  /-- A source knows how many bits are ahead. -/
  remaining_eq (s : σ) : BitSource.remaining s = (ahead s).length
  /-- The next bit is the front of the bits ahead. -/
  readBit_cons {s : σ} {bit : Bool} {rest : List Bool} :
    ahead s = bit :: rest → ∃ s', BitSource.readBit s = .ok bit s' ∧ Moved s 1 s'
  /-- There is no next bit behind the last one. -/
  readBit_nil {s : σ} : ahead s = [] → BitSource.readBit s = .error .endOfStream s
  /-- A run is laid over the destination. -/
  readInto_ok {s : σ} {length : Nat} (dst : Octets) (offset : Nat) :
    length ≤ (ahead s).length →
      ∃ s', BitSource.readInto dst offset length s = .ok (Octets.overlay dst offset ((ahead s).take length)) s' ∧
        Moved s length s'
  /-- A run that is longer than what is ahead cannot be read. -/
  readInto_short {s : σ} {length : Nat} (dst : Octets) (offset : Nat) :
    (ahead s).length < length → BitSource.readInto dst offset length s = .error .endOfStream s

/-! ## Views and buffers as sources -/

namespace BitView

/-- A view has as many bits as are ahead. -/
@[simp] theorem length_toList (v : BitView) : v.toList.length = v.remaining :=
  Octets.length_bitsFrom _ _ _

/-- The view on the octets of some bits. -/
theorem toList_ofOctets_ofBits (bits : List Bool) : (ofOctets (Octets.ofBits bits) bits.length).toList = bits := by
  have hsize : bits.length ≤ (Octets.ofBits bits).size * 8 := by
    rw [Octets.size_ofBits, Octets.countFor]
    omega
  show Octets.bitsFrom (Octets.ofBits bits) 0 (min bits.length ((Octets.ofBits bits).size * 8) - 0) = bits
  rw [Nat.min_eq_left hsize, Nat.sub_zero, Octets.bitsFrom_ofBits _ _ _ (by omega), List.drop_zero, List.take_length]

/-- The bits ahead after a move. -/
theorem toList_move (v : BitView) (n : Nat) : ({ v with position := v.position + n } : BitView).toList = v.toList.drop n := by
  rw [toList, toList, Octets.drop_bitsFrom]
  simp only [remaining]
  rw [Nat.sub_add_eq]

end BitView

/-- A view is read from its position on. -/
instance : LawfulBitSource BitView where
  ahead v := v.toList
  Moved v n v' := v' = { v with position := v.position + n } ∧ n ≤ v.remaining
  moved_refl v := ⟨rfl, Nat.zero_le _⟩
  moved_trans := by
    rintro v _ _ m n ⟨rfl, hm⟩ ⟨rfl, hn⟩
    simp only [BitView.remaining] at hm hn ⊢
    exact ⟨by rw [Nat.add_assoc], by omega⟩
  ahead_of_moved := by
    rintro v _ n ⟨rfl, _⟩
    exact BitView.toList_move v n
  remaining_eq v := (BitView.length_toList v).symm
  readBit_cons := by
    intro v bit rest h
    have hlen : 0 < v.remaining := by rw [← BitView.length_toList, h]; exact Nat.succ_pos _
    have hlt : v.position < v.stop := by simp only [BitView.remaining] at hlen; omega
    have hbit : Octets.getBit v.data v.position = bit := by
      have h0 := Octets.getElem?_bitsFrom v.data v.position v.remaining 0
      rw [if_pos hlen, ← BitView.toList, h] at h0
      exact (Option.some.inj h0).symm
    exact ⟨{ v with position := v.position + 1 }, by simp only [BitSource.readBit, BitView.readBit, if_pos hlt, hbit], rfl, hlen⟩
  readBit_nil := by
    intro v h
    have hlen : v.remaining = 0 := by rw [← BitView.length_toList, h]; rfl
    have hlt : ¬v.position < v.stop := by simp only [BitView.remaining] at hlen; omega
    simp only [BitSource.readBit, BitView.readBit, if_neg hlt]
  readInto_ok := by
    intro v length dst offset h
    rw [BitView.length_toList] at h
    refine ⟨{ v with position := v.position + length }, ?_, rfl, h⟩
    simp only [BitSource.readInto, BitView.readInto, if_neg (Nat.not_lt.mpr h)]
    rw [Octets.copyBits_eq_overlay, BitView.toList, Octets.take_bitsFrom, Nat.min_eq_left h]
  readInto_short := by
    intro v length dst offset h
    rw [BitView.length_toList] at h
    simp only [BitSource.readInto, BitView.readInto, if_pos h]

namespace BitBuffer

/-- The bits of a buffer that are still to be read. -/
def unread (b : BitBuffer) : BitView :=
  ⟨b.storage, b.readPosition, b.writePosition⟩

/-- A move over the unread bits is a move of the read position. -/
theorem moved_unread {b : BitBuffer} {n : Nat} {v : BitView} (h : LawfulBitSource.Moved b.unread n v) :
    LawfulBitSource.Moved b.unread n ({ b with readPosition := v.position } : BitBuffer).unread := by
  obtain ⟨rfl, hle⟩ := h
  exact ⟨rfl, hle⟩

/-- A buffer reads a bit as the view of its unread bits does. -/
theorem readBit_of_unread {b : BitBuffer} {bit : Bool} {v : BitView} (h : BitView.readBit b.unread = .ok bit v) :
    readBit b = .ok bit { b with readPosition := v.position } := by
  unfold BitView.readBit at h
  split at h
  · rename_i hlt
    cases h
    exact if_pos hlt
  · cases h

/-- A buffer reads a run of bits as the view of its unread bits does. -/
theorem readInto_of_unread {b : BitBuffer} {dst found : Octets} {offset length : Nat} {v : BitView}
    (h : BitView.readInto dst offset length b.unread = .ok found v) :
    readInto dst offset length b = .ok found { b with readPosition := v.position } := by
  unfold BitView.readInto at h
  split at h
  · cases h
  · rename_i hle
    cases h
    exact if_neg hle

end BitBuffer

/-- A buffer is read as the view on its unread bits is. -/
instance : LawfulBitSource BitBuffer where
  ahead b := b.unread.toList
  Moved b n b' := LawfulBitSource.Moved b.unread n b'.unread
  moved_refl b := LawfulBitSource.moved_refl b.unread
  moved_trans h h' := LawfulBitSource.moved_trans h h'
  ahead_of_moved h := LawfulBitSource.ahead_of_moved h
  remaining_eq b := LawfulBitSource.remaining_eq b.unread
  readBit_cons := by
    intro b bit rest h
    obtain ⟨v, hv, hm⟩ := LawfulBitSource.readBit_cons (s := b.unread) h
    exact ⟨_, BitBuffer.readBit_of_unread hv, BitBuffer.moved_unread hm⟩
  readBit_nil := by
    intro b h
    have hlen : b.unread.remaining = 0 := by rw [← BitView.length_toList, h]; rfl
    exact if_neg (Nat.not_lt.mpr (Nat.le_of_sub_eq_zero hlen))
  readInto_ok := by
    intro b length dst offset h
    obtain ⟨v, hv, hm⟩ := LawfulBitSource.readInto_ok (s := b.unread) dst offset h
    exact ⟨_, BitBuffer.readInto_of_unread hv, BitBuffer.moved_unread hm⟩
  readInto_short := by
    intro b length dst offset h
    rw [BitView.length_toList] at h
    exact if_pos h

namespace Unpacker

variable {σ α β : Type} [BitSource σ] [LawfulBitSource σ]

open LawfulBitSource

/-- With the bits in front of a state, the action succeeds with the result and moves over them. -/
def Takes (s : σ) (action : Unpacker σ α) (bits : List Bool) (result : α) : Prop :=
  bits <+: ahead s → ∃ s', action s = .ok result s' ∧ Moved s bits.length s'

/-- Whatever the action reads from a state on has a property, and the cursor has moved forward. -/
def Gives (s : σ) (action : Unpacker σ α) (P : α → Prop) : Prop :=
  ∀ ⦃x s'⦄, action s = .ok x s' → P x ∧ ∃ n, Moved s n s'

/-! ## How the statements chain -/

/-- A result alone takes no bits. -/
theorem takes_pure (s : σ) (x : α) : Takes s (pure x) [] x :=
  fun _ => ⟨s, rfl, moved_refl s⟩

/-- Bits in front that fall into two parts: the second part is in front once the first one is read. -/
theorem prefix_drop {bits more all : List Bool} (h : bits ++ more <+: all) : more <+: all.drop bits.length := by
  obtain ⟨rest, rfl⟩ := h
  rw [List.append_assoc, List.drop_left]
  exact List.prefix_append _ _

/-- Bits in front of others are in front of all. -/
theorem prefix_left {bits more all : List Bool} (h : bits ++ more <+: all) : bits <+: all :=
  (List.prefix_append _ _).trans h

/-- One action after another takes the bits of both. -/
theorem Takes.bind {s : σ} {m : Unpacker σ α} {f : α → Unpacker σ β} {bits more : List Bool} {x : α} {y : β}
    (h : Takes s m bits x) (h' : ∀ s', Moved s bits.length s' → Takes s' (f x) more y) :
    Takes s (m >>= f) (bits ++ more) y := by
  intro hp
  obtain ⟨s', hm, hv⟩ := h (prefix_left hp)
  obtain ⟨s'', hf, hv'⟩ := h' s' hv (by rw [ahead_of_moved hv]; exact prefix_drop hp)
  refine ⟨s'', by simp only [run_bind, hm, hf], ?_⟩
  rw [List.length_append]
  exact moved_trans hv hv'

/-- Changing the result of an action. -/
theorem Takes.map {s : σ} {m : Unpacker σ α} {bits : List Bool} {x : α} (f : α → β) (h : Takes s m bits x) :
    Takes s (f <$> m) bits (f x) := by
  intro hp
  obtain ⟨s', hm, hv⟩ := h hp
  exact ⟨s', by simp only [run_map, hm], hv⟩

/-- Bits that are taken wherever they are in front are read from the view on them. -/
theorem exists_of_takes {action : Unpacker BitView α} {bits : List Bool} {result : α} (h : ∀ v, Takes v action bits result) :
    ∃ v v' : BitView, v.toList = bits ∧ action v = .ok result v' := by
  have hlist := BitView.toList_ofOctets_ofBits bits
  have hfront : bits <+: ahead (BitView.ofOctets (.ofBits bits) bits.length) :=
    ⟨[], (List.append_nil bits).trans hlist.symm⟩
  obtain ⟨v', hread, -⟩ := h _ hfront
  exact ⟨_, v', hlist, hread⟩

omit [LawfulBitSource σ] in
/-- What follows the number of bits ahead. -/
theorem remaining_bind (s : σ) (f : Nat → Unpacker σ β) : (remaining >>= f) s = f (BitSource.remaining s) s := rfl

/-- A result that has the property, read from no bits. -/
theorem gives_pure {P : α → Prop} {x : α} (s : σ) (h : P x) : Gives s (pure x) P := by
  intro y s' hs
  cases hs
  exact ⟨h, 0, moved_refl s⟩

/-- A failure gives nothing. -/
theorem gives_throw (s : σ) (P : α → Prop) (fault : Fault) : Gives s (throw fault) P := by
  intro y s' hs
  cases hs

/-- What is given first may be counted on by what follows. -/
theorem Gives.bind {s : σ} {m : Unpacker σ α} {f : α → Unpacker σ β} {P : α → Prop} {Q : β → Prop} (h : Gives s m P)
    (h' : ∀ x s' n, P x → Moved s n s' → Gives s' (f x) Q) : Gives s (m >>= f) Q := by
  intro y s'' hs
  simp only [run_bind] at hs
  split at hs
  · rename_i x s' hm
    obtain ⟨hx, n, hn⟩ := h hm
    obtain ⟨hy, n', hn'⟩ := h' x s' n hx hn hs
    exact ⟨hy, n + n', moved_trans hn hn'⟩
  · cases hs

/-- A function of what is given. -/
theorem Gives.map {s : σ} {m : Unpacker σ α} {P : α → Prop} {Q : β → Prop} (f : α → β) (h : Gives s m P)
    (h' : ∀ x, P x → Q (f x)) : Gives s (f <$> m) Q := by
  intro y s' hs
  simp only [run_map] at hs
  split at hs
  · rename_i x s1 hm
    cases hs
    obtain ⟨hx, hn⟩ := h hm
    exact ⟨h' x hx, hn⟩
  · cases hs

/-- Less may be known of what is given. -/
theorem Gives.weaken {s : σ} {m : Unpacker σ α} {P Q : α → Prop} (h : Gives s m P) (h' : ∀ x, P x → Q x) : Gives s m Q :=
  fun x _ hs => ⟨h' x (h hs).1, (h hs).2⟩

/-- A choice between actions that give, each under its condition. -/
theorem gives_ite {s : σ} {c : Prop} [Decidable c] {m m' : Unpacker σ α} {P : α → Prop} (h : c → Gives s m P)
    (h' : ¬c → Gives s m' P) : Gives s (if c then m else m') P := by
  by_cases hc : c
  · rw [if_pos hc]
    exact h hc
  · rw [if_neg hc]
    exact h' hc

/-! ## Steps of reading -/

/-- A bit is taken. -/
theorem takes_bit (s : σ) (value : Bool) : Takes s bit [value] value := by
  rintro ⟨rest, h⟩
  exact readBit_cons h.symm

/-- What follows a bit. -/
theorem takes_bit_bind {s : σ} {value : Bool} {f : Bool → Unpacker σ β} {more : List Bool} {y : β}
    (h : ∀ s', Moved s 1 s' → Takes s' (f value) more y) : Takes s (bit >>= f) (value :: more) y :=
  Takes.bind (takes_bit s value) h

/-- Reading a bit goes forward, whatever it is. -/
theorem gives_bit (s : σ) : Gives s bit fun _ => True := by
  intro x s' hs
  cases ha : ahead s with
  | nil =>
    rw [bit, readBit_nil ha] at hs
    cases hs
  | cons b rest =>
    obtain ⟨s1, h1, hm⟩ := readBit_cons ha
    rw [bit, h1] at hs
    cases hs
    exact ⟨trivial, 1, hm⟩

/-- The number of bits ahead is looked at without moving. -/
theorem gives_remaining (s : σ) : Gives s remaining fun _ => True := by
  intro x s' hs
  cases hs
  exact ⟨trivial, 0, moved_refl s⟩

/-- A word takes up one more digit. -/
theorem shiftLeft_or_bit (high : Nat) (b : Bool) :
    (UInt64.ofNat high <<< 1) ||| (if b then 1 else 0) = UInt64.ofNat (2 * high + b.toNat) := by
  rw [← UInt64.toNat_inj, UInt64.toNat_or, UInt64.toNat_shiftLeft, UInt64.toNat_ofNat', UInt64.toNat_ofNat']
  have hb : (if b then 1 else 0 : UInt64).toNat = b.toNat := by cases b <;> rfl
  have hs : (high % 2 ^ 64) <<< ((1 : UInt64).toNat % 64) % 2 ^ 64 = (high % 2 ^ 63) <<< 1 := by
    rw [show (1 : UInt64).toNat % 64 = 1 by decide, Nat.shiftLeft_eq, Nat.shiftLeft_eq]
    omega
  have hle := Bool.toNat_le b
  rw [hb, hs, ← Nat.shiftLeft_add_eq_or_of_lt (by omega), Nat.shiftLeft_eq]
  omega

/-- Digits are read below those read before. -/
theorem takes_bitsBelow (s : σ) (high : Nat) (bits : List Bool) :
    Takes s (bitsBelow (UInt64.ofNat high) bits.length) bits (UInt64.ofNat (Bits.below high bits)) := by
  induction bits generalizing s high with
  | nil => exact takes_pure s _
  | cons b rest ih =>
    refine takes_bit_bind fun s' _ => ?_
    rw [shiftLeft_or_bit]
    exact ih s' _

/-- Digits that are read take the number before them up by their width. -/
theorem gives_bitsBelow (s : σ) (high : UInt64) (width : Nat) :
    Gives s (bitsBelow high width) fun value => value.toNat < (high.toNat + 1) * 2 ^ width := by
  induction width generalizing s high with
  | zero => exact gives_pure s (by omega)
  | succ width ih =>
    refine (gives_bit s).bind fun b s' _ _ _ => (ih s' _).weaken fun value hv => Nat.lt_of_lt_of_le hv ?_
    have hle : ((high <<< 1) ||| (if b then 1 else 0)).toNat ≤ 2 * high.toNat + b.toNat := by
      have h := shiftLeft_or_bit high.toNat b
      rw [UInt64.ofNat_toNat] at h
      rw [h, UInt64.toNat_ofNat']
      exact Nat.mod_le _ _
    have hb := Bool.toNat_le b
    calc (((high <<< 1) ||| (if b then 1 else 0)).toNat + 1) * 2 ^ width
        ≤ (2 * high.toNat + 2) * 2 ^ width := Nat.mul_le_mul_right _ (by omega)
      _ = (high.toNat + 1) * 2 ^ (width + 1) := by
        rw [Nat.pow_succ, show 2 * high.toNat + 2 = (high.toNat + 1) * 2 by omega, Nat.mul_assoc, Nat.mul_comm 2]

/-- A word is the number of its digits. -/
theorem takes_word (s : σ) {width : Nat} {bits : List Bool} (hl : bits.length = width) (h : width ≤ 64) :
    Takes s (word width) bits (UInt64.ofNat (Bits.toNat bits)) := by
  intro hp
  have hr : ¬width > BitSource.remaining s := by
    rw [remaining_eq]
    have := hp.length_le
    omega
  have hw : (word width : Unpacker σ UInt64) s = bitsBelow 0 width s := by
    simp only [word, if_neg (Nat.not_lt.mpr h)]
    exact congrFun (if_neg hr) s
  rw [hw, ← hl]
  exact takes_bitsBelow s 0 bits hp

/-- A number of a fixed width is read back. -/
theorem takes_word_ofNat (s : σ) {value width : Nat} (hv : value < 2 ^ width) (h : width ≤ 64) :
    Takes s (word width) (Bits.ofNat value width) (UInt64.ofNat value) := by
  have ht := takes_word s (Bits.length_ofNat value width) h
  rw [Bits.toNat_ofNat hv] at ht
  exact ht

/-- A word that is read fits into its width. -/
theorem gives_word (s : σ) (width : Nat) : Gives s (word width) fun value => value.toNat < 2 ^ width := by
  unfold word
  by_cases h64 : width > 64
  · rw [if_pos h64]
    exact gives_throw s _ _
  · rw [if_neg h64]
    refine (gives_remaining s).bind fun ahead s1 _ _ _ => ?_
    by_cases hr : width > ahead
    · rw [if_pos hr]
      exact gives_throw s1 _ _
    · rw [if_neg hr]
      refine (gives_bitsBelow s1 0 width).weaken fun value hv => ?_
      rw [show (0 : UInt64).toNat = 0 from rfl, Nat.zero_add, Nat.one_mul] at hv
      exact hv

/-- A run is laid over the destination. -/
theorem takes_run (s : σ) (dst : Octets) (offset : Nat) (bits : List Bool) :
    Takes s (run dst offset bits.length) bits (Octets.overlay dst offset bits) := by
  intro hp
  obtain ⟨s', hr, hm⟩ := readInto_ok dst offset hp.length_le
  rw [← List.prefix_iff_eq_take.mp hp] at hr
  exact ⟨s', hr, hm⟩

/-- A run that is read keeps the size of the destination. -/
theorem gives_run (s : σ) (dst : Octets) (offset length : Nat) :
    Gives s (run dst offset length) fun data => data.size = dst.size := by
  intro x s' hs
  by_cases hl : length ≤ (ahead s).length
  · obtain ⟨s1, h1, hm⟩ := readInto_ok dst offset hl
    rw [run, h1] at hs
    cases hs
    exact ⟨Octets.size_overlay _ _ _, _, hm⟩
  · rw [run, readInto_short dst offset (by omega)] at hs
    cases hs

end Unpacker

end UnalignedPer
