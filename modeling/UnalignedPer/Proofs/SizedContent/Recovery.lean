import UnalignedPer.Proofs.OctetString
import UnalignedPer.Proofs.SizedContent.Chunking

/-!
# What was read stood in front

A read that succeeds tells which bits it took. `Unpacker.Parses` says so, and how the bits go with the result: the bits of a length
determinant announce the chunk that was read (`LengthDeterminant.parses_unpackFree`), and those of a content of free length are its
chunks (`SizedContent.parses_unpackFrom`). Chunks of whole octets are the chunks of some octet string
(`SizedContent.chunking_of_chunked`).
-/

namespace UnalignedPer

/-! ## Digits and octets -/

namespace Bits

/-- A number tells the digits that it was read from, and the number before them. -/
theorem ofNat_below (high : Nat) (bits : List Bool) :
    ofNat (below high bits) bits.length = bits ∧ below high bits / 2 ^ bits.length = high := by
  induction bits generalizing high with
  | nil => exact ⟨rfl, Nat.div_one high⟩
  | cons bit rest ih =>
    obtain ⟨hrest, hhigh⟩ := ih (2 * high + bit.toNat)
    have hbit : bit.toNat < 2 := Bool.toNat_lt bit
    rw [below, List.length_cons, ofNat, hrest, Nat.testBit_eq_decide_div_mod_eq, hhigh, Nat.pow_succ, ← Nat.div_div_eq_div_mul,
      hhigh, Nat.mul_add_mod, Nat.mod_eq_of_lt hbit]
    refine ⟨?_, by omega⟩
    cases bit <;> rfl

/-- The digits of the number of some digits. -/
theorem ofNat_toNat (bits : List Bool) : ofNat (toNat bits) bits.length = bits :=
  (ofNat_below 0 bits).1

/-- A number is below the power of two of its digits. -/
theorem toNat_lt (bits : List Bool) : toNat bits < 2 ^ bits.length :=
  Nat.lt_of_div_eq_zero (Nat.two_pow_pos _) (ofNat_below 0 bits).2

/-- Units of eight bits have eight bits each. -/
theorem length_flatten_of_octets {units : List (List Bool)} (h : ∀ unit ∈ units, unit.length = 8) :
    units.flatten.length = units.length * 8 := by
  induction units with
  | nil => rfl
  | cons unit units ih =>
    obtain ⟨hunit, hunits⟩ := List.forall_mem_cons.mp h
    rw [List.flatten_cons, List.length_append, hunit, ih hunits, List.length_cons]
    omega

/-- Octets in a row fall into the same octets again. -/
theorem octets_flatten {units : List (List Bool)} (h : ∀ unit ∈ units, unit.length = 8) : octets units.flatten = units := by
  induction units with
  | nil => rfl
  | cons unit units ih =>
    obtain ⟨hunit, hunits⟩ := List.forall_mem_cons.mp h
    have hcount : (unit ++ units.flatten).length / 8 = units.flatten.length / 8 + 1 := by
      rw [List.length_append, hunit]
      omega
    rw [List.flatten_cons, octets, hcount, List.range_succ_eq_map, List.map_cons, List.map_map]
    refine congrArg₂ List.cons ?_ ((List.map_congr_left fun i _ => ?_).trans (ih hunits))
    · rw [Nat.zero_mul, List.drop_zero, ← hunit, List.take_left]
    · have hplace : (i + 1) * 8 = unit.length + i * 8 := by omega
      rw [Function.comp_apply, Nat.succ_eq_add_one, hplace, ← List.drop_drop, List.drop_left]

end Bits

/-- Some octets are those of an octet string. -/
theorem OctetString.exists_units {units : List (List Bool)} (h : ∀ unit ∈ units, unit.length = 8) :
    ∃ value, OctetString.units value = units := by
  have hlength := Bits.length_flatten_of_octets h
  refine ⟨Octets.ofBits units.flatten, ?_⟩
  have hsize : (Octets.ofBits units.flatten).size * 8 = units.flatten.length := by
    rw [Octets.size_ofBits, Octets.countFor]
    omega
  rw [OctetString.units, hsize, Octets.bitsFrom_ofBits _ _ _ (by omega), List.drop_zero, List.take_length, Bits.octets_flatten h]

/-! ## Reads that tell their bits -/

namespace Unpacker

variable {σ α β : Type} [BitSource σ] [LawfulBitSource σ]

open LawfulBitSource

/-- Whatever the action reads from a state on goes with the bits that stood in front, and the cursor has moved over them. -/
def Parses (s : σ) (action : Unpacker σ α) (P : α → List Bool → Prop) : Prop :=
  ∀ ⦃x s'⦄, action s = .ok x s' → ∃ bits, P x bits ∧ bits <+: ahead s ∧ Moved s bits.length s'

variable {s : σ} {P : α → List Bool → Prop} {Q : β → List Bool → Prop}

/-- A result alone goes with no bits. -/
theorem parses_pure {x : α} (h : P x []) : Parses s (pure x) P := by
  rintro _ _ ⟨⟩
  exact ⟨[], h, List.nil_prefix, moved_refl s⟩

/-- A failure reads nothing. -/
theorem parses_throw (fault : Fault) : Parses s (throw fault) P := by
  rintro _ _ ⟨⟩

/-- Bits in front, and more bits in front of what is behind them. -/
theorem prefix_of_drop {bits more all : List Bool} (h : bits <+: all) (h' : more <+: all.drop bits.length) :
    bits ++ more <+: all := by
  obtain ⟨rest, rfl⟩ := h
  rw [List.drop_left] at h'
  exact (List.prefix_append_right_inj bits).mpr h'

/-- What two actions read goes with the bits of the first and then of the second. -/
theorem Parses.bind {m : Unpacker σ α} {f : α → Unpacker σ β} (h : Parses s m P)
    (h' : ∀ x s' bits, P x bits → Moved s bits.length s' → Parses s' (f x) fun y more => Q y (bits ++ more)) :
    Parses s (m >>= f) Q := by
  intro y s2 hs
  rw [run_bind] at hs
  split at hs
  · rename_i x s1 hm
    obtain ⟨bits, hx, hfront, hmoved⟩ := h hm
    obtain ⟨more, hy, hback, hmoved'⟩ := h' x s1 bits hx hmoved hs
    refine ⟨bits ++ more, hy, ?_, ?_⟩
    · rw [ahead_of_moved hmoved] at hback
      exact prefix_of_drop hfront hback
    · rw [List.length_append]
      exact moved_trans hmoved hmoved'
  · cases hs

/-- Less may be known of what is read and its bits. -/
theorem Parses.weaken {m : Unpacker σ α} {P' : α → List Bool → Prop} (h : Parses s m P) (h' : ∀ x bits, P x bits → P' x bits) :
    Parses s m P' := by
  intro x s' hs
  obtain ⟨bits, hx, hbits⟩ := h hs
  exact ⟨bits, h' x bits hx, hbits⟩

/-- A choice between readings, each under its condition. -/
theorem parses_ite {c : Prop} [Decidable c] {m m' : Unpacker σ α} (h : c → Parses s m P) (h' : ¬c → Parses s m' P) :
    Parses s (if c then m else m') P := by
  split
  · exact h ‹_›
  · exact h' ‹_›

/-- What takes any bits of a length goes with the next bits of this length, if it fails when there are fewer. -/
theorem parses_of_takes {m : Unpacker σ α} {length : Nat} {result : List Bool → α}
    (h : ∀ bits, bits.length = length → Takes s m bits (result bits))
    (hshort : (ahead s).length < length → ∃ fault s', m s = .error fault s') :
    Parses s m fun x bits => bits.length = length ∧ x = result bits := by
  intro x s' hs
  rcases Nat.lt_or_ge (ahead s).length length with hlt | hge
  · obtain ⟨fault, s1, herror⟩ := hshort hlt
    rw [herror] at hs
    cases hs
  · have hlength : ((ahead s).take length).length = length := List.length_take_of_le hge
    obtain ⟨s1, h1, hmoved⟩ := h _ hlength (List.take_prefix length (ahead s))
    rw [h1] at hs
    cases hs
    exact ⟨_, ⟨hlength, rfl⟩, List.take_prefix length (ahead s), hmoved⟩

/-- A bit goes with itself. -/
theorem parses_bit (s : σ) : Parses s bit fun x bits => bits = [x] := by
  intro x s' hs
  cases hbits : ahead s with
  | nil =>
    rw [bit, readBit_nil hbits] at hs
    cases hs
  | cons next rest =>
    obtain ⟨s1, h1, hmoved⟩ := readBit_cons hbits
    rw [bit, h1] at hs
    cases hs
    exact ⟨[x], rfl, List.prefix_append [x] rest, hmoved⟩

/-- A word is the number of the digits that it was read from. -/
theorem parses_word (s : σ) {width : Nat} (h : width ≤ 64) :
    Parses s (word width) fun x bits => bits.length = width ∧ x = UInt64.ofNat (Bits.toNat bits) := by
  refine parses_of_takes (fun bits hlength => takes_word s hlength h) fun hshort => ⟨.endOfStream, s, ?_⟩
  have hahead : width > BitSource.remaining s := by
    rw [remaining_eq]
    exact hshort
  simp only [word, if_neg (Nat.not_lt.mpr h)]
  exact congrFun (if_pos hahead) s

/-- A run takes as many bits as are asked for. -/
theorem parses_run (s : σ) (dst : Octets) (offset length : Nat) :
    Parses s (run dst offset length) fun _ bits => bits.length = length := by
  have hparses : Parses s (run dst offset length) fun x bits => bits.length = length ∧ x = Octets.overlay dst offset bits := by
    refine parses_of_takes (fun bits hlength => ?_) fun hshort => ⟨.endOfStream, s, readInto_short dst offset hshort⟩
    subst hlength
    exact takes_run s dst offset bits
  exact hparses.weaken fun _ _ h => h.1

end Unpacker

namespace LengthDeterminant

open Unpacker (Parses)

variable {σ : Type} [BitSource σ] [LawfulBitSource σ]

/-- A number of a fixed width is read from its digits. -/
theorem parses_unpackWidth (s : σ) {width : Nat} (h : width ≤ 64) :
    Parses s (unpackWidth width) fun value bits => value < 2 ^ width ∧ bits = Bits.ofNat value width := by
  rw [unpackWidth, map_eq_pure_bind]
  refine (Unpacker.parses_word s h).bind fun x s1 bits hx _ => Unpacker.parses_pure ?_
  obtain ⟨rfl, rfl⟩ := hx
  have hlt : Bits.toNat bits < UInt64.size :=
    Nat.lt_of_lt_of_le (Bits.toNat_lt bits) (Nat.pow_le_pow_right (by decide) h)
  rw [List.append_nil, UInt64.toNat_ofNat_of_lt' hlt]
  exact ⟨Bits.toNat_lt bits, (Bits.ofNat_toNat bits).symm⟩

/-- A chunk that was read was announced. -/
theorem parses_unpackFree (s : σ) : Parses s unpackFree Announces := by
  refine (Unpacker.parses_bit s).bind fun isLong s1 first hfirst _ => ?_
  subst hfirst
  cases isLong with
  | false =>
    refine (parses_unpackWidth s1 (by decide)).bind fun count s2 digits hdigits _ => Unpacker.parses_pure ?_
    obtain ⟨hcount, rfl⟩ := hdigits
    rw [List.append_nil]
    exact .short (Nat.le_of_lt_succ hcount)
  | true =>
    refine (Unpacker.parses_bit s1).bind fun isFragment s2 second hsecond _ => ?_
    subst hsecond
    cases isFragment with
    | false =>
      refine (parses_unpackWidth s2 (by decide)).bind fun count s3 digits hdigits _ => Unpacker.parses_pure ?_
      obtain ⟨hcount, rfl⟩ := hdigits
      rw [List.append_nil]
      exact .long hcount
    | true =>
      refine (parses_unpackWidth s2 (by decide)).bind fun units s3 digits hdigits _ => ?_
      obtain ⟨-, rfl⟩ := hdigits
      refine Unpacker.parses_ite (fun _ => Unpacker.parses_throw _) fun hunits => Unpacker.parses_pure ?_
      rw [List.append_nil]
      exact .fragment (by omega) (by omega)

end LengthDeterminant

namespace SizedContent

open LengthDeterminant
open Unpacker (Parses)

section Unpack

variable {σ α : Type} [BitSource σ] [LawfulBitSource σ] {s : σ} {consume : α → Nat → Unpacker σ α} {unitBits : Nat}
  {limit : Option Nat}

/-- The check of a chunk reads no bits. -/
theorem parses_checkChunk (s : σ) (unitBits : Nat) (limit : Option Nat) (total count : Nat) :
    Parses s (checkChunk unitBits limit total count) fun _ bits => bits = [] := by
  refine Unpacker.parses_ite (fun _ => Unpacker.parses_throw _) fun _ x s' hs => ?_
  rw [Unpacker.remaining_bind] at hs
  exact Unpacker.parses_ite (P := fun _ bits => bits = []) (fun _ => Unpacker.parses_throw _)
    (fun _ => Unpacker.parses_pure rfl) hs

/-- The units of the chunk that was announced, and the chunks behind it, stood in front. -/
theorem parses_unpackFrom (hc : ∀ (s' : σ) sofar count, Parses s' (consume sofar count) fun _ bits => bits.length = count * unitBits)
    (total : Nat) (sofar : α) (chunk : Chunk) (fuel : Nat) :
    Parses s (unpackFrom .free unitBits limit consume total sofar chunk fuel) fun _ bits =>
      ∀ header, Announces chunk header →
        ∃ parts, Chunked parts (header ++ bits) ∧ ∀ part ∈ parts, part.bits.length = part.count * unitBits := by
  induction fuel generalizing s total sofar chunk with
  | zero => exact Unpacker.parses_throw _
  | succ fuel ih =>
    refine (parses_checkChunk s unitBits limit _ _).bind fun _ s1 _ hnil _ => ?_
    subst hnil
    refine (hc s1 sofar chunk.units).bind fun next s2 units hunits _ => ?_
    obtain ⟨count, isFragment⟩ := chunk
    cases isFragment with
    | false =>
      refine Unpacker.parses_pure fun header ha => ⟨[⟨count, units⟩], ?_, List.forall_mem_singleton.mpr hunits⟩
      rw [List.append_nil]
      exact @Chunked.last ⟨count, units⟩ header ha
    | true =>
      refine (parses_unpackFree s2).bind fun chunk' s3 header' ha' _ => ?_
      refine (ih (total + count) next chunk').weaken fun found more hmore header ha => ?_
      obtain ⟨parts, hchunked, hwhole⟩ := hmore header' ha'
      exact ⟨_, @Chunked.fragment ⟨count, units⟩ parts header _ ha hchunked, List.forall_mem_cons.mpr ⟨hunits, hwhole⟩⟩

end Unpack

/-- Chunks of whole octets are the chunks of an octet string. -/
theorem chunking_of_chunked {parts : List Part} {bits : List Bool} (h : Chunked parts bits)
    (hwhole : ∀ part ∈ parts, part.bits.length = part.count * 8) : ∃ value, Chunking (OctetString.units value) bits := by
  have hpiece : ∀ part ∈ parts, Part.ofUnits (Bits.octets part.bits) = part := by
    intro part hmem
    have hlength := hwhole part hmem
    have hflat := Bits.flatten_octets part.bits 0 part.count (by omega)
    have hcount : (Bits.octets part.bits).length = part.count := by
      rw [Bits.length_octets]
      omega
    rw [List.drop_zero, ← hcount, List.take_length, Nat.zero_mul, List.drop_zero, hcount, ← hlength, List.take_length] at hflat
    rw [Part.ofUnits, hcount, hflat]
  have hpieces : (parts.map fun part => Bits.octets part.bits).map Part.ofUnits = parts := by
    rw [List.map_map]
    exact (List.map_congr_left hpiece).trans (List.map_id parts)
  have hoctet : ∀ unit ∈ (parts.map fun part => Bits.octets part.bits).flatten, unit.length = 8 := by
    intro unit hmem
    obtain ⟨piece, hmap, hunit⟩ := List.mem_flatten.mp hmem
    obtain ⟨part, -, rfl⟩ := List.mem_map.mp hmap
    exact Bits.length_of_mem_octets hunit
  obtain ⟨value, hvalue⟩ := OctetString.exists_units hoctet
  exact ⟨value, _, hvalue.symm, hpieces.symm ▸ h⟩

end SizedContent

end UnalignedPer
