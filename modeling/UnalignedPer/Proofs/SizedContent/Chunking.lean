import UnalignedPer.Proofs.SizedContent

/-!
# Contents in chunks of any size

A writer cuts a content of free length greedily, and announces each chunk as briefly as it can. A reader accepts more: any fragments
of one to four units of 16384 before a last chunk that is shorter than a fragment, which may be announced in two octets even if one
would do (`LengthDeterminant.Announces`, `SizedContent.Chunked`). What the units of a chunk look like is left open here: a chunk is a
number of units and the bits that they take (`SizedContent.Part`), and a reader that takes the parts one by one
(`SizedContent.Reads`) reads them from every content that they are the chunks of (`SizedContent.takes_unpackCounted_chunked`).
-/

namespace UnalignedPer

namespace LengthDeterminant

/-- The bits that may announce a chunk. -/
inductive Announces : Chunk → List Bool → Prop
  /-- One octet. -/
  | short {count : Nat} (h : count ≤ shortLimit) : Announces ⟨count, false⟩ (false :: Bits.ofNat count 7)
  /-- Two octets. -/
  | long {count : Nat} (h : count < fragmentUnit) : Announces ⟨count, false⟩ (true :: false :: Bits.ofNat count 14)
  /-- A fragment header, behind whose units another chunk is announced. -/
  | fragment {units : Nat} (h : 1 ≤ units) (h' : units ≤ maxFragmentUnits) :
    Announces ⟨units * fragmentUnit, true⟩ (true :: true :: Bits.ofNat units 6)

/-- A writer announces the front of a content. -/
theorem announces_freeForm (length : Nat) : Announces (chunkOf length) (freeForm length) := by
  unfold chunkOf freeForm
  by_cases hs : length < fragmentUnit
  · rw [covered_of_lt hs, decide_eq_false (by omega)]
    by_cases h7 : length ≤ shortLimit
    · rw [if_pos h7]
      exact .short h7
    · rw [if_neg h7, if_pos hs]
      exact .long hs
  · obtain ⟨hlo, hhi⟩ := headerUnits_bounds hs
    rw [covered, if_neg hs, decide_eq_true (by omega), if_neg (by simp only [shortLimit, fragmentUnit] at *; omega), if_neg hs]
    exact .fragment hlo hhi

/-- An announcement takes at least one octet. -/
theorem Announces.length_le {chunk : Chunk} {bits : List Bool} (h : Announces chunk bits) : 8 ≤ bits.length := by
  cases h <;> simp

/-- A last chunk is shorter than a fragment. -/
theorem Announces.last_lt {count : Nat} {bits : List Bool} (h : Announces ⟨count, false⟩ bits) : count < fragmentUnit := by
  cases h with
  | short h =>
    simp only [shortLimit, fragmentUnit] at *
    omega
  | long h => exact h

/-- A fragment has one to four units. -/
theorem Announces.fragment_eq {count : Nat} {bits : List Bool} (h : Announces ⟨count, true⟩ bits) :
    ∃ units, 1 ≤ units ∧ units ≤ maxFragmentUnits ∧ count = units * fragmentUnit := by
  cases h with
  | fragment h h' => exact ⟨_, h, h', rfl⟩

/-- Whatever announces a chunk is read as this chunk. -/
theorem Announces.takes_unpackFree {σ : Type} [BitSource σ] [LawfulBitSource σ] {chunk : Chunk} {bits : List Bool}
    (h : Announces chunk bits) (s : σ) : Unpacker.Takes s unpackFree bits chunk := by
  unfold unpackFree
  cases h with
  | short h =>
    simp only [shortLimit] at h
    refine Unpacker.takes_bit_bind fun s1 _ => ?_
    rw [if_pos Bool.not_false]
    exact (takes_unpackWidth s1 (by omega) (by omega)).map fun n => (⟨n, false⟩ : Chunk)
  | long h =>
    simp only [fragmentUnit] at h
    refine Unpacker.takes_bit_bind fun s1 _ => ?_
    rw [if_neg (by decide)]
    refine Unpacker.takes_bit_bind fun s2 _ => ?_
    rw [if_pos Bool.not_false]
    exact (takes_unpackWidth s2 (by omega) (by omega)).map fun n => (⟨n, false⟩ : Chunk)
  | fragment h h' =>
    simp only [maxFragmentUnits] at h'
    refine Unpacker.takes_bit_bind fun s1 _ => ?_
    rw [if_neg (by decide)]
    refine Unpacker.takes_bit_bind fun s2 _ => ?_
    rw [if_neg (by decide), ← List.append_nil (Bits.ofNat _ _)]
    refine Unpacker.Takes.bind (takes_unpackWidth s2 (by omega) (by omega)) fun s3 _ => ?_
    rw [if_neg (by simp only [maxFragmentUnits]; omega)]
    exact Unpacker.takes_pure s3 _

end LengthDeterminant

namespace SizedContent

open LengthDeterminant

/-- A part of a content. -/
structure Part where
  /-- The number of its units. -/
  count : Nat
  /-- The bits that they take. -/
  bits : List Bool

/-- The number of units of some parts. -/
def total : List Part → Nat
  | [] => 0
  | part :: parts => part.count + total parts

@[simp] theorem total_cons (part : Part) (parts : List Part) : total (part :: parts) = part.count + total parts := rfl

/-- The bits are a content of free length that has the parts for its chunks. -/
inductive Chunked : List Part → List Bool → Prop
  /-- The last chunk. -/
  | last {part : Part} {header : List Bool} (h : Announces ⟨part.count, false⟩ header) :
    Chunked [part] (header ++ part.bits)
  /-- A fragment and the chunks after it. -/
  | fragment {part : Part} {parts : List Part} {header bits : List Bool} (h : Announces ⟨part.count, true⟩ header)
      (rest : Chunked parts bits) : Chunked (part :: parts) (header ++ (part.bits ++ bits))

/-- All chunks but the last are fragments, and the last is shorter than one. -/
theorem Chunked.counts {parts : List Part} {bits : List Bool} (h : Chunked parts bits) :
    ∃ front last, parts = front ++ [last] ∧ last.count < fragmentUnit ∧
      ∀ part ∈ front, ∃ units, 1 ≤ units ∧ units ≤ maxFragmentUnits ∧ part.count = units * fragmentUnit := by
  induction h with
  | @last part header h => exact ⟨[], part, rfl, h.last_lt, fun _ hm => absurd hm List.not_mem_nil⟩
  | @fragment part parts header bits h _ ih =>
    obtain ⟨front, last, rfl, hlast, hfront⟩ := ih
    refine ⟨part :: front, last, rfl, hlast, fun other hm => ?_⟩
    rcases List.mem_cons.mp hm with rfl | hm
    · exact h.fragment_eq
    · exact hfront other hm

/-! ## Reading -/

section Unpack

variable {σ α : Type} [BitSource σ] [LawfulBitSource σ] {s : σ} {consume : α → Nat → Unpacker σ α} {unitBits : Nat}
  {limit : Option Nat}

/-- From states ahead of `s`, the parts are read one after the other, each onto what was read before it. -/
inductive Reads (s : σ) (consume : α → Nat → Unpacker σ α) : α → List Part → α → Prop
  /-- Nothing is left. -/
  | done (sofar : α) : Reads s consume sofar [] sofar
  /-- A part and those behind it. -/
  | next {sofar after last : α} {part : Part} {parts : List Part}
      (h : ∀ s' n, LawfulBitSource.Moved s n s' → Unpacker.Takes s' (consume sofar part.count) part.bits after)
      (rest : Reads s consume after parts last) : Reads s consume sofar (part :: parts) last

/-- What may be asked of the parts before they are read: their units are within the limit, and no part is too short. -/
structure Fitting (unitBits : Nat) (limit : Option Nat) (before : Nat) (parts : List Part) : Prop where
  /-- The number of units, and of those before them, is within the limit. -/
  within : ∀ l, limit = some l → before + total parts ≤ l
  /-- Every part takes the bits that its units take. -/
  wide : ∀ part ∈ parts, part.count * unitBits ≤ part.bits.length

theorem Fitting.tail {before : Nat} {part : Part} {parts : List Part} (h : Fitting unitBits limit before (part :: parts)) :
    Fitting unitBits limit (before + part.count) parts where
  within l hl := by
    have := h.within l hl
    rw [total_cons] at this
    omega
  wide other hm := h.wide other (List.mem_cons_of_mem _ hm)

/-- What may be asked of the first part. -/
theorem Fitting.head {before : Nat} {part : Part} {parts : List Part} (h : Fitting unitBits limit before (part :: parts)) :
    (∀ l, limit = some l → before + part.count ≤ l) ∧ part.count * unitBits ≤ part.bits.length := by
  refine ⟨fun l hl => ?_, h.wide part (List.mem_cons_self ..)⟩
  have := h.within l hl
  rw [total_cons] at this
  omega

/-- The chunks of a content are read as its parts, if there is fuel for each of them. -/
theorem takes_unpackFrom_chunked {parts : List Part} {bits : List Bool} (hc : Chunked parts bits) :
    ∀ (fuel : Nat) {before : Nat} {sofar last : α} {s' : σ} {n : Nat}, LawfulBitSource.Moved s n s' →
      Reads s consume sofar parts last → Fitting unitBits limit before parts → bits.length ≤ fuel →
      Unpacker.Takes s' (unpackFree >>= fun chunk => unpackFrom .free unitBits limit consume before sofar chunk fuel) bits
        (before + total parts, last) := by
  induction hc with
  | @last part header h =>
    intro fuel before sofar last s' n hm hf hr hfuel
    cases hf with
    | @next _ after _ _ _ hpart rest =>
    cases rest
    have hhead := h.length_le
    rw [List.length_append] at hfuel
    obtain ⟨fuel, rfl⟩ : ∃ k, fuel = k + 1 := ⟨fuel - 1, by omega⟩
    refine (h.takes_unpackFree s').bind fun s1 hm1 => ?_
    exact takes_unpackFrom_final .free fuel hr.head.1 hr.head.2 (hpart s1 _ (LawfulBitSource.moved_trans hm hm1))
  | @fragment part parts header bits h rest ih =>
    intro fuel before sofar last s' n hm hf hr hfuel
    cases hf with
    | @next _ after _ _ _ hpart hrest =>
    have hhead := h.length_le
    rw [List.length_append, List.length_append] at hfuel
    obtain ⟨fuel, rfl⟩ : ∃ k, fuel = k + 1 := ⟨fuel - 1, by omega⟩
    refine (h.takes_unpackFree s').bind fun s1 hm1 => ?_
    have hm2 := LawfulBitSource.moved_trans hm hm1
    refine takes_unpackFrom_fragment hr.head.1 hr.head.2 (hpart s1 _ hm2) fun s2 hm3 => ?_
    rw [total_cons, ← Nat.add_assoc]
    exact ih fuel (LawfulBitSource.moved_trans hm2 hm3) hrest hr.tail (by omega)

/-- A content of free length is read as its parts. -/
theorem takes_unpackCounted_chunked {parts : List Part} {bits : List Bool} {size : Bounds Nat} {start last : α} {s' : σ}
    {n : Nat} (hc : Chunked parts bits) (hf : Reads s consume start parts last) (hr : Fitting unitBits limit 0 parts)
    (hb : boundedUpper size = none) (hs : inRoot size (total parts) = true) (hm : LawfulBitSource.Moved s n s') :
    Unpacker.Takes s' (unpackCounted size unitBits limit start consume) bits last := by
  unfold unpackCounted
  refine takes_remaining_bind fun ahead ha => ?_
  rw [hb]
  have hall := takes_unpackFrom_chunked hc (ahead + 1) hm hf hr (by omega)
  have hlast : Unpacker.Takes s'
      ((unpackFree >>= fun chunk => unpackFrom .free unitBits limit consume 0 start chunk (ahead + 1)) >>= fun found =>
        if inRoot size found.1 then pure found.2 else throw (outsideFault size found.1)) bits last := by
    rw [← List.append_nil bits]
    refine hall.bind fun s1 _ => ?_
    rw [Nat.zero_add, if_pos hs]
    exact Unpacker.takes_pure s1 last
  rw [bind_assoc] at hlast
  exact hlast

end Unpack

/-! ## Units in chunks -/

/-- Some units as one part. -/
def Part.ofUnits (units : List (List Bool)) : Part :=
  ⟨units.length, units.flatten⟩

/-- The bits are a content of free length, in chunks of any legal sizes, of the units. -/
def Chunking (units : List (List Bool)) (bits : List Bool) : Prop :=
  ∃ pieces : List (List (List Bool)), pieces.flatten = units ∧ Chunked (pieces.map Part.ofUnits) bits

theorem total_ofUnits (pieces : List (List (List Bool))) : total (pieces.map Part.ofUnits) = pieces.flatten.length := by
  induction pieces with
  | nil => rfl
  | cons piece pieces ih =>
    rw [List.map_cons, total_cons, ih, List.flatten_cons, List.length_append]
    rfl

/-- The chunks of a writer are one way to cut a content. -/
theorem chunking_fragments (units : List (List Bool)) : Chunking units (fragments units) := by
  induction units using chunks.induct with
  | case1 units ih =>
    have hannounces := announces_freeForm units.length
    rw [fragments, chunks]
    by_cases hlast : units.length < fragmentUnit
    · rw [chunkOf, covered_of_lt hlast, decide_eq_false (by omega)] at hannounces
      rw [dif_pos hlast, covered_of_lt hlast, List.take_length, List.append_nil]
      exact ⟨[units], by simp, .last hannounces⟩
    · obtain ⟨pieces, hflatten, hrest⟩ := ih hlast
      have hcov := (covered_bounds units.length hlast).2
      have hfront : (units.take (covered units.length)).length = covered units.length := by
        rw [List.length_take]
        omega
      rw [chunkOf, decide_eq_true (by omega)] at hannounces
      rw [fragments, List.length_drop] at hrest
      rw [dif_neg hlast]
      have hpiece : Announces ⟨(Part.ofUnits (units.take (covered units.length))).count, true⟩ (freeForm units.length) := by
        rw [← hfront] at hannounces
        exact hannounces
      exact ⟨units.take (covered units.length) :: pieces, by rw [List.flatten_cons, hflatten, List.take_append_drop],
        .fragment hpiece hrest⟩

section Unpack

variable {σ α : Type} [BitSource σ] [LawfulBitSource σ] {s : σ} {consume : α → Nat → Unpacker σ α} {unitBits : Nat}
  {limit : Option Nat} {units : List (List Bool)} {sofar : Nat → α}

/-- Units that are read onto those before them are read in any pieces. -/
theorem reads_pieces (h : Consumes s consume units sofar) (pieces : List (List (List Bool))) :
    ∀ offset, offset ≤ units.length → pieces.flatten = units.drop offset →
      Reads s consume (sofar offset) (pieces.map Part.ofUnits) (sofar units.length) := by
  induction pieces with
  | nil =>
    intro offset ho hp
    have hlen := congrArg List.length hp
    rw [List.flatten_nil, List.length_nil, List.length_drop] at hlen
    obtain rfl : offset = units.length := by omega
    exact .done _
  | cons piece pieces ih =>
    intro offset ho hp
    rw [List.flatten_cons] at hp
    have hlen := congrArg List.length hp
    rw [List.length_append, List.length_drop] at hlen
    have hpiece : (units.drop offset).take piece.length = piece := by rw [← hp, List.take_left]
    have hbehind : pieces.flatten = units.drop (offset + piece.length) := by rw [← List.drop_drop, ← hp, List.drop_left]
    refine .next (fun s' n hm => ?_) (ih _ (by omega) hbehind)
    have hchunk := h s' n offset piece.length hm (by omega)
    rw [hpiece] at hchunk
    exact hchunk

/-- What is known of the units is known of their pieces. -/
theorem Readable.fitting (h : Readable unitBits limit units) {pieces : List (List (List Bool))}
    (hp : pieces.flatten = units) : Fitting unitBits limit 0 (pieces.map Part.ofUnits) where
  within l hl := by
    rw [total_ofUnits, hp, Nat.zero_add]
    exact h.within l hl
  wide part hm := by
    obtain ⟨piece, hpiece, rfl⟩ := List.mem_map.mp hm
    exact le_length_flatten piece fun u hu => h.wide u (by rw [← hp]; exact List.mem_flatten_of_mem hpiece hu)

/-- A content without bounds is read from its units in any chunks. -/
theorem takes_unpack_chunking (h : Consumes s consume units sofar) (hr : Readable unitBits limit units) {bits : List Bool}
    (hc : Chunking units bits) :
    Unpacker.Takes s (unpack .free false unitBits limit (sofar 0) consume) bits (sofar units.length) := by
  obtain ⟨pieces, hp, hc⟩ := hc
  exact takes_unpackCounted_chunked hc (reads_pieces h pieces 0 (Nat.zero_le _) hp) (hr.fitting hp) boundedUpper_free
    (inRoot_free _) (LawfulBitSource.moved_refl s)

end Unpack

end SizedContent

end UnalignedPer
