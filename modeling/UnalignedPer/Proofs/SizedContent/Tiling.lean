import UnalignedPer.Proofs.InStep
import UnalignedPer.Proofs.SizedContent.Chunking

/-!
# A content is tiled by its chunks

What the units of a content are is up to the function that writes them, which is called for one chunk after the other. Here the
calls are noted (`SizedContent.recording`), with the bits that each of them wrote, and noting them does not change what is written
(`inStep_pack`). The calls tile the content (`SizedContent.Tiles`), there is none at all only when the bounds leave no room for a
unit, and a reader that takes the bits of each call makes the same calls (`SizedContent.pack_tiles_unpack`).

Five forms are told apart, once by the writer and once by the reader: `SizedContent.Form` says which calls and bits belong to each,
so that what one half writes and what the other half reads are statements about the same thing.
-/

namespace UnalignedPer

namespace SizedContent

open LengthDeterminant

/-- A call for a chunk. -/
structure Call where
  /-- The units before the chunk. -/
  offset : Nat
  /-- The units of the chunk. -/
  count : Nat
  /-- The bits that were written for them. -/
  bits : List Bool

/-- The chunk without its place. -/
def Call.part (call : Call) : Part :=
  ⟨call.count, call.bits⟩

/-- The calls follow each other from a unit on, without a gap, and end before another unit. -/
def Tiles (start : Nat) : List Call → Nat → Prop
  | [], stop => start = stop
  | call :: calls, stop => call.offset = start ∧ Tiles (start + call.count) calls stop

/-- The units of calls that follow each other. -/
theorem Tiles.total_eq {start stop : Nat} {calls : List Call} (h : Tiles start calls stop) :
    start + total (calls.map Call.part) = stop := by
  induction calls generalizing start with
  | nil => exact h
  | cons call calls ih =>
    rw [List.map_cons, total_cons, ← ih h.2, ← Nat.add_assoc]
    rfl

/-! ## The forms -/

/-- The calls and the bits for a number of units within their bounds. -/
inductive RootForm (size : Bounds Nat) (count : Nat) : List Call → List Bool → Prop
  /-- There is room for no unit. -/
  | empty (h : size.upper = some 0) : RootForm size count [] []
  /-- The number is fixed. -/
  | fixed (h : size.upper ≠ some 0) {only : Nat} (hf : fixedSize size = some only) (bits : List Bool) :
    RootForm size count [⟨0, count, bits⟩] bits
  /-- The number is written in front. -/
  | bounded (h : size.upper ≠ some 0) (hf : fixedSize size = none) {upper : Nat} (hb : boundedUpper size = some upper)
      (bits : List Bool) :
    RootForm size count [⟨0, count, bits⟩] (Bits.offset (size.lower.getD 0 : Nat) upper count ++ bits)
  /-- The units are written in chunks. -/
  | free (hb : boundedUpper size = none) {calls : List Call} {bits : List Bool} (ht : Tiles 0 calls count)
      (hc : Chunked (calls.map Call.part) bits) : RootForm size count calls bits

/-- The calls and the bits for a number of units. -/
inductive Form (size : Bounds Nat) (count : Nat) : Bool → List Call → List Bool → Prop
  /-- The number lies within the bounds. -/
  | root (hs : inRoot size count = true) {calls : List Call} {bits : List Bool} (h : RootForm size count calls bits) :
    Form size count false calls bits
  /-- The number lies within the bounds, which it need not. -/
  | flagged (hs : inRoot size count = true) {calls : List Call} {bits : List Bool} (h : RootForm size count calls bits) :
    Form size count true calls (false :: bits)
  /-- The number lies outside the bounds. -/
  | outside (hs : inRoot size count = false) {calls : List Call} {bits : List Bool} (ht : Tiles 0 calls count)
      (hc : Chunked (calls.map Call.part) bits) : Form size count true calls (true :: bits)

/-- The fixed sizes are below the limit of the bounded form. -/
theorem fixedSize_eq_none_of_free {size : Bounds Nat} (hb : boundedUpper size = none) : fixedSize size = none := by
  unfold fixedSize
  rw [hb]
  cases size.lower <;> rfl

/-- Where the length is written without a bound there is room for a unit. -/
theorem upper_ne_zero_of_free {size : Bounds Nat} (hb : boundedUpper size = none) : size.upper ≠ some 0 := by
  intro h0
  simp [boundedUpper, h0, boundedLimit] at hb

/-- The calls for a number of units within the bounds tile these units. -/
theorem RootForm.tiles {size : Bounds Nat} {count : Nat} {calls : List Call} {bits : List Bool}
    (h : RootForm size count calls bits) (hs : inRoot size count = true) : Tiles 0 calls count := by
  cases h with
  | empty h => exact (Nat.le_zero.mp (((inRoot_iff size count).mp hs).2 0 h)).symm
  | fixed h hf bits => exact ⟨rfl, Nat.zero_add count⟩
  | bounded h hf hb bits => exact ⟨rfl, Nat.zero_add count⟩
  | free hb ht hc => exact ht

/-- The calls tile the units. -/
theorem Form.tiles {size : Bounds Nat} {count : Nat} {extensible : Bool} {calls : List Call} {bits : List Bool}
    (h : Form size count extensible calls bits) : Tiles 0 calls count := by
  cases h with
  | root hs h => exact h.tiles hs
  | flagged hs h => exact h.tiles hs
  | outside hs ht hc => exact ht

/-- A content of free length has a last chunk. -/
theorem Chunked.calls_ne_nil {calls : List Call} {bits : List Bool} (h : Chunked (calls.map Call.part) bits) : calls ≠ [] := by
  rintro rfl
  cases h

/-- There are no calls only where there is no room for a unit. -/
theorem RootForm.calls_eq_nil_iff {size : Bounds Nat} {count : Nat} {calls : List Call} {bits : List Bool}
    (h : RootForm size count calls bits) : calls = [] ↔ size.upper = some 0 := by
  cases h with
  | empty h => exact iff_of_true rfl h
  | fixed h hf bits => exact iff_of_false (List.cons_ne_nil _ _) h
  | bounded h hf hb bits => exact iff_of_false (List.cons_ne_nil _ _) h
  | free hb ht hc => exact iff_of_false hc.calls_ne_nil (upper_ne_zero_of_free hb)

/-- Nothing is called for when the bounds leave no room, and else something is. -/
theorem Form.calls_eq_nil_iff {size : Bounds Nat} {count : Nat} {extensible : Bool} {calls : List Call} {bits : List Bool}
    (h : Form size count extensible calls bits) : calls = [] ↔ inRoot size count = true ∧ size.upper = some 0 := by
  cases h with
  | root hs h => rw [h.calls_eq_nil_iff, hs]; simp
  | flagged hs h => rw [h.calls_eq_nil_iff, hs]; simp
  | outside hs ht hc => exact iff_of_false hc.calls_ne_nil fun h => by rw [hs] at h; exact absurd h.1 Bool.false_ne_true

/-- A content of free length is in chunks. -/
theorem Form.chunked {size : Bounds Nat} {count : Nat} {extensible : Bool} {calls : List Call} {bits : List Bool}
    (h : Form size count extensible calls bits) (hfree : inRoot size count = false ∨ boundedUpper size = none) :
    ∃ bits, Chunked (calls.map Call.part) bits := by
  have hroot : ∀ {bits}, inRoot size count = true → RootForm size count calls bits →
      ∃ bits, Chunked (calls.map Call.part) bits := by
    intro bits hs h
    have hb := hfree.resolve_left (by rw [hs]; exact Bool.noConfusion)
    cases h with
    | empty h0 => exact absurd h0 (upper_ne_zero_of_free hb)
    | fixed h0 hf bits => exact absurd hf (by simp [fixedSize_eq_none_of_free hb])
    | bounded h0 hf hb' bits => exact absurd hb' (by simp [hb])
    | free hb ht hc => exact ⟨_, hc⟩
  cases h with
  | root hs h => exact hroot hs h
  | flagged hs h => exact hroot hs h
  | outside hs ht hc => exact ⟨_, hc⟩

/-! ## Writing -/

/-- A sink, and the calls that were made to write to it. -/
structure Noted (τ : Type) where
  /-- The sink. -/
  sink : τ
  /-- The calls, first to last. -/
  calls : List Call

end SizedContent

open SizedContent (Noted)

/-- The buffer is that of the sink. -/
instance {τ : Type} [BitSink τ] : BitSink (Noted τ) where
  buffer n := BitSink.buffer n.sink
  withBuffer b n := { n with sink := BitSink.withBuffer b n.sink }

/-- Writing makes no calls. -/
instance {τ : Type} [BitSink τ] [LawfulBitSink τ] : LawfulBitSink (Noted τ) where
  Same n n' := LawfulBitSink.Same n.sink n'.sink ∧ n'.calls = n.calls
  same_refl n := ⟨LawfulBitSink.same_refl n.sink, rfl⟩
  same_trans h h' := ⟨LawfulBitSink.same_trans h.1 h'.1, h'.2.trans h.2⟩
  same_withBuffer n b := ⟨LawfulBitSink.same_withBuffer n.sink b, rfl⟩
  buffer_withBuffer b n := LawfulBitSink.buffer_withBuffer b n.sink

namespace SizedContent

open LengthDeterminant

section Pack

variable {τ α β : Type} [BitSink τ]

/-- Writes a chunk and notes the call, with the bits that it appended. -/
def recording (emit : Nat → Nat → Packer τ Unit) (offset count : Nat) : Packer (Noted τ) Unit := fun n =>
  match emit offset count n.sink with
  | .ok _ s =>
    .ok () ⟨s, n.calls ++ [⟨offset, count, (BitSink.buffer s).toList.drop (BitSink.buffer n.sink).writePosition⟩]⟩
  | .error fault s => .error fault ⟨s, n.calls⟩

/-! ### Noting the calls changes nothing -/

variable {emit : Nat → Nat → Packer τ Unit}

/-- A call that is noted does what the call does. -/
theorem inStep_recording (offset count : Nat) :
    InStep (fun (n : Noted τ) s => n.sink = s) (recording emit offset count) (emit offset count) := by
  rintro n _ rfl
  unfold outcome recording
  cases emit offset count n.sink <;> exact ⟨rfl, rfl⟩

/-- What is done to the buffer is done below the notes. -/
theorem inStep_modifyBuffer (f : BitBuffer → BitBuffer) :
    InStep (fun (n : Noted τ) s => n.sink = s) (Packer.modifyBuffer f) (Packer.modifyBuffer f) := by
  rintro n _ rfl
  exact ⟨rfl, rfl⟩

/-- A length without bounds is written below the notes. -/
theorem inStep_packFreeLength (length : Nat) :
    InStep (fun (n : Noted τ) s => n.sink = s) (LengthDeterminant.packFree length) (LengthDeterminant.packFree length) := by
  refine inStep_ite ((inStep_modifyBuffer _).bind fun _ => inStep_modifyBuffer _) (inStep_ite ?_ ?_) <;>
  · exact (inStep_modifyBuffer _).bind fun _ => (inStep_modifyBuffer _).bind fun _ => inStep_modifyBuffer _

/-- A length is written below the notes. -/
theorem inStep_packLength (bounds : Bounds Nat) (length : Nat) :
    InStep (fun (n : Noted τ) s => n.sink = s) (LengthDeterminant.pack bounds length) (LengthDeterminant.pack bounds length) := by
  unfold LengthDeterminant.pack
  cases boundedUpper bounds with
  | some upper => exact inStep_ite (inStep_throw _) ((inStep_modifyBuffer _).bind fun _ => inStep_pure _)
  | none => exact inStep_ite (inStep_throw _) ((inStep_packFreeLength _).bind fun _ => inStep_pure _)

/-- Chunks are written with the same bits when their calls are noted. -/
theorem inStep_packFree (rest offset : Nat) :
    InStep (fun (n : Noted τ) s => n.sink = s) (packFree (recording emit) offset rest) (packFree emit offset rest) := by
  -- Each step leaves a shorter rest.
  induction rest using Nat.strongRecOn generalizing offset with
  | ind rest ih =>
    unfold packFree
    refine (inStep_packFreeLength rest).bind fun _ => (inStep_recording offset _).bind fun _ => ?_
    by_cases hlast : rest < fragmentUnit
    · rw [dif_pos hlast, dif_pos hlast]
      exact inStep_pure ()
    · rw [dif_neg hlast, dif_neg hlast]
      have hpos := covered_bounds rest hlast
      exact ih _ (by omega) _

/-- A content within its bounds is written with the same bits when its calls are noted. -/
theorem inStep_packRoot (size : Bounds Nat) (count : Nat) :
    InStep (fun (n : Noted τ) s => n.sink = s) (packRoot size count (recording emit)) (packRoot size count emit) := by
  refine inStep_ite (inStep_pure ()) (inStep_ite (inStep_recording 0 count) (inStep_ite ?_ (inStep_packFree count 0)))
  exact (inStep_packLength size count).bind fun _ => inStep_recording 0 count

/-- What is written does not depend on whether the calls are noted. -/
theorem inStep_pack (size : Bounds Nat) (extensible : Bool) (count : Nat) :
    InStep (fun (n : Noted τ) s => n.sink = s) (pack size extensible count (recording emit))
      (pack size extensible count emit) := by
  refine inStep_ite (inStep_ite ?_ (inStep_packRoot size count)) (inStep_ite ?_ (inStep_throw _))
  · exact (inStep_modifyBuffer _).bind fun _ => inStep_packRoot size count
  · exact (inStep_modifyBuffer _).bind fun _ => inStep_packFree count 0

/-! ### The calls that are made -/

variable [LawfulBitSink τ]

/-- From `n` on an action succeeds, and the calls that it makes and the bits that it appends are as they should be. -/
def Notes (n : Noted τ) (m : Packer (Noted τ) α) (P : List Call → List Bool → Prop) : Prop :=
  ∃ x n' calls bits, m n = .ok x n' ∧ n'.calls = n.calls ++ calls ∧ Packer.Wrote n.sink bits n'.sink ∧ P calls bits

/-- The calls and the bits of actions in a row follow each other. -/
theorem Notes.bind {n : Noted τ} {m : Packer (Noted τ) α} {f : α → Packer (Noted τ) β} {P Q : List Call → List Bool → Prop}
    (h : Notes n m P)
    (h' : ∀ x n' calls bits, P calls bits → Notes n' (f x) fun calls' bits' => Q (calls ++ calls') (bits ++ bits')) :
    Notes n (m >>= f) Q := by
  obtain ⟨x, n1, calls, bits, hm, hc, hw, hp⟩ := h
  obtain ⟨y, n2, calls', bits', hf, hc', hw', hq⟩ := h' x n1 calls bits hp
  refine ⟨y, n2, calls ++ calls', bits ++ bits', by simp only [run_bind, hm, hf], ?_, hw.trans hw', hq⟩
  rw [hc', hc, List.append_assoc]

/-- Less may be said of the calls and the bits. -/
theorem Notes.imp {n : Noted τ} {m : Packer (Noted τ) α} {P Q : List Call → List Bool → Prop} (h : Notes n m P)
    (h' : ∀ calls bits, P calls bits → Q calls bits) : Notes n m Q := by
  obtain ⟨x, n', calls, bits, hm, hc, hw, hp⟩ := h
  exact ⟨x, n', calls, bits, hm, hc, hw, h' calls bits hp⟩

/-- What writes without a call. -/
theorem notes_of_writes {n : Noted τ} {m : Packer (Noted τ) α} {bits : List Bool} {x : α} (h : Packer.Writes n m bits x) :
    Notes n m fun calls written => calls = [] ∧ written = bits := by
  obtain ⟨n', hm, hadds, hsame, hcalls⟩ := h
  exact ⟨x, n', [], bits, hm, by rw [hcalls, List.append_nil], ⟨hadds, hsame⟩, rfl, rfl⟩

/-- A result alone makes no calls and appends no bits. -/
theorem notes_pure (n : Noted τ) (x : α) : Notes n (pure x) fun calls written => calls = [] ∧ written = [] :=
  notes_of_writes (Packer.writes_pure n x)

/-- The function never fails, and appends some bits. -/
def Steady (emit : Nat → Nat → Packer τ Unit) : Prop :=
  ∀ s offset count, ∃ bits, Packer.Writes s (emit offset count) bits ()

/-- A chunk is one call, with all the bits that it appended. -/
theorem notes_recording (h : Steady emit) (n : Noted τ) (offset count : Nat) :
    Notes n (recording emit offset count) fun calls bits => calls = [⟨offset, count, bits⟩] := by
  obtain ⟨bits, s, hm, hw⟩ := h n.sink offset count
  have hbits : (BitSink.buffer s).toList.drop (BitSink.buffer n.sink).writePosition = bits := by
    rw [hw.1.toList, ← BitBuffer.length_toList, List.drop_left]
  refine ⟨(), ⟨s, _⟩, [⟨offset, count, bits⟩], bits, ?_, rfl, hw, rfl⟩
  simp only [recording, hm, hbits]

/-- Chunks make calls that tile the units from the offset on, and append a content that has these calls for its chunks. -/
theorem notes_packFree (h : Steady emit) (rest : Nat) :
    ∀ n offset, Notes n (packFree (recording emit) offset rest) fun calls bits =>
      Tiles offset calls (offset + rest) ∧ Chunked (calls.map Call.part) bits := by
  -- Each step leaves a shorter rest.
  induction rest using Nat.strongRecOn with
  | ind rest ih =>
    intro n offset
    have hannounces := announces_freeForm rest
    rw [packFree]
    refine (notes_of_writes (writes_packFree n rest)).bind ?_
    rintro - n1 _ _ ⟨rfl, rfl⟩
    refine (notes_recording h n1 offset (covered rest)).bind ?_
    rintro - n2 _ bits rfl
    by_cases hlast : rest < fragmentUnit
    · rw [dif_pos hlast]
      rw [chunkOf, covered_of_lt hlast, decide_eq_false (by omega)] at hannounces
      refine (notes_pure n2 ()).imp ?_
      rintro _ _ ⟨rfl, rfl⟩
      simp only [List.nil_append, List.append_nil, covered_of_lt hlast]
      exact ⟨⟨rfl, rfl⟩, .last hannounces⟩
    · rw [dif_neg hlast]
      have hpos := covered_bounds rest hlast
      rw [chunkOf, decide_eq_true (by omega)] at hannounces
      refine (ih _ (by omega) n2 _).imp fun calls more hmore => ⟨⟨rfl, ?_⟩, .fragment hannounces hmore.2⟩
      have := hmore.1
      rwa [show offset + covered rest + (rest - covered rest) = offset + rest by omega] at this

/-- A content within its bounds makes the calls and appends the bits that it should. -/
theorem notes_packRoot (h : Steady emit) (n : Noted τ) {size : Bounds Nat} {count : Nat} (hs : inRoot size count = true) :
    Notes n (packRoot size count (recording emit)) (RootForm size count) := by
  unfold packRoot
  by_cases h0 : size.upper = some 0
  · rw [if_pos h0]
    refine (notes_pure n ()).imp ?_
    rintro _ _ ⟨rfl, rfl⟩
    exact .empty h0
  rw [if_neg h0]
  cases hf : fixedSize size with
  | some only =>
    rw [if_pos Option.isSome_some]
    refine (notes_recording h n 0 count).imp ?_
    rintro _ bits rfl
    exact .fixed h0 hf bits
  | none =>
    rw [if_neg (by simp)]
    cases hb : boundedUpper size with
    | some upper =>
      obtain ⟨hlo, hhi⟩ := (inRoot_iff size count).mp hs
      rw [if_pos Option.isSome_some]
      refine (notes_of_writes (writes_pack n hb hlo (hhi upper (boundedUpper_eq_some hb).1))).bind ?_
      rintro - n1 _ _ ⟨rfl, rfl⟩
      refine (notes_recording h n1 0 count).imp ?_
      rintro _ bits rfl
      exact .bounded h0 hf hb bits
    | none =>
      rw [if_neg (by simp)]
      refine (notes_packFree h count n 0).imp fun calls bits hall => .free hb ?_ hall.2
      have := hall.1
      rwa [Nat.zero_add] at this

/-- The calls and the bits of a content are those of its form. -/
theorem notes_pack (h : Steady emit) (n : Noted τ) {size : Bounds Nat} {extensible : Bool} {count : Nat}
    (hs : extensible = true ∨ inRoot size count = true) :
    Notes n (pack size extensible count (recording emit)) (Form size count extensible) := by
  unfold pack
  cases hroot : inRoot size count with
  | true =>
    rw [if_pos rfl]
    cases extensible with
    | false => exact (notes_packRoot h n hroot).imp fun _ _ => .root hroot
    | true =>
      refine (notes_of_writes (Packer.writes_bit n false)).bind ?_
      rintro - n1 _ _ ⟨rfl, rfl⟩
      exact (notes_packRoot h n1 hroot).imp fun _ _ => .flagged hroot
  | false =>
    obtain rfl : extensible = true := hs.resolve_right (by rw [hroot]; exact Bool.noConfusion)
    rw [if_neg Bool.false_ne_true, if_pos rfl]
    refine (notes_of_writes (Packer.writes_bit n true)).bind ?_
    rintro - n1 _ _ ⟨rfl, rfl⟩
    refine (notes_packFree h count n1 0).imp fun calls bits hall => .outside hroot ?_ hall.2
    have := hall.1
    rwa [Nat.zero_add] at this

omit [LawfulBitSink τ] in
/-- A content that was written lies within its bounds or is extensible. -/
theorem inRoot_of_pack {size : Bounds Nat} {extensible : Bool} {count : Nat} {s s' : τ}
    (h : pack size extensible count emit s = .ok () s') : extensible = true ∨ inRoot size count = true := by
  cases extensible with
  | true => exact Or.inl rfl
  | false =>
    refine Or.inr (Decidable.byContradiction fun hs => ?_)
    unfold pack at h
    rw [if_neg hs, if_neg Bool.false_ne_true] at h
    cases h

end Pack

/-! ## Reading -/

section Unpack

variable {σ α : Type} [BitSource σ] [LawfulBitSource σ] {s : σ} {consume : α → Nat → Unpacker σ α} {start last : α}

/-- Reads a chunk and lists the number of its units. -/
def listing (consume : α → Nat → Unpacker σ α) : α × List Nat → Nat → Unpacker σ (α × List Nat)
  | (sofar, counts), count => do
    let after ← consume sofar count
    return (after, counts ++ [count])

/-- The counts of the parts that are read are listed in order. -/
theorem Reads.listing {parts : List Part} (h : Reads s consume start parts last) (counts : List Nat) :
    Reads s (listing consume) (start, counts) parts (last, counts ++ parts.map Part.count) := by
  induction h generalizing counts with
  | done sofar =>
    rw [List.map_nil, List.append_nil]
    exact .done _
  | @next sofar after last part parts hpart _ ih =>
    have hrest := ih (counts ++ [part.count])
    rw [List.append_assoc] at hrest
    refine .next (fun s' n hm => ?_) hrest
    rw [← List.append_nil part.bits]
    exact (hpart s' n hm).bind fun s1 _ => Unpacker.takes_pure s1 _

/-- What asks nothing of the bits of a unit may read any parts that are within the limit. -/
theorem fitting_of_within {limit : Option Nat} {calls : List Call} {count : Nat} (ht : Tiles 0 calls count)
    (hl : ∀ l, limit = some l → count ≤ l) : Fitting 0 limit 0 (calls.map Call.part) where
  within l h := by
    rw [ht.total_eq]
    exact hl l h
  wide part _ := by
    rw [Nat.mul_zero]
    exact Nat.zero_le _

/-- As many units as the calls tile are within the bounds. -/
theorem inRoot_total {size : Bounds Nat} {calls : List Call} {count : Nat} (ht : Tiles 0 calls count)
    (hs : inRoot size count = true) : inRoot size (total (calls.map Call.part)) = true := by
  rw [← ht.total_eq, Nat.zero_add] at hs
  exact hs

/-- The bits of a root form are read by the calls that wrote them. -/
theorem RootForm.takes_unpackRoot {size : Bounds Nat} {count : Nat} {calls : List Call} {bits : List Bool} {limit : Option Nat}
    {s' : σ} {n : Nat} (h : RootForm size count calls bits) (hs : inRoot size count = true)
    (hr : Reads s consume start (calls.map Call.part) last) (hl : ∀ l, limit = some l → count ≤ l)
    (hm : LawfulBitSource.Moved s n s') : Unpacker.Takes s' (unpackRoot size 0 limit start consume) bits last := by
  obtain ⟨hlo, hhi⟩ := (inRoot_iff size count).mp hs
  -- Where there is one chunk alone, it is read as the only part.
  have hsingle : ∀ {units : List Bool}, Reads s consume start [⟨count, units⟩] last → ∀ {s1 : σ} {k : Nat},
      LawfulBitSource.Moved s k s1 → Unpacker.Takes s1 (consume start count) units last := by
    intro units hr s1 k hm1
    cases hr with
    | next hpart hrest =>
    cases hrest
    exact hpart s1 k hm1
  have hcheck : ∀ {bits : List Bool}, count * 0 ≤ bits.length := by
    intro bits
    rw [Nat.mul_zero]
    exact Nat.zero_le _
  unfold unpackRoot
  cases h with
  | empty h0 =>
    rw [if_pos h0]
    cases hr
    exact Unpacker.takes_pure s' start
  | @fixed h0 only hf bits =>
    obtain ⟨hlower, hupper⟩ := fixedSize_eq_some hf
    rw [hlower, Option.getD_some] at hlo
    obtain rfl : only = count := Nat.le_antisymm hlo (hhi only hupper)
    rw [if_neg h0, hf]
    exact takes_checkChunk_bind hl hcheck (hsingle hr hm)
  | @bounded h0 hf upper hb units =>
    rw [if_neg h0, hf]
    refine takes_remaining_bind fun ahead _ => ?_
    rw [hb, if_pos Option.isSome_some]
    refine (LengthDeterminant.takes_unpack s' hb hlo (hhi upper (boundedUpper_eq_some hb).1)).bind fun s1 hm1 => ?_
    rw [unpackFrom, Nat.zero_add, ← List.append_nil units]
    refine Unpacker.Takes.bind (x := (count, last)) ?_ fun s2 _ => ?_
    · refine takes_checkChunk_bind hl hcheck ?_
      rw [← List.append_nil units]
      refine (hsingle hr (LawfulBitSource.moved_trans hm hm1)).bind fun s2 _ => ?_
      rw [if_neg Bool.false_ne_true]
      exact Unpacker.takes_pure s2 _
    · simp only [if_pos hs]
      exact Unpacker.takes_pure s2 last
  | free hb ht hc =>
    rw [if_neg (upper_ne_zero_of_free hb), fixedSize_eq_none_of_free hb]
    exact takes_unpackCounted_chunked hc hr (fitting_of_within ht hl) hb (inRoot_total ht hs) hm

/-- The bits of a content are read by the calls that wrote them. -/
theorem Form.takes_unpack {size : Bounds Nat} {count : Nat} {extensible : Bool} {calls : List Call} {bits : List Bool}
    {limit : Option Nat} (h : Form size count extensible calls bits) (hr : Reads s consume start (calls.map Call.part) last)
    (hl : ∀ l, limit = some l → count ≤ l) : Unpacker.Takes s (unpack size extensible 0 limit start consume) bits last := by
  unfold unpack
  cases h with
  | root hs h => exact h.takes_unpackRoot hs hr hl (LawfulBitSource.moved_refl s)
  | flagged hs h =>
    rw [if_pos rfl]
    refine Unpacker.takes_bit_bind fun s1 hm => ?_
    rw [if_neg Bool.false_ne_true]
    exact h.takes_unpackRoot hs hr hl hm
  | outside hs ht hc =>
    rw [if_pos rfl]
    refine Unpacker.takes_bit_bind fun s1 hm => ?_
    rw [if_pos rfl]
    exact takes_unpackCounted_chunked hc hr (fitting_of_within ht hl) boundedUpper_free (inRoot_free _) hm

end Unpack

/-- A content that was written by a function that never fails was written by calls that tile it, and what reads the bits of each
call reads the content by the same calls in the same order. -/
theorem pack_tiles_unpack {τ : Type} [BitSink τ] [LawfulBitSink τ] {emit : Nat → Nat → Packer τ Unit} (hemit : Steady emit)
    {size : Bounds Nat} {extensible : Bool} {count : Nat} {s s' : τ} (h : pack size extensible count emit s = .ok () s') :
    ∃ calls bits,
      pack size extensible count (recording emit) ⟨s, []⟩ = .ok () ⟨s', calls⟩
      ∧ Packer.Wrote s bits s'
      ∧ Tiles 0 calls count
      ∧ (calls = [] ↔ inRoot size count = true ∧ size.upper = some 0)
      ∧ (inRoot size count = false ∨ boundedUpper size = none → ∃ front last, calls = front ++ [last] ∧
          last.count < 16384 ∧ ∀ call ∈ front, ∃ units, 1 ≤ units ∧ units ≤ 4 ∧ call.count = units * 16384)
      ∧ ∀ {σ α : Type} [BitSource σ] [LawfulBitSource σ] (source : σ) (consume : α → Nat → Unpacker σ α) (start last : α)
          (limit : Option Nat), (∀ l, limit = some l → count ≤ l) →
          Reads source consume start (calls.map Call.part) last →
          Unpacker.Takes source (unpack size extensible 0 limit start consume) bits last
          ∧ Unpacker.Takes source (unpack size extensible 0 limit (start, []) (listing consume)) bits
              (last, calls.map Call.count) := by
  obtain ⟨_, n, calls, bits, hm, hcalls, hw, hform⟩ := notes_pack hemit ⟨s, []⟩ (inRoot_of_pack h)
  -- The run that notes its calls ends in the same sink.
  obtain rfl : n = ⟨s', calls⟩ := by
    have hstep := (@inStep_pack τ _ emit size extensible count ⟨s, []⟩ s rfl).2
    rw [outcome_ok hm, outcome_ok h] at hstep
    cases n
    cases hstep
    cases hcalls
    rfl
  refine ⟨calls, bits, hm, hw, hform.tiles, hform.calls_eq_nil_iff, fun hfree => ?_, ?_⟩
  · obtain ⟨_, hchunked⟩ := hform.chunked hfree
    obtain ⟨front, last, hsplit, hlast, hfront⟩ := hchunked.counts
    obtain ⟨before, behind, rfl, rfl, hbehind⟩ := List.map_eq_append_iff.mp hsplit
    obtain ⟨final, rfl, rfl⟩ := List.map_eq_singleton_iff.mp hbehind
    exact ⟨before, final, rfl, hlast, fun call hmem => hfront call.part (List.mem_map_of_mem hmem)⟩
  · intro σ α _ _ source consume start last limit hl hr
    have hcounts : (calls.map Call.part).map Part.count = calls.map Call.count := by
      rw [List.map_map]
      rfl
    have hlisting := hr.listing []
    rw [hcounts, List.nil_append] at hlisting
    exact ⟨hform.takes_unpack hr hl, hform.takes_unpack hlisting hl⟩

/-- Two units of one bit each, with their number in front. -/
theorem pack_tiles_unpack_pair :
    ∃ calls bits, Tiles 0 calls 2 ∧ Packer.Wrote BitBuffer.empty bits ⟨#[0x20], 5, 0⟩
      ∧ Unpacker.Takes (BitView.ofOctets #[0x20] 5)
          (unpack ⟨some 1, some 3⟩ true 0 none (0, []) (listing fun sofar count => do
            let _ ← Unpacker.word count
            return sofar + count)) bits (2, [2]) := by
  have hemit : Steady fun _ count => (Packer.zeros count : Packer BitBuffer Unit) :=
    fun s _ count => ⟨_, Packer.writes_zeros s count⟩
  obtain ⟨calls, bits, hm, hw, ht, -, -, hread⟩ :=
    @pack_tiles_unpack BitBuffer _ _ _ hemit ⟨some 1, some 3⟩ true 2 BitBuffer.empty ⟨#[0x20], 5, 0⟩ rfl
  obtain rfl : calls = [⟨0, 2, [false, false]⟩] := by
    have hrun : pack ⟨some 1, some 3⟩ true 2 (recording fun _ count => (Packer.zeros count : Packer BitBuffer Unit))
      ⟨BitBuffer.empty, []⟩ = .ok () ⟨⟨#[0x20], 5, 0⟩, [⟨0, 2, [false, false]⟩]⟩ := rfl
    rw [hrun] at hm
    cases hm
    rfl
  have hunits : ∀ s : BitView, Unpacker.Takes s (Unpacker.word 2) [false, false] 0 := fun s =>
    Unpacker.takes_word s rfl (by decide)
  refine ⟨_, bits, ht, hw, (hread _ _ 0 2 none (fun _ h => nomatch h) (.next (fun s n _ => ?_) (.done 2))).2⟩
  exact (hunits s).bind fun s1 _ => Unpacker.takes_pure s1 2

end SizedContent

end UnalignedPer
