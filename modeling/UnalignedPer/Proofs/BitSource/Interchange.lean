import UnalignedPer.Proofs.BitSource
import UnalignedPer.Proofs.InStep

/-!
# A view may stand for a buffer

A view looks at octets that belong to somebody else, a buffer has octets of its own; each of them has a cursor and checks it on its
own. To a reader they are the same (`outcomes_view_buffer`): a script of reads (`PackedRead`) gives the same results and the same
faults on both, and after every step the cursors stand at the same place. A read that is made of several pieces may have read
some of them before it fails, so that the place matters most after the failures, and a script goes on behind them.

The two are compared by the view on the bits that a buffer has not read yet (`Borrows`): single steps of a buffer are
steps of that view (`linked_borrows`), and reads are made of single steps.
-/

namespace UnalignedPer

/-- A read of a source. -/
inductive PackedRead where
  /-- The next bit. -/
  | bit
  /-- Bits over all those of some octets. -/
  | fill (dst : Octets)
  /-- Bits over those of some octets from a position on. -/
  | fillFrom (dst : Octets) (offset : UInt64)
  /-- Bits over the first ones of some octets. -/
  | fillTo (dst : Octets) (length : UInt64)
  /-- Bits over a run of those of some octets. -/
  | fillSlice (dst : Octets) (offset length : UInt64)
  /-- A word of a width. -/
  | word (width : Nat)
  /-- An unsigned number. -/
  | unsigned (bounds : Bounds UInt64)
  /-- A number in two's complement of a width. -/
  | signed (width : Nat)
  /-- A number between two bounds. -/
  | constrained (lower upper : Int64)
  /-- A number that is bounded from below. -/
  | semiConstrained (lower : Int64)
  /-- A number without bounds. -/
  | free
  /-- A number that is small in most messages. -/
  | small
  /-- An INTEGER. -/
  | integer (bounds : Bounds Int64) (extensible : Bool)
  /-- A length determinant. -/
  | determinant (bounds : Bounds Nat)
  /-- An octet string. -/
  | octets (size : Bounds Nat) (extensible : Bool) (limit : Option Nat)
  /-- A bit string. -/
  | bits (size : Bounds Nat) (extensible : Bool) (limit : Option Nat)
  /-- A character string. -/
  | text (alphabet : Alphabet) (size : Bounds Nat) (extensible : Bool) (limit : Option Nat)
  /-- An open type that is passed over. -/
  | skipOpenType
  /-- The index of an alternative. -/
  | index (standard : Nat) (extensible : Bool)
  /-- A content of which each unit is a read, whatever number of bits is said to be in it. -/
  | sized (size : Bounds Nat) (extensible : Bool) (unitBits : Nat) (limit : Option Nat) (unit : PackedRead)

/-- What a read gives. -/
inductive PackedAnswer where
  /-- A bit. -/
  | bit (value : Bool)
  /-- A word or an unsigned number. -/
  | word (value : UInt64)
  /-- A number. -/
  | number (value : Int64)
  /-- A length. -/
  | length (chunk : LengthDeterminant.Chunk)
  /-- Some octets, or a text in them. -/
  | octets (value : Octets)
  /-- A bit string. -/
  | bits (value : BitString)
  /-- It was passed over. -/
  | skipped
  /-- The units of a content. -/
  | units (values : List PackedAnswer)
  deriving Repr

namespace PackedRead

section

variable {σ α : Type}

/-- Reads `count` units onto those read so far. -/
def readUnits (unit : Unpacker σ α) (sofar : List α) : Nat → Unpacker σ (List α)
  | 0 => pure sofar
  | count + 1 => do
    let value ← unit
    readUnits unit (sofar ++ [value]) count

/-- Reads from a source. -/
def run [BitSource σ] : PackedRead → Unpacker σ PackedAnswer
  | .bit => .bit <$> Unpacker.bit
  | .fill dst => .octets <$> Unpacker.octets dst
  | .fillFrom dst offset => .octets <$> Unpacker.sliceFrom dst offset
  | .fillTo dst length => .octets <$> Unpacker.sliceTo dst length
  | .fillSlice dst offset length => .octets <$> Unpacker.slice dst offset length
  | .word width => .word <$> Unpacker.word width
  | .unsigned bounds => .word <$> WholeNumber.unpackUnsigned bounds
  | .signed width => .number <$> WholeNumber.unpackSigned width
  | .constrained lower upper => .number <$> WholeNumber.unpackConstrained lower upper
  | .semiConstrained lower => .number <$> WholeNumber.unpackSemiConstrained lower
  | .free => .number <$> WholeNumber.unpackFree
  | .small => .word <$> WholeNumber.unpackSmall
  | .integer bounds extensible => .number <$> WholeNumber.unpackInteger bounds extensible
  | .determinant bounds => .length <$> LengthDeterminant.unpack bounds
  | .octets size extensible limit => .octets <$> OctetString.unpack size extensible limit
  | .bits size extensible limit => .bits <$> BitString.unpack size extensible limit
  | .text alphabet size extensible limit => .octets <$> CharacterString.unpack alphabet size extensible limit
  | .skipOpenType => (fun _ => .skipped) <$> OpenType.skip
  | .index standard extensible => .word <$> ChoiceIndex.unpack standard extensible
  | .sized size extensible unitBits limit unit =>
    .units <$> SizedContent.unpack size extensible unitBits limit [] (readUnits unit.run)

end

/-! ## Reads go in step if single steps do -/

section

variable {σ τ : Type} {R : σ → τ → Prop}

theorem inStep_readUnits {α : Type} {unit : Unpacker σ α} {unit' : Unpacker τ α} (h : InStep R unit unit') (sofar : List α)
    (count : Nat) : InStep R (readUnits unit sofar count) (readUnits unit' sofar count) := by
  induction count generalizing sofar with
  | zero => exact inStep_pure sofar
  | succ count ih => exact h.bind fun value => ih (sofar ++ [value])

variable [BitSource σ] [BitSource τ]

/-- Every read goes in step on linked sources. The units of a content are reads themselves, hence the induction. -/
theorem inStep_run (h : Linked R) (read : PackedRead) :
    InStep R (read.run : Unpacker σ PackedAnswer) (read.run : Unpacker τ PackedAnswer) := by
  induction read with
  | bit => exact h.bit.map _
  | fill dst => exact (h.run dst 0 _).map _
  | fillFrom dst offset => exact (inStep_ite (inStep_throw _) (h.run dst _ _)).map _
  | fillTo dst length => exact (inStep_ite (inStep_throw _) (h.run dst _ _)).map _
  | fillSlice dst offset length => exact (inStep_ite (inStep_throw _) (h.run dst _ _)).map _
  | word width => exact (h.word width).map _
  | unsigned bounds => exact (inStep_ite (h.unpackWithin _ _) h.unpackMagnitude).map _
  | signed width => exact ((h.word width).bind fun _ => inStep_pure _).map _
  | constrained lower upper => exact (h.unpackNumber ⟨some lower, some upper⟩).map _
  | semiConstrained lower => exact (h.unpackNumber ⟨some lower, none⟩).map _
  | free => exact h.unpackNumberFree.map _
  | small => exact h.unpackSmall.map _
  | integer bounds extensible => exact (h.unpackInteger bounds extensible).map _
  | determinant bounds => exact (h.unpackLength bounds).map _
  | octets size extensible limit => exact (h.unpackOctets size extensible limit).map _
  | bits size extensible limit => exact (h.unpackBits size extensible limit).map _
  | text alphabet size extensible limit => exact (h.unpackText alphabet size extensible limit).map _
  | skipOpenType => exact h.skipOpenType.map _
  | index standard extensible => exact (h.unpackIndex standard extensible).map _
  | sized size extensible unitBits limit unit ih =>
    exact (h.unpackSized (inStep_readUnits ih) size extensible unitBits limit []).map _

end

end PackedRead

/-! ## Views and buffers -/

/-- The view is that on the bits of the buffer that are not read yet. -/
def Borrows (v : BitView) (b : BitBuffer) : Prop :=
  v = b.unread

/-- A buffer and the view on its unread bits are read in step. -/
theorem linked_borrows : Linked Borrows where
  remaining _ b h := congrArg BitView.remaining h
  readBit := by
    rintro _ b rfl
    by_cases hahead : b.readPosition < b.writePosition
    · have hview : BitView.readBit b.unread = .ok (Octets.getBit b.storage b.readPosition)
          { b.unread with position := b.readPosition + 1 } := if_pos hahead
      exact inStep_ok hview (BitBuffer.readBit_of_unread hview) rfl
    · have hview : BitView.readBit b.unread = .error .endOfStream b.unread := if_neg hahead
      have hbuffer : BitBuffer.readBit b = .error .endOfStream b := if_neg hahead
      exact inStep_error hview hbuffer rfl
  readInto dst offset length := by
    rintro _ b rfl
    by_cases hshort : length > b.remaining
    · have hview : BitView.readInto dst offset length b.unread = .error .endOfStream b.unread := if_pos hshort
      have hbuffer : BitBuffer.readInto dst offset length b = .error .endOfStream b := if_pos hshort
      exact inStep_error hview hbuffer rfl
    · have hview : BitView.readInto dst offset length b.unread =
          .ok (Octets.copyBits dst offset b.storage b.readPosition length)
            { b.unread with position := b.readPosition + length } := if_neg hshort
      exact inStep_ok hview (BitBuffer.readInto_of_unread hview) rfl

/-- Of octets that were taken over nothing is read yet. -/
theorem borrows_ofOctets {data : Octets} {length : Nat} (h : length ≤ data.size * 8) :
    ∃ b, BitBuffer.ofOctets data length = .ok b ∧ Borrows (BitView.ofOctets data length) b := by
  refine ⟨⟨data, length, 0⟩, if_neg (Nat.not_lt.mpr h), ?_⟩
  rw [Borrows, BitView.ofOctets, Nat.min_eq_left h]
  rfl

/-- Octets are read through a view as from a buffer that took them over: every step of a script comes to the same, and the cursors
stand at the same place after it, whether or not it or one before it failed. -/
theorem outcomes_view_buffer {data : Octets} {length : Nat} (h : length ≤ data.size * 8) :
    ∃ b, BitBuffer.ofOctets data length = .ok b ∧ ∀ script : List PackedRead,
      List.Forall₂
        (fun x y => x.1 = y.1 ∧ BitSource.position x.2 = BitSource.position y.2 ∧
          BitSource.remaining x.2 = BitSource.remaining y.2)
        (outcomes (script.map PackedRead.run) (BitView.ofOctets data length)) (outcomes (script.map PackedRead.run) b) := by
  obtain ⟨b, hb, hview⟩ := borrows_ofOctets h
  refine ⟨b, hb, fun script => ?_⟩
  have hsteps := InStep.outcomes (fun read (_ : read ∈ script) => PackedRead.inStep_run linked_borrows read) hview
  refine hsteps.imp fun x y ⟨hresult, hcursor⟩ => ?_
  exact ⟨hresult, congrArg BitView.position hcursor, linked_borrows.remaining hcursor⟩

/-- A content fails in its third unit, a run does not fit its destination, a number announces too many octets and a text has no
whole length: the script goes on behind each of them. -/
theorem outcomes_view_buffer_failing :
    let data : Octets := #[0x05, 0x12, 0xF4, 0x5F, 0xA6]
    let script : List PackedRead := [.sized .free false 0 none (.unsigned ⟨some 1, some 12⟩), .unsigned ⟨some 1, some 8⟩,
      .fillSlice #[0xFF] 4 5, .fillSlice #[0xFF] 4 2, .small, .bit, .text .utf8 .free false none, .bit]
    36 ≤ data.size * 8 ∧
      (outcomes (script.map PackedRead.run) (BitView.ofOctets data 36)).map (fun x => (x.1.isOk, x.2.position)) =
        [(false, 20), (true, 23), (false, 23), (true, 25), (false, 34), (true, 35), (false, 36), (false, 36)] ∧
      ∃ b, BitBuffer.ofOctets data 36 = .ok b ∧
        List.Forall₂
          (fun x y => x.1 = y.1 ∧ BitSource.position x.2 = BitSource.position y.2 ∧
            BitSource.remaining x.2 = BitSource.remaining y.2)
          (outcomes (script.map PackedRead.run) (BitView.ofOctets data 36)) (outcomes (script.map PackedRead.run) b) := by
  intro data script
  have hroom : 36 ≤ data.size * 8 := by decide
  obtain ⟨b, hb, hsteps⟩ := outcomes_view_buffer hroom
  exact ⟨hroom, by decide +kernel, b, hb, hsteps script⟩

end UnalignedPer
