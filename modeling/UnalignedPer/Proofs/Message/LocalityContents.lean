import UnalignedPer.Proofs.Message.Locality

/-!
# What the contents of fields look at

Every content that is not made of parts is read from the bits that it takes and from no others. Lengths come first, so a content
that is cut off is found too short, and never taken for a content of another kind.
-/

namespace UnalignedPer

namespace Reader

variable {α β : Type} {r : Reader}

/-! ## Numbers of a fixed width -/

/-- Digits below others. -/
theorem local_bitsBelow (high : UInt64) (width : Nat) (hs : r.Sound) :
    Local r (Unpacker.bitsBelow high width) ∧ Spends r width (Unpacker.bitsBelow high width) := by
  induction width generalizing r high with
  | zero => exact ⟨local_pure _, (local_pure _).spends⟩
  | succ width ih =>
    obtain ⟨hl, hb⟩ := local_bit hs
    refine ⟨hl.bind fun next r1 _ hf => (ih _ (hf.sound hs)).1, ?_⟩
    have h := hb.bind fun next r1 hm =>
      (ih ((high <<< 1) ||| (if next then 1 else 0)) ((hl hm).1.sound hs)).2
    rw [Nat.add_comm] at h
    exact h

/-- A number of a fixed width. -/
theorem local_word (width : Nat) (hs : r.Sound) :
    Local r (Unpacker.word width) ∧ Spends r width (Unpacker.word width) := by
  unfold Unpacker.word
  by_cases h64 : width > 64
  · rw [if_pos h64]
    exact ⟨local_throw _, spends_throw _ _⟩
  · rw [if_neg h64]
    have hbits := local_bitsBelow 0 width hs
    exact ⟨local_remaining_bind hbits fun ahead hlt => hlt, spends_remaining_bind hbits.2⟩

/-! ## Lengths -/

/-- A length of a fixed width is local. -/
theorem local_unpackWidth (width : Nat) (hs : r.Sound) :
    Local r (LengthDeterminant.unpackWidth width) :=
  (local_word width hs).1.map _

/-- A length of free size. -/
theorem local_unpackFree (hs : r.Sound) :
    Local r LengthDeterminant.unpackFree ∧ Spends r 1 LengthDeterminant.unpackFree := by
  refine local_bind_spends (local_bit hs) fun isLong r1 _ hf => ?_
  have hs1 := hf.sound hs
  refine local_ite (fun _ => (local_unpackWidth 7 hs1).bind fun _ _ _ _ => local_pure _) fun _ => ?_
  refine (local_bit hs1).1.bind fun isFragment r2 _ hf2 => ?_
  have hs2 := hf2.sound hs1
  refine local_ite (fun _ => (local_unpackWidth 14 hs2).bind fun _ _ _ _ => local_pure _) fun _ => ?_
  refine (local_unpackWidth 6 hs2).bind fun units r3 _ _ => ?_
  exact local_ite (fun _ => local_throw _) fun _ => local_pure _

/-- A length under some bounds. -/
theorem local_unpack (bounds : Bounds Nat) (hs : r.Sound) : Local r (LengthDeterminant.unpack bounds) := by
  unfold LengthDeterminant.unpack
  split
  · refine local_ite (fun _ => local_throw _) fun _ => ?_
    refine (local_unpackWidth _ hs).bind fun offset r1 _ _ => ?_
    exact local_ite (fun _ => local_throw _) fun _ => local_pure _
  · exact (local_unpackFree hs).1

/-! ## Content of a bounded size -/

/-- Wherever reading goes on from `r`, a chunk of units is read from its bits, of which every unit takes some. -/
def LocalUnits (r : Reader) (unitBits : Nat) (consume : α → Nat → ReaderM α) : Prop :=
  ∀ ⦃r'⦄, r.Follows r' → ∀ sofar units,
    Local r' (consume sofar units) ∧ Spends r' (units * unitBits) (consume sofar units)

section Sized

variable {unitBits : Nat} {limit : Option Nat} {consume : α → Nat → ReaderM α} {bounds : Bounds Nat}

/-- Chunks that are read locally from a reader on are so from any place further on. -/
theorem LocalUnits.of_follows {r' : Reader} (h : LocalUnits r unitBits consume) (hf : r.Follows r') :
    LocalUnits r' unitBits consume :=
  fun _ hf' => h (hf.trans hf')

/-- What follows the check of a chunk. -/
theorem checkChunk_bind (m : ReaderM β) (total units : Nat) :
    (SizedContent.checkChunk unitBits limit total units >>= fun _ => m) =
      if limit.any (· < total) then throw (.unsupported .lengthLimit)
      else Unpacker.remaining >>= fun ahead =>
        if unitBits ≠ 0 ∧ units * unitBits % UInt64.size > ahead then throw .endOfStream else m := by
  by_cases hl : limit.any (· < total) = true
  · simp only [SizedContent.checkChunk, if_pos hl]
    rfl
  · simp only [SizedContent.checkChunk, if_neg hl]
    funext s
    rw [run_bind, Unpacker.remaining_bind, Unpacker.remaining_bind]
    by_cases hc : unitBits ≠ 0 ∧ units * unitBits % UInt64.size > BitSource.remaining s
    · rw [if_pos hc, if_pos hc]
      rfl
    · rw [if_neg hc, if_neg hc]
      rfl

/-- A chunk is checked against the bits ahead, which it is read from anyway. -/
theorem local_checkChunk_bind {m : ReaderM β} {units least : Nat} (limit : Option Nat) (total : Nat)
    (h : Local r m ∧ Spends r (units * unitBits) m) (hs : Spends r least m) :
    Local r (SizedContent.checkChunk unitBits limit total units >>= fun _ => m) ∧
      Spends r least (SizedContent.checkChunk unitBits limit total units >>= fun _ => m) := by
  rw [checkChunk_bind]
  constructor
  · refine local_ite (fun _ => local_throw _) fun _ => local_remaining_bind h fun ahead hshort => ?_
    exact Nat.lt_of_lt_of_le hshort.2 (Nat.mod_le _ _)
  · exact spends_ite (fun _ => spends_throw _ _) fun _ => spends_remaining_bind hs

/-- Chunks are read until one is not followed by another; each that is takes a length, and so at least a bit. -/
theorem fueled_unpackFrom (hs : r.Sound) (hc : LocalUnits r unitBits consume) {chunk : LengthDeterminant.Chunk}
    (hb : chunk.isFragment = true → LengthDeterminant.boundedUpper bounds = none) (total : Nat) (sofar : α) (fuel : Nat) :
    Fueled fuel r (SizedContent.unpackFrom bounds unitBits limit consume total sofar chunk) := by
  induction fuel generalizing r total sofar chunk with
  | zero =>
    intro x r' hm
    cases hm
  | succ fuel ih =>
    have hunits := hc (.refl r) sofar chunk.units
    by_cases hfrag : chunk.isFragment = true
    · have hfree := hb hfrag
      -- what comes before the next chunk: the units of this one and the length of the next
      have hnext : ∀ ⦃x r1⦄, consume sofar chunk.units r = .ok x r1 → r.Follows r1 →
          Local r1 (Prod.mk x <$> LengthDeterminant.unpack bounds) ∧
            Spends r1 1 (Prod.mk x <$> LengthDeterminant.unpack bounds) := by
        intro x r1 _ hf
        simp only [LengthDeterminant.unpack, hfree]
        have hlen := local_unpackFree (hf.sound hs)
        exact ⟨hlen.1.map _, hlen.2.map _⟩
      have hpart := local_bind_spends hunits fun x r1 hx hf => (hnext hx hf).1
      obtain ⟨hl, hspent⟩ := local_checkChunk_bind limit (total + chunk.units) hpart
        (hunits.1.bind_spends hnext).2
      refine Fueled.succ hl hspent (f := fun p k => SizedContent.unpackFrom bounds unitBits limit consume
        (total + chunk.units) p.1 p.2 k) (fun k => ?_) fun p r1 _ hf => ?_
      · simp only [SizedContent.unpackFrom, if_pos hfrag, bind_assoc, bind_map_left]
      · exact ih (hf.sound hs) (hc.of_follows hf) (fun _ => hfree) _ _
    · have hlast : ∀ k, SizedContent.unpackFrom bounds unitBits limit consume total sofar chunk (k + 1) =
          SizedContent.checkChunk unitBits limit (total + chunk.units) chunk.units >>= fun _ =>
            consume sofar chunk.units >>= fun x => pure (total + chunk.units, x) := by
        intro k
        simp only [SizedContent.unpackFrom, if_neg hfrag]
      have hpart := local_bind_spends hunits fun x r1 _ _ => local_pure (total + chunk.units, x)
      exact (local_checkChunk_bind limit _ hpart hpart.2).1.fueled_succ hlast

/-- A content under length determinants. -/
theorem local_unpackCounted (hs : r.Sound) (hc : LocalUnits r unitBits consume) (size : Bounds Nat) (start : α) :
    Local r (SizedContent.unpackCounted size unitBits limit start consume) := by
  refine local_of_fueled (g := fun fuel => do
    let chunk ← LengthDeterminant.unpack _
    let found ← SizedContent.unpackFrom _ unitBits limit consume 0 start chunk fuel
    if SizedContent.inRoot size found.1 then pure found.2 else throw (SizedContent.outsideFault size found.1)) fun fuel => ?_
  refine ((local_unpack _ hs).fueled fuel).bind fun chunk r1 hchunk hf => ?_
  have hfree := (LengthDeterminant.gives_unpack r _ hchunk).1
  refine (fueled_unpackFrom (hf.sound hs) (hc.of_follows hf) hfree 0 start fuel).bind fun p r2 _ _ => ?_
  exact (local_ite (fun _ => local_pure _) fun _ => local_throw _).fueled fuel

/-- A content within its bounds. -/
theorem local_unpackRoot (hs : r.Sound) (hc : LocalUnits r unitBits consume) (size : Bounds Nat) (start : α) :
    Local r (SizedContent.unpackRoot size unitBits limit start consume) := by
  refine local_ite (fun _ => local_pure _) fun _ => ?_
  split
  · rename_i count _
    have hunits := hc (.refl r) start count
    exact (local_checkChunk_bind limit _ hunits hunits.2).1
  · exact local_unpackCounted hs hc size start

/-- A content of a bounded size. -/
theorem local_sized (hs : r.Sound) (hc : LocalUnits r unitBits consume) (size : Bounds Nat) (extensible : Bool) (start : α) :
    Local r (SizedContent.unpack size extensible unitBits limit start consume) := by
  refine local_ite (fun _ => (local_bit hs).1.bind fun outside r1 _ hf => ?_) fun _ => local_unpackRoot hs hc size start
  have hs1 := hf.sound hs
  have hc1 := hc.of_follows hf
  exact local_ite (fun _ => local_unpackCounted hs1 hc1 .free start) fun _ => local_unpackRoot hs1 hc1 size start

end Sized

/-! ## Strings -/

/-- Octets are read by their bits. -/
theorem localUnits_octets (hs : r.Sound) : LocalUnits r 8 OctetString.unpackChunk :=
  fun _ hf _ _ => local_run _ _ _ (hf.sound hs)

/-- An octet string is local. -/
theorem local_octetString (hs : r.Sound) (size : Bounds Nat) (extensible : Bool) (limit : Option Nat) :
    Local r (OctetString.unpack size extensible limit) :=
  local_sized hs (localUnits_octets hs) size extensible #[]

/-- Octets that are skipped take up their bits, step by step. -/
theorem local_skipOctets (count : Nat) (hs : r.Sound) :
    Local r (OpenType.skipOctets count) ∧ Spends r (count * 8) (OpenType.skipOctets count) := by
  induction count using OpenType.stepwise generalizing r with
  | zero =>
    rw [OpenType.skipOctets_zero, Nat.zero_mul]
    exact ⟨local_pure _, (local_pure _).spends⟩
  | step count more ih =>
    have hstep := Nat.min_le_left count OpenType.stepSize
    obtain ⟨hl, hspent⟩ := local_run (Octets.growTo #[] OpenType.stepSize) 0 (min count OpenType.stepSize * 8) hs
    rw [OpenType.skipOctets_pos more]
    refine ⟨hl.bind fun _ r1 _ hf => (ih (hf.sound hs)).1, ?_⟩
    rw [show count * 8 = min count OpenType.stepSize * 8 + (count - min count OpenType.stepSize) * 8 by omega]
    exact hspent.bind fun _ r1 hm => (ih ((hl hm).1.sound hs)).2

/-- An open type that is skipped. -/
theorem local_openTypeSkip (hs : r.Sound) : Local r OpenType.skip :=
  local_sized hs (fun _ hf _ count => local_skipOctets count (hf.sound hs)) .free false ()

/-- A bit string is local. -/
theorem local_bitString (hs : r.Sound) (size : Bounds Nat) (extensible : Bool) (limit : Option Nat) :
    Local r (BitString.unpack size extensible limit) := by
  refine (local_sized hs (fun r' hf sofar count => ?_) size extensible (#[], 0)).bind fun _ _ _ _ => local_pure _
  have h := local_bind_spends (local_run (Octets.growTo sofar.1 (Octets.countFor (sofar.2 + count))) sofar.2 count
    (hf.sound hs)) fun octets _ _ _ => local_pure (octets, sofar.2 + count)
  rw [Nat.mul_one]
  exact h

/-- A character is local, and takes as many bits as a character of the alphabet does. -/
theorem local_unpackCharacter (alphabet : Alphabet) (index : Nat) (hs : r.Sound) :
    Local r (CharacterString.unpackCharacter alphabet index) ∧
      Spends r alphabet.bitsPerCharacter (CharacterString.unpackCharacter alphabet index) := by
  refine local_bind_spends (local_bitsBelow 0 _ hs) fun code r1 _ _ => ?_
  split
  · exact local_throw _
  · exact local_ite (fun _ => local_pure _) fun _ => local_throw _

/-- Characters are read by their bits. -/
theorem local_unpackCharacters (alphabet : Alphabet) (text : Octets) (count : Nat) (hs : r.Sound) :
    Local r (CharacterString.unpackCharacters alphabet text count) ∧
      Spends r (count * alphabet.bitsPerCharacter) (CharacterString.unpackCharacters alphabet text count) := by
  induction count generalizing r text with
  | zero =>
    rw [Nat.zero_mul]
    exact ⟨local_pure _, (local_pure _).spends⟩
  | succ count ih =>
    obtain ⟨hl, hspent⟩ := local_unpackCharacter alphabet text.size hs
    refine ⟨hl.bind fun octet r1 _ hf => (ih _ (hf.sound hs)).1, ?_⟩
    rw [Nat.succ_mul, Nat.add_comm]
    exact hspent.bind fun octet r1 hm => (ih (text.push octet) ((hl hm).1.sound hs)).2

/-- A character string is local. -/
theorem local_characterString (hs : r.Sound) (alphabet : Alphabet) (size : Bounds Nat) (extensible : Bool)
    (limit : Option Nat) : Local r (CharacterString.unpack alphabet size extensible limit) := by
  unfold CharacterString.unpack
  split
  · refine (local_octetString hs .free false limit).bind fun text r1 _ _ => ?_
    exact local_ite (fun _ => local_pure _) fun _ => local_throw _
  · exact local_sized hs (fun r' hf text count => local_unpackCharacters alphabet text count (hf.sound hs)) size extensible #[]

/-! ## Whole numbers and indices -/

/-- A number between two words is local. -/
theorem local_unpackWithin (lower upper : UInt64) (hs : r.Sound) : Local r (WholeNumber.unpackWithin lower upper) := by
  refine (local_word _ hs).1.bind fun offset r1 _ _ => ?_
  exact local_ite (fun _ => local_throw _) fun _ => local_pure _

/-- The number of octets of a number is local. -/
theorem local_unpackOctetCount (hs : r.Sound) : Local r WholeNumber.unpackOctetCount := by
  refine (local_unpackFree hs).1.bind fun chunk r1 _ _ => ?_
  refine local_ite (fun _ => local_throw _) fun _ => ?_
  exact local_ite (fun _ => local_throw _) fun _ => local_pure _

/-- The magnitude of a number is local. -/
theorem local_unpackMagnitude (hs : r.Sound) : Local r WholeNumber.unpackMagnitude :=
  (local_unpackOctetCount hs).bind fun _ _ _ hf => (local_word _ (hf.sound hs)).1

/-- A number that is normally small is local. -/
theorem local_unpackSmall (hs : r.Sound) : Local r WholeNumber.unpackSmall :=
  (local_bit hs).1.bind fun _ _ _ hf =>
    local_ite (fun _ => local_unpackMagnitude (hf.sound hs)) fun _ => (local_word 6 (hf.sound hs)).1

/-- A number in two's complement behind its length. -/
theorem local_unpackSignedFree (hs : r.Sound) : Local r WholeNumber.unpackFree :=
  (local_unpackOctetCount hs).bind fun _ _ _ hf => (local_word _ (hf.sound hs)).1.bind fun _ _ _ _ => local_pure _

/-- A number of the root. -/
theorem local_unpackNumber (bounds : Bounds Int64) (hs : r.Sound) : Local r (WholeNumber.unpackRoot bounds) := by
  unfold WholeNumber.unpackRoot
  split
  · refine local_ite (fun _ => local_throw _) fun _ => (local_word _ hs).1.bind fun offset r1 _ _ => ?_
    exact local_ite (fun _ => local_throw _) fun _ => local_pure _
  · refine (local_unpackMagnitude hs).bind fun offset r1 _ _ => ?_
    exact local_ite (fun _ => local_throw _) fun _ => local_pure _
  · exact local_unpackSignedFree hs

/-- An integer is local. -/
theorem local_unpackInteger (bounds : Bounds Int64) (extensible : Bool) (hs : r.Sound) :
    Local r (WholeNumber.unpackInteger bounds extensible) := by
  refine local_ite (fun _ => (local_bit hs).1.bind fun outside r1 _ hf => ?_) fun _ => local_unpackNumber bounds hs
  have hs1 := hf.sound hs
  exact local_ite (fun _ => local_unpackSignedFree hs1) fun _ => local_unpackNumber bounds hs1

/-- An index of the root, where a number that is out of range gets a fault of its own. -/
theorem local_unpackRootIndex (standard : Nat) (hs : r.Sound) : Local r (ChoiceIndex.unpackRoot standard) := by
  refine local_ite (fun _ => local_throw _) fun _ x r' hm => ?_
  have hl := local_unpackWithin 0 (ChoiceIndex.lastRoot standard) hs
  split at hm
  · cases hm
  · obtain ⟨hf, hecho⟩ := hl hm
    refine ⟨hf, fun n t hn ht => ?_⟩
    obtain ⟨hok, hshort⟩ := hecho n t hn ht
    refine ⟨fun hle => ?_, fun hlt => ?_⟩
    · obtain ⟨t', ht', hm', hs'⟩ := hok hle
      exact ⟨t', by simp only [ht'], hm', hs'⟩
    · obtain ⟨t', ht'⟩ := hshort hlt
      exact ⟨t', by simp only [ht']⟩

/-- The index of an alternative is local. -/
theorem local_choiceIndex (standard : Nat) (extensible : Bool) (hs : r.Sound) :
    Local r (ChoiceIndex.unpack standard extensible) := by
  refine local_ite (fun _ => (local_bit hs).1.bind fun isExtension r1 _ hf => ?_) fun _ => local_unpackRootIndex standard hs
  have hs1 := hf.sound hs
  refine local_ite (fun _ => (local_unpackSmall hs1).bind fun offset r2 _ _ => ?_) fun _ => local_unpackRootIndex standard hs1
  exact local_ite (fun _ => local_throw _) fun _ => local_pure _

end Reader

end UnalignedPer
