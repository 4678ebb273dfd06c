import UnalignedPer.Proofs.Message.LimitsTypes
import UnalignedPer.Proofs.Message.OpenTypes

/-!
# How long the open types are that a decoder enters

Before an open type is entered one can look ahead at all that it announces (`OpenType.announced`). A decoder that does so and turns
away what is too long (`Reader.screened`) decodes a message as the plain decoder does if and only if each of the open types that are
entered, wherever they lie, is let through: this is what `EntersOnly` says.

The limit of the settings is checked where fragments are put together. A single chunk has no such check, and it holds less than a
fragment. So no open type that is entered announces more than the limit and more than 16383 octets, and a limit below that does not
hold in single chunks (`openTypes_limited`).
-/

namespace UnalignedPer

open LengthDeterminant (Announces Chunk fragmentUnit)
open LawfulBitSource (Moved)
open SizedContent (Chunked Chunking Part TakesChunked)

/-! ## What is announced -/

namespace OpenType

variable {σ : Type} [BitSource σ]

/-- The number of octets in all chunks of an open type. -/
def announced : Unpacker σ Nat := do
  let chunk ← LengthDeterminant.unpackFree
  let ahead ← Unpacker.remaining
  let (total, _) ← SizedContent.unpackFrom .free 8 none OctetString.unpackChunk 0 #[] chunk (ahead + 1)
  pure total

/-- What is announced is the total of the first chunk and those behind it. -/
theorem announced_of_chunks {s s1 s2 : σ} {chunk : Chunk} {total : Nat} {octets : Octets}
    (hfirst : LengthDeterminant.unpackFree s = .ok chunk s1)
    (hchunks : SizedContent.unpackFrom .free 8 none OctetString.unpackChunk 0 #[] chunk (BitSource.remaining s1 + 1) s1 =
      .ok (total, octets) s2) : announced s = .ok total s2 := by
  rw [announced, run_bind, hfirst]
  show (SizedContent.unpackFrom .free 8 none OctetString.unpackChunk 0 #[] chunk (BitSource.remaining s1 + 1) >>= fun found =>
    pure found.1) s1 = _
  rw [run_bind, hchunks]
  rfl

/-- A single chunk takes its octets and no others. -/
theorem takes_single [LawfulBitSource σ] (s : σ) {bits : List Bool} {count : Nat} (hl : bits.length = count * 8) (fuel : Nat) :
    Unpacker.Takes s (SizedContent.unpackFrom .free 8 none OctetString.unpackChunk 0 #[] ⟨count, false⟩ (fuel + 1)) bits
      (count, Octets.overlay (Octets.growTo #[] (0 + count)) (0 * 8) bits) := by
  have hlimit : ∀ l, (none : Option Nat) = some l → 0 + count ≤ l := nofun
  have htakes := SizedContent.takes_unpackFrom_final .free fuel hlimit (Nat.le_of_eq hl.symm)
    (OctetString.takes_unpackChunk s #[] hl)
  rw [Nat.zero_add] at htakes
  exact htakes

/-- However the octets are cut into chunks, their number is announced. -/
theorem takesChunked_announced [LawfulBitSource σ] (s : σ) (value : Octets) :
    TakesChunked s announced (OctetString.units value) value.size := by
  have hlimit : ∀ l, (none : Option Nat) = some l → value.size ≤ l := nofun
  rintro bits ⟨pieces, hp, hc⟩
  have hsize := congrArg List.length hp
  rw [OctetString.length_units, ← SizedContent.total_ofUnits] at hsize
  generalize hparts : pieces.map Part.ofUnits = parts at hc
  cases hc with
  | @last part header ha =>
    obtain ⟨piece, rfl, rfl⟩ := List.map_eq_singleton_iff.mp hparts
    refine (ha.takes_unpackFree s).bind fun s1 _ => SizedContent.takes_remaining_bind fun ahead _ => ?_
    rw [List.flatten_singleton] at hp
    have hbits : (Part.ofUnits piece).bits = Octets.bitsFrom value 0 (value.size * 8) := by
      rw [← OctetString.flatten_units, ← hp]
      rfl
    have hcount : (Part.ofUnits piece).count = value.size := hsize
    have hlength : (Part.ofUnits piece).bits.length = value.size * 8 := by
      rw [hbits, Octets.length_bitsFrom]
    rw [hcount, ← List.append_nil (Part.ofUnits piece).bits]
    exact (takes_single s1 hlength ahead).bind fun s2 _ => Unpacker.takes_pure s2 _
  | @fragment part parts header behind ha hrest =>
    obtain ⟨piece, rest, rfl, rfl, rfl⟩ := List.map_eq_cons_iff.mp hparts
    refine (ha.takes_unpackFree s).bind fun s1 _ => SizedContent.takes_remaining_bind fun ahead hahead => ?_
    rw [← List.append_nil (_ ++ behind)]
    rw [List.length_append] at hahead
    refine (OctetString.takes_unpackFrom_pieces s1 hlimit hp hrest (by omega)).bind fun s2 _ => ?_
    have htotal : 0 + piece.length + SizedContent.total (rest.map Part.ofUnits) = value.size := by
      rw [Nat.zero_add, ← hsize]
      rfl
    rw [htotal]
    exact Unpacker.takes_pure s2 _

end OpenType

namespace Reader

variable {α : Type} {r r' : Reader} {x : α}

/-! ## Looking ahead -/

/-- Reads a content from an open type if all that it announces is admitted. -/
def screened (admits : Nat → Bool) (content : ReaderM α) : ReaderM α := fun r =>
  match OpenType.announced r.view with
  | .ok total _ => if admits total then inOpenType content r else .error (.unsupported .lengthLimit) r
  | .error fault _ => .error fault r

/-- A reader and its view are read in step. -/
theorem linked_ownView : Linked fun (r : Reader) (v : BitView) => r.view = v := by
  have hstep : ∀ {α : Type} (action : EStateM Fault BitView α),
      InStep (fun (r : Reader) v => r.view = v) (onView action) action := by
    rintro α action r _ rfl
    unfold outcome onView
    cases action r.view <;> exact ⟨rfl, rfl⟩
  exact ⟨fun r _ h => congrArg BitView.remaining h, hstep _, fun _ _ _ => hstep _⟩

/-- What is read is read from the view as well. -/
theorem read_ownView {m : ReaderM α} {m' : Unpacker BitView α} (hm : InStep (fun (r : Reader) v => r.view = v) m m')
    (h : m r = .ok x r') : m' r.view = .ok x r'.view := by
  rcases hm.cases rfl with ⟨y, s, v, hs, hv, rfl⟩ | ⟨fault, s, v, hs, -, -⟩
  · cases hs.symm.trans h
    exact hv
  · cases hs.symm.trans h

/-- Fragments that were put together announce what is within the limit. -/
theorem announced_inFragments {chunk : Chunk} {content : ReaderM α} (h : inFragments chunk content r = .ok x r') :
    ∃ total octets v, SizedContent.unpackFrom .free 8 none OctetString.unpackChunk 0 #[] chunk (r.view.remaining + 1) r.view =
      .ok (total, octets) v ∧ total ≤ r.settings.maxLength.toNat := by
  have hrun : (SizedContent.unpackFrom .free 8 (some r.settings.maxLength.toNat) OctetString.unpackChunk 0 #[] chunk
      (r.view.remaining + 1) >>= fun found => withView (.ofOctets found.2 (found.2.size * 8)) content) r = .ok x r' := h
  rw [run_bind] at hrun
  split at hrun
  · rename_i found s hfound
    have hnone : LimitLe (some r.settings.maxLength.toNat) none := fun total ht => absurd ht Bool.false_ne_true
    obtain ⟨⟨-, hle⟩, t, ht, -⟩ := eases_unpackFrom hnone easesUnits_octets .free 8 (r.view.remaining + 1) 0 #[] chunk rfl
      (Eased.refl r) hfound
    exact ⟨found.1, found.2, t.view,
      read_ownView (linked_ownView.unpackFrom linked_ownView.unpackOctetChunk _ _ _ _ _ _ _) ht, le_of_not_any hle⟩
  · cases hrun

/-- A single chunk whose octets are there announces them. -/
theorem announced_inChunk {count : Nat} {content : ReaderM α} (h : inChunk count content r = .ok x r') (fuel : Nat) :
    ∃ octets v, SizedContent.unpackFrom .free 8 none OctetString.unpackChunk 0 #[] ⟨count, false⟩ (fuel + 1) r.view =
      .ok (count, octets) v := by
  rw [inChunk_run] at h
  split at h
  · cases h
  · rename_i hle
    have hlength : (r.view.toList.take (count * 8)).length = count * 8 := by
      rw [List.length_take, BitView.length_toList]
      omega
    obtain ⟨v, hv, -⟩ := OpenType.takes_single r.view hlength fuel (List.take_prefix _ _)
    exact ⟨_, v, hv⟩

/-- An open type that was entered announces less than a fragment or what is within the limit. -/
theorem announced_inOpenType {content : ReaderM α} (h : inOpenType content r = .ok x r') :
    ∃ total v, OpenType.announced r.view = .ok total v ∧ (total < fragmentUnit ∨ total ≤ r.settings.maxLength.toNat) := by
  obtain ⟨s, hs, -⟩ := afterwards_eq_ok.mp h
  rw [run_bind] at hs
  split at hs
  · rename_i chunk s0 hchunk
    obtain ⟨header, ha, -, hmoved⟩ := LengthDeterminant.parses_unpackFree _ hchunk
    obtain ⟨s1, hs1⟩ : ∃ s1, s1 = noted .verbose (fun () => "open type of " ++ toString chunk.units ++ " octets") s0 := ⟨_, rfl⟩
    have hcontent : (if chunk.isFragment then inFragments chunk content else inChunk chunk.units content) s1 = .ok x s := by
      rw [hs1]
      exact hs
    have hset : s1.settings = r.settings := by
      rw [hs1]
      exact (moved_noted _ _ s0).1.settings.trans hmoved.1.settings
    have hfree : LengthDeterminant.unpackFree r.view = .ok chunk s1.view := by
      rw [hs1, noted_view]
      exact read_ownView (r := { r with presence := none }) linked_ownView.unpackLengthFree hchunk
    obtain ⟨count, isFragment⟩ := chunk
    cases isFragment with
    | true =>
      obtain ⟨total, octets, v, hv, hle⟩ := announced_inFragments hcontent
      rw [hset] at hle
      exact ⟨total, v, OpenType.announced_of_chunks hfree hv, .inr hle⟩
    | false =>
      obtain ⟨octets, v, hv⟩ := announced_inChunk hcontent s1.view.remaining
      exact ⟨count, v, OpenType.announced_of_chunks hfree hv, .inl ha.last_lt⟩
  · cases hs

/-- Where everything shorter than a fragment and everything within the limit is admitted, looking ahead changes nothing. -/
theorem easesInside_screened {settings : Settings} {admits : Nat → Bool}
    (h : ∀ total, total < fragmentUnit ∨ total ≤ settings.maxLength.toNat → admits total = true) :
    EasesInside settings (screened admits) := by
  intro α depth content content' P hc r t x r' he hm
  obtain ⟨total, v, hannounced, hle⟩ := announced_inOpenType hm
  rw [he.under] at hle
  have hscreened : screened admits content' t = inOpenType content' t := by
    unfold screened
    rw [he.view, hannounced]
    exact if_pos (h total hle)
  obtain ⟨hp, t', ht, he'⟩ := hc.inOpenType he hm
  exact ⟨hp, t', hscreened.trans ht, he'⟩

/-! ## A choice that is entered -/

section Alone

variable (inside : ∀ {α : Type}, ReaderM α → ReaderM α) (hp : r.presence = none) (hc : r.claimed = none)

include hp hc

/-- Outside of a sequence a field is no open type. -/
theorem fieldBy_alone (content : ReaderM α) : fieldBy inside content r = content r := by
  simp only [fieldBy, run_bind, enterField_of_none hp hc]
  rfl

theorem containerBy_alone (content : ReaderM α) :
    containerBy inside content r =
      if r.depth ≥ r.settings.maxDepth then .error (.unsupported .nestingLimit) r
      else afterwards (fun r => { r with depth := r.depth - 1 }) content { r with depth := r.depth + 1 } := by
  simp only [containerBy, run_bind, enterField_of_none hp hc, run_get]
  split <;> rfl

omit hp hc in
/-- Outside of a sequence, and without room for a container, a value is read without open types. -/
theorem readBy_full (inside inside' : ∀ {α : Type}, ReaderM α → ReaderM α) (type : Descriptor) (hp : r.presence = none)
    (hc : r.claimed = none) (hd : r.settings.maxDepth ≤ r.depth) : type.readBy inside r = type.readBy inside' r := by
  cases type with
  | simple name plain extensible =>
    cases plain <;> simp only [Descriptor.readBy, Descriptor.readSimpleBy, run_bind, run_map, fieldBy_alone _ hp hc]
  | enumerated => simp only [Descriptor.readBy, run_bind, fieldBy_alone _ hp hc]
  | sequence => simp only [Descriptor.readBy, sequenceBy, run_bind, containerBy_alone _ hp hc, if_pos hd]
  | sequenceOf => simp only [Descriptor.readBy, sequenceOfBy, run_bind, containerBy_alone _ hp hc, if_pos hd]
  | choice => simp only [Descriptor.readBy, choiceBy, run_bind, containerBy_alone _ hp hc, if_pos hd]

/-- An extension alternative is entered behind the index, and what comes of it is what comes of the choice. -/
theorem choiceBy_extension {c : Constraint} (hcount : c.count ≤ 2 ^ 64) {alternative : UInt64}
    (hlt : alternative.toNat < c.count) (hext : c.standardCount ≤ alternative.toNat) (hd : r.depth < r.settings.maxDepth)
    {behind : List Bool} (hb : ChoiceIndex.form c.standardCount c.extensible alternative.toNat ++ behind <+: r.view.toList) :
    ∃ s : Reader, s.claimed = none ∧ behind <+: s.view.toList ∧
      ∀ payload : UInt64 → ReaderM α, resultOf (choiceBy inside c payload) r =
        (resultOf (inside (payload alternative)) s).map (alternative, ·) := by
  obtain ⟨r1, hr1⟩ : ∃ r1 : Reader, r1 = { r with depth := r.depth + 1 } := ⟨_, rfl⟩
  have hahead : ChoiceIndex.form c.standardCount c.extensible alternative.toNat ++ behind <+: r1.view.toList := by
    rw [hr1]
    exact hb
  obtain ⟨r2, hindex, hm⟩ := takes_index r1 hcount hlt (Unpacker.prefix_left hahead)
  obtain ⟨r3, hr3⟩ : ∃ r3, r3 = noted .basic
      (fun () => "choice " ++ c.text ++ " alternative " ++ toString alternative) r2 := ⟨_, rfl⟩
  have hm3 : Moved r1 _ r3 := hr3 ▸ LawfulBitSource.moved_trans hm (moved_noted _ _ r2)
  refine ⟨{ r3 with presence := none }, hm3.1.claimed.trans (hr1 ▸ hc), ?_, fun payload => ?_⟩
  · rw [show ({ r3 with presence := none } : Reader).view.toList = _ from LawfulBitSource.ahead_of_moved hm3]
    exact Unpacker.prefix_drop hahead
  · have hchoice : choiceBy inside c payload r = afterwards (fun r => { r with depth := r.depth - 1 })
        (withPresence none (inside (payload alternative)) >>= fun result => pure (alternative, result)) r3 := by
      rw [choiceBy, containerBy_alone inside hp hc, if_neg (Nat.not_le.mpr hd), ← hr1]
      unfold afterwards
      simp only [run_bind, hindex, note, run_modify, ← hr3, withContentBy, if_pos (decide_eq_true hext)]
    unfold resultOf
    rw [hchoice]
    simp only [afterwards, run_bind, withPresence]
    cases inside (payload alternative) { r3 with presence := none } <;> rfl

end Alone

end Reader

/-! ## Decoding -/

/-- Every open type that a decoder enters announces a number of octets that is admitted: to look ahead at all of them makes no
difference to what is decoded. -/
def EntersOnly (admits : Nat → Bool) (settings : Settings) (type : Descriptor) (data : Octets) (length : Nat) : Prop :=
  (decodeBy (Reader.screened admits) settings type data length).1 = (decode settings type data length).1

variable {settings : Settings} {admits : Nat → Bool} {type : Descriptor} {data : Octets} {length : Nat} {found : Decoding}

/-- An open type that is entered is shorter than a fragment or within the limit. -/
theorem entersOnly_of_admits (h : ∀ total, total < fragmentUnit ∨ total ≤ settings.maxLength.toNat → admits total = true)
    (hd : (decode settings type data length).1 = .ok found) : EntersOnly admits settings type data length := by
  unfold EntersOnly
  rw [hd]
  unfold decode at hd
  unfold decodeBy
  cases hm : type.read (.ofView (.ofOctets data length) settings) with
  | error fault r =>
    rw [hm] at hd
    cases hd
  | ok value r =>
    rw [hm] at hd
    cases hd
    obtain ⟨-, t, ht, he⟩ := type.eases_readBy (Reader.easesInside_screened h) 0 (Nat.zero_le _)
      (Reader.Eased.refl (.ofView (.ofOctets data length) settings)) hm
    simp only [ht, he.view]

/-- Without room for a container no open type is entered. -/
theorem entersOnly_of_full (h : settings.maxDepth = 0) : EntersOnly admits settings type data length := by
  unfold EntersOnly
  rw [← decodeBy_inOpenType]
  unfold decodeBy
  rw [Reader.readBy_full (Reader.screened admits) Reader.inOpenType type rfl rfl (Nat.le_of_eq h)]

/-! ## Single chunks -/

/-- What becomes of a result. -/
theorem resultOf_bind_pure {ε σ α β : Type} (m : EStateM ε σ α) (f : α → β) (s : σ) :
    resultOf (m >>= fun x => pure (f x)) s = (resultOf m s).map f := by
  unfold resultOf
  rw [run_bind]
  cases m s <;> rfl

/-- Something is decoded when a value is read. -/
theorem decodeBy_eq_ok {inside : ∀ {α : Type}, ReaderM α → ReaderM α} :
    (∃ found, (decodeBy inside settings type data length).1 = .ok found) ↔
      ∃ value, resultOf (type.readBy inside) (.ofView (.ofOctets data length) settings) = some value := by
  unfold decodeBy resultOf
  cases type.readBy inside (.ofView (.ofOctets data length) settings) <;> simp

/-- A type with an extension alternative that takes no bits. -/
def Descriptor.filler : Descriptor :=
  .choice "Filler" [("none", .simple "" .null false), ("filled", .simple "" .null false)] (some 1)

/-- The extension alternative of a filler, in an open type of some octets. -/
def fillerBits (value : Octets) : List Bool :=
  ChoiceIndex.form 1 true 1 ++ (true :: false :: Bits.ofNat value.size 14 ++ Octets.bitsFrom value 0 (value.size * 8))

/-- A filler is what its extension alternative is. -/
theorem readBy_filler (inside : ∀ {α : Type}, ReaderM α → ReaderM α) (hd : 0 < settings.maxDepth) {v : BitView}
    {behind : List Bool} (hv : ChoiceIndex.form 1 true 1 ++ behind <+: v.toList) :
    ∃ s : Reader, s.claimed = none ∧ behind <+: s.view.toList ∧
      resultOf (Descriptor.filler.readBy inside) (.ofView v settings) =
        (resultOf (inside (some <$> Descriptor.readBy inside (.simple "" .null false))) s).map (.choice 1 ·) := by
  have hlt : (1 : UInt64).toNat < Descriptor.filler.constraint.count := by decide
  obtain ⟨s, hc, hb, hresult⟩ := Reader.choiceBy_extension (r := .ofView v settings) inside rfl rfl (by decide) hlt
    (by decide) hd hv
  refine ⟨s, hc, hb, ?_⟩
  have hread : Descriptor.filler.readBy inside =
      Reader.choiceBy inside Descriptor.filler.constraint (fun index => Descriptor.readAlternativeBy inside
        [("none", .simple "" .null false), ("filled", .simple "" .null false)] index.toNat) >>= fun found =>
          pure (.choice found.1 found.2) := by
    rw [Descriptor.filler, Descriptor.readBy]
  have hpayload : Descriptor.readAlternativeBy inside
      [("none", .simple "" .null false), ("filled", .simple "" .null false)] (1 : UInt64).toNat =
        some <$> Descriptor.readBy inside (.simple "" .null false) := by
    show Descriptor.readAlternativeBy inside _ (0 + 1) = _
    rw [Descriptor.readAlternativeBy, Descriptor.readAlternativeBy]
  rw [hread, resultOf_bind_pure, hresult, hpayload]
  cases resultOf (inside (some <$> Descriptor.readBy inside (.simple "" .null false))) s <;> rfl

/-- Outside of a sequence a NULL takes nothing. -/
theorem takes_null {r : Reader} (hp : r.presence = none) (hc : r.claimed = none) :
    Unpacker.Takes r (some <$> Descriptor.read (.simple "" .null false)) [] (some .null) := by
  refine fun _ => ⟨r, ?_, LawfulBitSource.moved_refl r⟩
  rw [Descriptor.read, run_map]
  simp only [Descriptor.readSimple, Reader.null, Reader.field, run_bind, Reader.enterField_of_none hp hc]
  rfl

/-- The content of a filler is read from any octets in a single chunk. -/
theorem inOpenType_filler {s : Reader} {value : Octets} (hc : s.claimed = none) (hv : value.size < fragmentUnit)
    (hb : true :: false :: Bits.ofNat value.size 14 ++ Octets.bitsFrom value 0 (value.size * 8) <+: s.view.toList) :
    resultOf (Reader.inOpenType (some <$> Descriptor.read (.simple "" .null false))) s = some (some .null) := by
  obtain ⟨s1, hm, hbehind, hout⟩ := Reader.inOpenType_announced (some <$> Descriptor.read (.simple "" .null false)) (.long hv) hb
  obtain ⟨s2, hchunk, -⟩ := Reader.takes_inChunk (r := s1) (hm.1.claimed.trans hc) (Octets.length_bitsFrom ..) List.nil_prefix
    (fun r hi => takes_null (hi.presence.elim id fun h => h.trans hm.2) hi.claimed) hbehind
  rw [if_neg Bool.false_ne_true, outcome_ok hchunk] at hout
  unfold outcome at hout
  unfold resultOf
  cases hrun : Reader.inOpenType (some <$> Descriptor.read (.simple "" .null false)) s with
  | ok x s' =>
    rw [hrun] at hout
    cases hout
    rfl
  | error fault s' =>
    rw [hrun] at hout
    cases hout

/-- A filler is decoded however long its open type is, but only if the length of the open type is admitted is it entered. -/
theorem entersOnly_filler (admits : Nat → Bool) (hd : 0 < settings.maxDepth) {value : Octets} (hv : value.size < fragmentUnit) :
    ∃ found, (decode settings .filler (Octets.ofBits (fillerBits value)) (fillerBits value).length).1 = .ok found ∧
      (EntersOnly admits settings .filler (Octets.ofBits (fillerBits value)) (fillerBits value).length →
        admits value.size = true) := by
  have hview : fillerBits value <+: (BitView.ofOctets (Octets.ofBits (fillerBits value)) (fillerBits value).length).toList := by
    rw [BitView.toList_ofOctets_ofBits]
  obtain ⟨found, hfound⟩ : ∃ found,
      (decode settings .filler (Octets.ofBits (fillerBits value)) (fillerBits value).length).1 = .ok found := by
    obtain ⟨s, hc, hb, hresult⟩ := readBy_filler Reader.inOpenType hd hview
    rw [Descriptor.readBy_inOpenType (.simple "" .null false), inOpenType_filler hc hv hb] at hresult
    rw [← decodeBy_inOpenType]
    exact decodeBy_eq_ok.mpr ⟨_, hresult⟩
  refine ⟨found, hfound, fun h => ?_⟩
  obtain ⟨s, -, hb, hresult⟩ := readBy_filler (Reader.screened admits) hd hview
  obtain ⟨value', hvalue'⟩ := decodeBy_eq_ok.mp ⟨found, h.trans hfound⟩
  rw [hvalue'] at hresult
  have hchunking : Chunking (OctetString.units value)
      (true :: false :: Bits.ofNat value.size 14 ++ Octets.bitsFrom value 0 (value.size * 8)) := by
    have hcount : (Part.ofUnits (OctetString.units value)).count = value.size := OctetString.length_units value
    have hbits : (Part.ofUnits (OctetString.units value)).bits = Octets.bitsFrom value 0 (value.size * 8) :=
      OctetString.flatten_units value
    have hlast : Announces ⟨(Part.ofUnits (OctetString.units value)).count, false⟩
        (true :: false :: Bits.ofNat value.size 14) := by
      rw [hcount]
      exact .long hv
    rw [← hbits]
    exact ⟨[OctetString.units value], List.flatten_singleton, .last hlast⟩
  obtain ⟨v, hannounced, -⟩ := OpenType.takesChunked_announced s.view value _ hchunking hb
  by_contra hnot
  have hscreened : resultOf (Reader.screened admits
      (some <$> Descriptor.readBy (Reader.screened admits) (.simple "" .null false))) s = none := by
    unfold resultOf Reader.screened
    rw [hannounced]
    simp only [if_neg hnot]
  rw [hscreened] at hresult
  cases hresult

/-- Every open type that a decoder enters, wherever it lies, announces less than a fragment or no more than the limit of the
settings. So what is put together from fragments is within the limit. What stands in a single chunk is within the limit for all
types and all messages only if the limit admits every single chunk, or if no container may be entered at all. -/
theorem openTypes_limited (settings : Settings) :
    (∀ type data length found, (decode settings type data length).1 = .ok found →
      EntersOnly (fun total => total < fragmentUnit ∨ total ≤ settings.maxLength.toNat) settings type data length) ∧
    ((∀ type data length found, (decode settings type data length).1 = .ok found →
      EntersOnly (fun total => total ≤ settings.maxLength.toNat) settings type data length) ↔
        settings.maxDepth = 0 ∨ fragmentUnit - 1 ≤ settings.maxLength.toNat) := by
  refine ⟨fun type data length found h => entersOnly_of_admits (fun _ => decide_eq_true) h, fun h => ?_, ?_⟩
  · by_contra hnot
    obtain ⟨hdepth, hlength⟩ := not_or.mp hnot
    have hv : (Array.replicate (fragmentUnit - 1) 0 : Octets).size < fragmentUnit := by
      rw [Array.size_replicate]
      decide
    obtain ⟨found, hfound, honly⟩ := entersOnly_filler (fun total => total ≤ settings.maxLength.toNat)
      (Nat.pos_of_ne_zero hdepth) hv
    have hadmitted := of_decide_eq_true (honly (h _ _ _ found hfound))
    rw [Array.size_replicate] at hadmitted
    exact hlength hadmitted
  · rintro (hfull | hlength) type data length found hd
    · exact entersOnly_of_full hfull
    · exact entersOnly_of_admits (fun total ht => decide_eq_true (by simp only [fragmentUnit] at *; omega)) hd

/-- Two octets in an open type, where the limit is one octet. -/
theorem not_openTypes_limited :
    let settings : Settings := ⟨64, 1, .off⟩
    (decode settings .filler #[0x80, 0x02, 0x00, 0x00] 32).1 = .ok ⟨.choice 1 (some .null), 32⟩ ∧
      ¬EntersOnly (fun total => total ≤ settings.maxLength.toNat) settings .filler #[0x80, 0x02, 0x00, 0x00] 32 := by
  intro settings
  have hd : (decode settings .filler #[0x80, 0x02, 0x00, 0x00] 32).1 = .ok ⟨.choice 1 (some .null), 32⟩ := by cbv
  have hscreened : (decodeBy (Reader.screened fun total => total ≤ settings.maxLength.toNat) settings .filler
      #[0x80, 0x02, 0x00, 0x00] 32).1 = .error (.unsupported .lengthLimit) := by cbv
  refine ⟨hd, fun h => ?_⟩
  cases hscreened.symm.trans (h.trans hd)

end UnalignedPer
