import UnalignedPer.Message.Reader
import UnalignedPer.Proofs.ChoiceIndex
import UnalignedPer.Proofs.OctetString
import UnalignedPer.Proofs.SizedContent

/-!
# Reading fields and containers

A reader is a source: the bits ahead are those of its view. A field starts with what `Reader.enterField` does, and
`Reader.ReadsField` says what a field takes from the front of the bits ahead from then on, whatever sequence, list or choice it
stands in. The content of an open type is read from bits of its own, behind which the padding lies.

What is read has to respect the limits of the reader: `depth` containers may lie inside each other, and no content may be longer
than the greatest decoded length.
-/

namespace UnalignedPer

namespace Reader

/-- `r'` is `r` with the cursor `n` bits further on. Its presence bits and its trace may differ. -/
structure Advanced (r : Reader) (n : Nat) (r' : Reader) : Prop where
  /-- The cursor has moved over bits that were ahead. -/
  view : LawfulBitSource.Moved r.view n r'.view
  /-- The same field is claimed, if one is. -/
  claimed : r'.claimed = r.claimed
  /-- The extension marker is the same. -/
  marker : r'.marker = r.marker
  /-- As many containers lie around the place of reading. -/
  depth : r'.depth = r.depth
  /-- The settings are the same. -/
  settings : r'.settings = r.settings
  /-- The same steps have come to their end. -/
  steps : r'.steps = r.steps

theorem Advanced.refl (r : Reader) : r.Advanced 0 r :=
  ⟨LawfulBitSource.moved_refl _, rfl, rfl, rfl, rfl, rfl⟩

theorem Advanced.trans {r r' r'' : Reader} {m n : Nat} (h : r.Advanced m r') (h' : r'.Advanced n r'') :
    r.Advanced (m + n) r'' :=
  ⟨LawfulBitSource.moved_trans h.view h'.view, h'.claimed.trans h.claimed, h'.marker.trans h.marker, h'.depth.trans h.depth,
    h'.settings.trans h.settings, h'.steps.trans h.steps⟩

end Reader

/-- A reader is read from its view. -/
instance : LawfulBitSource Reader where
  ahead r := r.view.toList
  Moved r n r' := r.Advanced n r' ∧ r'.presence = r.presence
  moved_refl r := ⟨.refl r, rfl⟩
  moved_trans h h' := ⟨h.1.trans h'.1, h'.2.trans h.2⟩
  ahead_of_moved h := LawfulBitSource.ahead_of_moved h.1.view
  remaining_eq r := LawfulBitSource.remaining_eq r.view
  readBit_cons := by
    intro r bit rest h
    obtain ⟨v, hv, hm⟩ := LawfulBitSource.readBit_cons (s := r.view) h
    have hv' : BitView.readBit r.view = .ok bit v := hv
    exact ⟨{ r with view := v }, by simp only [BitSource.readBit, Reader.onView, hv'], ⟨hm, rfl, rfl, rfl, rfl, rfl⟩, rfl⟩
  readBit_nil := by
    intro r h
    have hv : BitView.readBit r.view = .error .endOfStream r.view := LawfulBitSource.readBit_nil (s := r.view) h
    simp only [BitSource.readBit, Reader.onView, hv]
  readInto_ok := by
    intro r length dst offset h
    obtain ⟨v, hv, hm⟩ := LawfulBitSource.readInto_ok (s := r.view) dst offset h
    have hv' : BitView.readInto dst offset length r.view = .ok _ v := hv
    exact ⟨{ r with view := v }, by simp only [BitSource.readInto, Reader.onView, hv']; rfl,
      ⟨hm, rfl, rfl, rfl, rfl, rfl⟩, rfl⟩
  readInto_short := by
    intro r length dst offset h
    have hv : BitView.readInto dst offset length r.view = .error .endOfStream r.view :=
      LawfulBitSource.readInto_short (s := r.view) dst offset h
    simp only [BitSource.readInto, Reader.onView, hv]

namespace Reader

open Unpacker (Takes)
open LawfulBitSource (Moved)

variable {α β : Type}

/-! ## Small steps -/

/-- Tracing touches the trace only. -/
theorem noted_eq (level : TraceLevel) (text : Unit → String) (r : Reader) :
    ∃ trace, noted level text r = { r with trace := trace } := by
  unfold noted
  split
  · exact ⟨_, rfl⟩
  · exact ⟨r.trace, rfl⟩

theorem noted_view (level : TraceLevel) (text : Unit → String) (r : Reader) : (noted level text r).view = r.view := by
  obtain ⟨_, h⟩ := noted_eq level text r
  rw [h]

theorem moved_noted (level : TraceLevel) (text : Unit → String) (r : Reader) : Moved r 0 (noted level text r) := by
  obtain ⟨_, h⟩ := noted_eq level text r
  rw [h]
  exact ⟨⟨LawfulBitSource.moved_refl _, rfl, rfl, rfl, rfl, rfl⟩, rfl⟩

theorem takes_note (r : Reader) (level : TraceLevel) (text : Unit → String) : Takes r (note level text) [] () :=
  fun _ => ⟨noted level text r, rfl, moved_noted level text r⟩

theorem takes_position (r : Reader) : Takes r position [] r.view.position :=
  fun _ => ⟨r, rfl, LawfulBitSource.moved_refl r⟩

theorem takes_maxLength (r : Reader) : Takes r maxLength [] (some r.settings.maxLength.toNat) :=
  fun _ => ⟨r, rfl, LawfulBitSource.moved_refl r⟩

/-- The view some bits further on. -/
theorem view_skip {v : BitView} {n : Nat} (h : n ≤ v.toList.length) :
    ∃ v', v.skip n = .ok v' ∧ LawfulBitSource.Moved v n v' := by
  rw [BitView.length_toList] at h
  exact ⟨{ v with position := v.position + n }, if_neg (by omega), rfl, h⟩

/-- Bits may be passed over. -/
theorem takes_skip (r : Reader) (bits : List Bool) : Takes r (skip bits.length) bits () := by
  intro hp
  obtain ⟨v, hv, hm⟩ := view_skip hp.length_le
  exact ⟨{ r with view := v }, by simp only [skip, hv], ⟨hm, rfl, rfl, rfl, rfl, rfl⟩, rfl⟩

/-! ## Open types -/

/-- A content may be read in place of `r` or from bits of its own. -/
structure Inside (r r' : Reader) : Prop where
  /-- No field is claimed. -/
  claimed : r'.claimed = none
  /-- As many containers lie around. -/
  depth : r'.depth = r.depth
  /-- The settings are the same. -/
  settings : r'.settings = r.settings
  /-- The presence bits are the same ones, or out of sight. -/
  presence : r'.presence = none ∨ r'.presence = r.presence

/-- A content in front of some bits is read from a view of them, and the reader itself stays where it is. -/
theorem takes_withView {r : Reader} {v : BitView} {content : ReaderM α} {bits : List Bool} {result : α}
    (hp : bits <+: v.toList) (h : Takes { r with view := v } content bits result) :
    ∃ r', withView v content r = .ok result r' ∧ Moved r 0 r' := by
  obtain ⟨r1, hm, hmoved, hpres⟩ := h hp
  refine ⟨{ r1 with view := r.view }, by simp only [withView, afterwards, hm], ?_, hpres⟩
  exact ⟨LawfulBitSource.moved_refl _, hmoved.claimed, hmoved.marker, hmoved.depth, hmoved.settings, hmoved.steps⟩

/-- A content in front of some octets is read and the octets are passed. -/
theorem takes_inChunk {r : Reader} {octets : Nat} {content : ReaderM α} {bits all : List Bool} {result : α}
    (hc : r.claimed = none) (hlen : all.length = octets * 8) (hb : bits <+: all)
    (h : ∀ r', Inside r r' → Takes r' content bits result) : Takes r (inChunk octets content) all result := by
  intro hp
  have hle : octets * 8 ≤ r.view.remaining := by
    have := hp.length_le
    rw [hlen] at this
    exact Nat.le_trans this (Nat.le_of_eq (BitView.length_toList _))
  obtain ⟨part, hpart⟩ : ∃ part, part = { r.view with stop := r.view.position + octets * 8 } := ⟨_, rfl⟩
  have hview : r.view.part (octets * 8) = .ok part := by
    rw [hpart]
    exact if_neg (by omega)
  have hlist : part.toList = all := by
    rw [List.prefix_iff_eq_take.mp hp, hlen, hpart]
    show Octets.bitsFrom r.view.data r.view.position (r.view.position + octets * 8 - r.view.position) =
      List.take (octets * 8) (Octets.bitsFrom r.view.data r.view.position r.view.remaining)
    rw [Octets.take_bitsFrom, Nat.min_eq_left hle, Nat.add_sub_cancel_left]
  obtain ⟨r1, hm1, hmoved1⟩ := takes_withView (r := r) (v := part) (by rw [hlist]; exact hb)
    (h { r with view := part } ⟨hc, rfl, rfl, Or.inr rfl⟩)
  have hahead : all <+: LawfulBitSource.ahead r1 := by
    rw [LawfulBitSource.ahead_of_moved hmoved1, List.drop_zero]
    exact hp
  obtain ⟨r2, hm2, hmoved2⟩ := takes_skip r1 all hahead
  rw [hlen] at hm2
  refine ⟨r2, ?_, ?_⟩
  · simp only [inChunk, run_bind, run_get, hview, hm1, hm2]
    rfl
  · have := LawfulBitSource.moved_trans hmoved1 hmoved2
    rw [Nat.zero_add] at this
    exact this

/-- A content in front of some fragmented octets is read and the fragments are passed. -/
theorem takes_inFragments {r : Reader} {content : ReaderM α} {bits all : List Bool} {octets : Nat} {result : α}
    (hc : r.claimed = none) (hlen : all.length = octets * 8) (hl : octets ≤ r.settings.maxLength.toNat) (hb : bits <+: all)
    (h : ∀ r', Inside r r' → Takes r' content bits result) :
    Takes r (inFragments (LengthDeterminant.chunkOf octets) content) (SizedContent.chunks (Bits.octets all)) result := by
  have hunits : (Bits.octets all).length = octets := by
    rw [Bits.length_octets, hlen]
    omega
  refine SizedContent.takes_remaining_bind fun ahead ha => ?_
  refine (takes_maxLength r).bind fun r1 hm1 => ?_
  have hr : SizedContent.Readable 8 (some r.settings.maxLength.toNat) (Bits.octets all) := by
    refine OctetString.readable_octets fun l hl' => ?_
    cases hl'
    rw [← Bits.length_octets, hunits]
    exact hl
  have hfuel : (SizedContent.chunks ((Bits.octets all).drop 0)).length < ahead + 1 := by
    rw [List.drop_zero]
    omega
  have hall := SizedContent.takes_unpackFrom (OctetString.consumes_unpackChunk r1 all) hr (ahead + 1) r1 0 0
    (LawfulBitSource.moved_refl r1) (Nat.zero_le _) hfuel
  rw [List.drop_zero, Nat.sub_zero, hunits, Nat.zero_mul, List.take_zero, Octets.ofBits_nil, ← hlen, List.take_length] at hall
  rw [← List.append_nil (SizedContent.chunks _)]
  refine hall.bind fun r2 hm2 => ?_
  have hsize : (Octets.ofBits all).size * 8 = all.length := by
    rw [Octets.size_ofBits, hlen, Octets.countFor]
    omega
  have hlist : (BitView.ofOctets (Octets.ofBits all) ((Octets.ofBits all).size * 8)).toList = all := by
    rw [hsize]
    exact BitView.toList_ofOctets_ofBits all
  have hm := LawfulBitSource.moved_trans hm1 hm2
  obtain ⟨r3, hm3, hmoved3⟩ := takes_withView (r := r2) (by rw [hlist]; exact hb)
    (h { r2 with view := BitView.ofOctets (Octets.ofBits all) ((Octets.ofBits all).size * 8) }
      ⟨hm.1.claimed.trans hc, hm.1.depth, hm.1.settings, Or.inr hm.2⟩)
  exact fun _ => ⟨r3, hm3, hmoved3⟩

/-- The content of an open type is read and its padding is passed. -/
theorem takes_inOpenType {r : Reader} {content : ReaderM α} {bits : List Bool} {result : α} (hc : r.claimed = none)
    (hl : OpenType.octetCount bits ≤ r.settings.maxLength.toNat)
    (h : ∀ r', Inside r r' → Takes r' content bits result) :
    Takes r (inOpenType content) (OpenType.form bits) result := by
  have hlen := OpenType.length_padded bits
  have hb : bits <+: OpenType.padded bits := List.prefix_append _ _
  have hunits := OpenType.length_octets_padded bits
  obtain ⟨r0, hr0⟩ : ∃ r0 : Reader, r0 = { r with presence := none } := ⟨_, rfl⟩
  have hinside : ∀ n r1 r', Moved r0 n r1 → Inside r1 r' → Inside r r' := by
    intro n r1 r' hm hi
    have hp : r1.presence = none := hm.2.trans (by rw [hr0])
    refine ⟨hi.claimed, hi.depth.trans (hm.1.depth.trans (by rw [hr0])), hi.settings.trans (hm.1.settings.trans (by rw [hr0])),
      Or.inl ?_⟩
    rcases hi.presence with hnone | hsame
    · exact hnone
    · exact hsame.trans hp
  have hclaimed : ∀ n r1, Moved r0 n r1 → r1.claimed = none := fun n r1 hm =>
    hm.1.claimed.trans (by rw [hr0]; exact hc)
  have hlimit : ∀ n r1, Moved r0 n r1 → OpenType.octetCount bits ≤ r1.settings.maxLength.toNat := fun n r1 hm => by
    rw [hm.1.settings, hr0]
    exact hl
  have haction : Takes r0 (do
      let chunk ← LengthDeterminant.unpackFree
      note .verbose fun () => "open type of " ++ toString chunk.units ++ " octets"
      if chunk.isFragment then inFragments chunk content else inChunk chunk.units content)
      (OpenType.form bits) result := by
    rw [OpenType.form, SizedContent.fragments, hunits]
    refine (LengthDeterminant.takes_unpackFree r0 _).bind fun r1 hm1 => ?_
    refine (takes_note r1 .verbose _).bind fun r2 hm2 => ?_
    have hm := LawfulBitSource.moved_trans hm1 hm2
    by_cases hf : LengthDeterminant.fragmentUnit ≤ OpenType.octetCount bits
    · rw [if_pos ((LengthDeterminant.isFragment_chunkOf _).mpr hf)]
      exact takes_inFragments (hclaimed _ r2 hm) hlen (hlimit _ r2 hm) hb fun r' hi => h r' (hinside _ r2 r' hm hi)
    · rw [if_neg (mt (LengthDeterminant.isFragment_chunkOf _).mp hf)]
      have hunit : (LengthDeterminant.chunkOf (OpenType.octetCount bits)).units = OpenType.octetCount bits :=
        LengthDeterminant.covered_of_lt (Nat.lt_of_not_le hf)
      have hchunks : SizedContent.chunks (Bits.octets (OpenType.padded bits)) = OpenType.padded bits := by
        have hall := Bits.flatten_octets (OpenType.padded bits) 0 (OpenType.octetCount bits) (by omega)
        rw [List.drop_zero, Nat.zero_mul, List.drop_zero, ← hlen, List.take_length] at hall
        rw [SizedContent.chunks, hunits, dif_pos (Nat.lt_of_not_le hf), List.append_nil,
          LengthDeterminant.covered_of_lt (Nat.lt_of_not_le hf)]
        exact hall
      rw [hunit, hchunks]
      exact takes_inChunk (hclaimed _ r2 hm) hlen hb fun r' hi => h r' (hinside _ r2 r' hm hi)
  intro hp
  obtain ⟨r1, hm1, hmoved1⟩ := haction (by rw [hr0]; exact hp)
  rw [hr0] at hm1 hmoved1
  refine ⟨{ r1 with presence := r.presence, marker := r.marker }, ?_, ?_, rfl⟩
  · simp only [inOpenType, afterwards]
    rw [hm1]
  · exact ⟨hmoved1.1.view, hmoved1.1.claimed, rfl, hmoved1.1.depth, hmoved1.1.settings, hmoved1.1.steps⟩

/-- The content of a field is read as it is or as an open type. -/
theorem takes_withContent {r : Reader} (hc : r.claimed = none) (openType : Bool) {content : ReaderM α} {bits : List Bool}
    {result : α} (hl : openType = true → OpenType.octetCount bits ≤ r.settings.maxLength.toNat)
    (h : ∀ r', Inside r r' → Takes r' content bits result) :
    Takes r (withContent openType content) (if openType then OpenType.form bits else bits) result := by
  cases openType with
  | false => exact h r ⟨hc, rfl, rfl, Or.inr rfl⟩
  | true => exact takes_inOpenType hc (hl rfl) h

/-! ## Fields -/

/-- After a field was entered, `m` takes the form of the field and gives a result, if the containers fit into the limit and the
greatest decoded length is as long as is needed. -/
def ReadsField (m : ReaderM α) (needs : Nat → Prop) (nesting : Nat) (bits : List Bool) (result : α) : Prop :=
  ∀ r r' openType, enterField r = .ok openType r' → r'.claimed = none → r'.depth + nesting ≤ r'.settings.maxDepth →
    needs r'.settings.maxLength.toNat →
    (openType = true → OpenType.octetCount bits ≤ r'.settings.maxLength.toNat) →
    (if openType then OpenType.form bits else bits) <+: r'.view.toList →
    ∃ r'', m r = .ok result r'' ∧ Moved r' (if openType then OpenType.form bits else bits).length r''

/-- An action that does the same where another one succeeds. -/
theorem ReadsField.mono {m : ReaderM α} {m' : ReaderM β} {needs : Nat → Prop} {nesting : Nat} {bits : List Bool} {x : α}
    {y : β} (h : ReadsField m needs nesting bits x) (hm : ∀ r r', m r = .ok x r' → m' r = .ok y r') :
    ReadsField m' needs nesting bits y := by
  intro r r' openType he hc hd hn hl hp
  obtain ⟨r'', hr, hmoved⟩ := h r r' openType he hc hd hn hl hp
  exact ⟨r'', hm r r'' hr, hmoved⟩

theorem ReadsField.map {m : ReaderM α} {needs : Nat → Prop} {nesting : Nat} {bits : List Bool} {x : α} (f : α → β)
    (h : ReadsField m needs nesting bits x) : ReadsField (f <$> m) needs nesting bits (f x) :=
  h.mono fun r r' hm => by simp only [run_map, hm]

/-- More may be asked for than is needed. -/
theorem ReadsField.weaken {m : ReaderM α} {needs needs' : Nat → Prop} {nesting nesting' : Nat} {bits : List Bool} {x : α}
    (h : ReadsField m needs nesting bits x) (hle : nesting ≤ nesting') (hn : ∀ limit, needs' limit → needs limit) :
    ReadsField m needs' nesting' bits x :=
  fun r r' openType he hc hd hn' hl hp => h r r' openType he hc (by omega) (hn _ hn') hl hp

/-- Outside of a sequence nothing stands in front of a field. -/
theorem enterField_of_none {r : Reader} (hp : r.presence = none) (hc : r.claimed = none) : enterField r = .ok false r := by
  simp only [enterField, run_bind, run_get, hc, claimSlot, reachSlot, visitSlot, hp, run_pure, if_true]

/-- Outside of a sequence a field is read as it is. -/
theorem ReadsField.alone {m : ReaderM α} {needs : Nat → Prop} {nesting : Nat} {bits : List Bool} {result : α}
    (h : ReadsField m needs nesting bits result) {r : Reader} (hp : r.presence = none) (hc : r.claimed = none)
    (hd : r.depth + nesting ≤ r.settings.maxDepth) (hn : needs r.settings.maxLength.toNat) : Takes r m bits result :=
  h r r false (enterField_of_none hp hc) hc hd hn (fun hf => absurd hf Bool.false_ne_true)

/-- A field without parts. -/
theorem readsField_field {content : ReaderM α} {needs : Nat → Prop} {bits : List Bool} {result : α}
    (h : ∀ r : Reader, needs r.settings.maxLength.toNat → Takes r content bits result) :
    ReadsField (field content) needs 0 bits result := by
  intro r r' openType he hc hd hn hl hp
  have hm : field content r = withContent openType content r' := by
    simp only [field, run_bind, he]
  rw [hm]
  refine takes_withContent hc openType hl (fun r1 hi => h r1 ?_) hp
  rw [hi.settings]
  exact hn

/-- A field with parts, which lie one container deeper. -/
theorem readsField_container {content : ReaderM α} {needs : Nat → Prop} {nesting : Nat} {bits : List Bool} {result : α}
    (h : ∀ r : Reader, r.claimed = none → r.depth + nesting ≤ r.settings.maxDepth → needs r.settings.maxLength.toNat →
      Takes r content bits result) : ReadsField (container content) needs (nesting + 1) bits result := by
  intro r r' openType he hc hd hn hl hp
  have hdepth : ¬r'.depth ≥ r'.settings.maxDepth := by omega
  have hm : container content r =
      afterwards (fun r => { r with depth := r.depth - 1 }) (withContent openType content)
        { r' with depth := r'.depth + 1 } := by
    simp only [container, run_bind, he, run_get, if_neg hdepth]
    rfl
  obtain ⟨r1, hr1⟩ : ∃ r1 : Reader, r1 = { r' with depth := r'.depth + 1 } := ⟨_, rfl⟩
  have hdeep : r1.depth + nesting ≤ r1.settings.maxDepth := by
    rw [hr1]
    show r'.depth + 1 + nesting ≤ r'.settings.maxDepth
    omega
  have htakes : Takes r1 (withContent openType content) (if openType then OpenType.form bits else bits) result := by
    refine takes_withContent (by rw [hr1]; exact hc) openType (by rw [hr1]; exact hl) fun r2 hi => ?_
    refine h r2 hi.claimed ?_ ?_
    · rw [hi.depth, hi.settings]
      exact hdeep
    · rw [hi.settings, hr1]
      exact hn
  obtain ⟨r2, hm2, hmoved⟩ := htakes (by rw [hr1]; exact hp)
  rw [hm, ← hr1]
  refine ⟨{ r2 with depth := r2.depth - 1 }, by simp only [afterwards, hm2], ?_, ?_⟩
  · rw [hr1] at hmoved
    refine ⟨hmoved.1.view, hmoved.1.claimed, hmoved.1.marker, ?_, hmoved.1.settings, hmoved.1.steps⟩
    show r2.depth - 1 = r'.depth
    rw [hmoved.1.depth]
    rfl
  · rw [hr1] at hmoved
    exact hmoved.2

/-- An action with presence bits of its own, which leaves those of the sequence around alone. -/
theorem takes_withPresence {r : Reader} {presence : Option Presence} {action : ReaderM α} {bits : List Bool} {result : α}
    (h : bits <+: r.view.toList →
      ∃ r', action { r with presence := presence } = .ok result r' ∧ r.Advanced bits.length r') :
    Takes r (withPresence presence action) bits result := by
  intro hp
  obtain ⟨r1, hm, ha⟩ := h hp
  exact ⟨{ r1 with presence := r.presence }, by simp only [withPresence, afterwards, hm],
    ⟨ha.view, ha.claimed, ha.marker, ha.depth, ha.settings, ha.steps⟩, rfl⟩

/-- An action outside of any sequence. -/
theorem takes_withPresence_none {r : Reader} {action : ReaderM α} {bits : List Bool} {result : α}
    (h : ∀ r' : Reader, r'.presence = none → r'.claimed = r.claimed → r'.depth = r.depth → r'.settings = r.settings →
      Takes r' action bits result) : Takes r (withPresence none action) bits result := by
  refine takes_withPresence fun hp => ?_
  obtain ⟨r1, hm, ha, _⟩ := h { r with presence := none } rfl rfl rfl rfl hp
  exact ⟨r1, hm, ⟨ha.view, ha.claimed, ha.marker, ha.depth, ha.settings, ha.steps⟩⟩

/-! ## Indices, lists and choices -/

/-- The index of a declared alternative or item is read back. -/
theorem takes_index (r : Reader) {c : Constraint} (hc : c.count ≤ 2 ^ 64) {alternative : UInt64}
    (hlt : alternative.toNat < c.count) :
    Takes r (index c) (ChoiceIndex.form c.standardCount c.extensible alternative.toNat) alternative := by
  have hle : c.standardCount ≤ c.count := by
    unfold Constraint.standardCount
    split <;> omega
  have hstandard : c.extensible = true ∨ alternative.toNat < c.standardCount := by
    cases he : c.extensible with
    | true => exact Or.inl rfl
    | false =>
      refine Or.inr ?_
      rw [Constraint.standardCount, he, if_neg Bool.false_ne_true]
      exact hlt
  unfold index
  rw [← List.append_nil (ChoiceIndex.form _ _ _)]
  refine (ChoiceIndex.takes_unpack r (by omega) hstandard).bind fun r1 _ => ?_
  rw [if_neg (by omega)]
  exact Unpacker.takes_pure r1 _

/-- Elements that are read each for itself are read one after another. -/
theorem consumes_elements {element : Nat → ReaderM α} {units : List (List Bool)} {results : List α} {needs : Nat → Prop}
    {nesting : Nat} (hlen : results.length = units.length)
    (h : ∀ i (_ : i < units.length) (_ : i < results.length), ReadsField (element i) needs nesting units[i] results[i])
    {r : Reader} (hp : r.presence = none) (hc : r.claimed = none) (hd : r.depth + nesting ≤ r.settings.maxDepth)
    (hn : needs r.settings.maxLength.toNat) :
    SizedContent.Consumes r (elements element) units fun count => (results.take count).toArray := by
  intro r' n offset count hm hle
  induction count generalizing r' n offset with
  | zero => exact Unpacker.takes_pure r' _
  | succ count ih =>
    have hi : offset < units.length := by omega
    have hi' : offset < results.length := by omega
    have hsize : (results.take offset).toArray.size = offset := by
      rw [List.size_toArray, List.length_take]
      omega
    have hpush : (results.take offset).toArray.push results[offset] = (results.take (offset + 1)).toArray := by
      rw [List.push_toArray, List.take_append_getElem hi']
    simp only [elements, List.drop_eq_getElem_cons hi, List.take_succ_cons, List.flatten_cons, hsize]
    have hfirst := (h offset hi hi').alone (hm.2.trans hp) (hm.1.claimed.trans hc)
      (by rw [hm.1.depth, hm.1.settings]; exact hd) (by rw [hm.1.settings]; exact hn)
    refine hfirst.bind fun r1 hm1 => ?_
    rw [hpush, show offset + (count + 1) = offset + 1 + count by omega]
    exact ih r1 _ (offset + 1) (LawfulBitSource.moved_trans hm hm1) (by omega)

/-- A SEQUENCE OF is read back when its size lies within the bounds or the type is extensible. -/
theorem readsField_sequenceOf (c : Constraint) {element : Nat → ReaderM α} {units : List (List Bool)} {results : List α}
    {needs : Nat → Prop} {nesting : Nat} (hlen : results.length = units.length)
    (h : ∀ i (_ : i < units.length) (_ : i < results.length), ReadsField (element i) needs nesting units[i] results[i])
    (hs : c.extensible = true ∨ SizedContent.inRoot c.size units.length = true) :
    ReadsField (sequenceOf c element) (fun limit => units.length ≤ limit ∧ needs limit) (nesting + 1)
      (SizedContent.form c.size c.extensible units) results.toArray := by
  refine readsField_container fun r hc hd hn => ?_
  refine (takes_note r .basic _).bind fun r1 hm1 => ?_
  refine takes_withPresence_none fun r2 hp2 hc2 hd2 hs2 => ?_
  have hset : r2.settings = r.settings := hs2.trans hm1.1.settings
  refine (takes_maxLength r2).bind fun r3 hm3 => ?_
  have hr : SizedContent.Readable 0 (some r2.settings.maxLength.toNat) units := by
    refine ⟨fun l hl => ?_, fun u _ => Nat.zero_le _⟩
    cases hl
    rw [hset]
    exact hn.1
  have hconsumes := consumes_elements hlen h (hm3.2.trans hp2)
    (hm3.1.claimed.trans (hc2.trans (hm1.1.claimed.trans hc)))
    (by rw [hm3.1.depth, hm3.1.settings, hd2, hset, hm1.1.depth]; exact hd)
    (by rw [hm3.1.settings, hset]; exact hn.2)
  have hall := SizedContent.takes_unpack hconsumes hr c.size hs
  rw [List.take_zero, ← hlen, List.take_length] at hall
  exact hall

/-- A CHOICE is read back when there is such an alternative. -/
theorem readsField_choice (c : Constraint) (hc : c.count ≤ 2 ^ 64) {alternative : UInt64} (hlt : alternative.toNat < c.count)
    (payload : UInt64 → ReaderM α) {needs : Nat → Prop} {nesting : Nat} {bits : List Bool} {result : α}
    (h : ReadsField (payload alternative) needs nesting bits result) :
    ReadsField (choice c payload)
      (fun limit => needs limit ∧ (c.standardCount ≤ alternative.toNat → OpenType.octetCount bits ≤ limit)) (nesting + 1)
      (ChoiceIndex.form c.standardCount c.extensible alternative.toNat ++
        if c.standardCount ≤ alternative.toNat then OpenType.form bits else bits) (alternative, result) := by
  obtain ⟨body, hbody⟩ : ∃ body, body = if c.standardCount ≤ alternative.toNat then OpenType.form bits else bits := ⟨_, rfl⟩
  rw [← hbody]
  refine readsField_container fun r hclaimed hd hn => ?_
  refine (takes_index r hc hlt).bind fun r1 hm1 => ?_
  refine (takes_note r1 .basic _).bind fun r2 hm2 => ?_
  have hm := LawfulBitSource.moved_trans hm1 hm2
  have hpayload : Takes r2 (withPresence none (withContent (decide (c.standardCount ≤ alternative.toNat))
      (payload alternative))) body result := by
    refine takes_withPresence_none fun r3 hp3 hc3 hd3 hs3 => ?_
    have hset : r3.settings = r.settings := hs3.trans hm.1.settings
    have hc3' : r3.claimed = none := hc3.trans (hm.1.claimed.trans hclaimed)
    have hcontent := takes_withContent hc3' (decide (c.standardCount ≤ alternative.toNat))
      (fun hext => by rw [hset]; exact hn.2 (of_decide_eq_true hext)) fun r4 hi => by
        have hp4 : r4.presence = none := by
          rcases hi.presence with hp | hp
          · exact hp
          · exact hp.trans hp3
        refine h.alone hp4 hi.claimed ?_ ?_
        · rw [hi.depth, hi.settings, hset, hd3, hm.1.depth]
          exact hd
        · rw [hi.settings, hset]
          exact hn.1
    simp only [decide_eq_true_eq] at hcontent
    rw [hbody]
    exact hcontent
  rw [← List.append_nil body]
  exact hpayload.bind fun r3 _ => Unpacker.takes_pure r3 _

end Reader

end UnalignedPer
