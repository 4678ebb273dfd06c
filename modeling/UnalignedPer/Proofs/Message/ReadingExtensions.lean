import UnalignedPer.Proofs.Message.ReadingEntries

/-!
# Reading the extension block

The extension block is opened when the first extension field comes. With a set marker its presence bits are where the fields look
for them; without one every extension field is absent, and so is every field past the presence bits of the block. At the end of
the sequence the extensions that no field asked for are skipped.
-/

namespace UnalignedPer

/-- The extension block, which is left out where no extension field is present. -/
def Part.optionalBlock (extensions : List Part) : List Bool :=
  if anyPresent extensions then block extensions else []

namespace Reader

open Unpacker (Takes)
open LawfulBitSource (Moved)

/-- Bits that stand in front of a view stand in its octets from the position on. -/
theorem bitsFrom_of_prefix {v : BitView} {bits : List Bool} (h : bits <+: v.toList) :
    Octets.bitsFrom v.data v.position bits.length = bits := by
  have hle := h.length_le
  rw [BitView.length_toList] at hle
  rw [List.prefix_iff_eq_take.mp h]
  rw [List.length_take, BitView.length_toList, Nat.min_eq_left hle, BitView.toList, Octets.take_bitsFrom, Nat.min_eq_left hle]

/-- Presence bits in front of the cursor are held once the cursor has passed them. -/
theorem holds_of_prefix {r r' : Reader} {p : Presence} {marks : List Bool} {n : Nat} (hc : r'.claimed = none)
    (hp : r'.presence = some p) (hstart : p.ahead.start = r.view.position) (hstop : p.ahead.stop = p.ahead.start + marks.length)
    (hm : Moved r.view n r'.view) (h : marks <+: r.view.toList) : Holds r' p marks := by
  obtain ⟨hview, _⟩ := hm
  have hle := h.length_le
  rw [BitView.length_toList, BitView.remaining] at hle
  refine ⟨hp, hc, ?_, hstop, fun hlt => ?_⟩
  · rw [hview, hstart]
    exact bitsFrom_of_prefix h
  · rw [hview]
    show p.ahead.stop ≤ r.view.stop
    omega

/-! ## Opening the block -/

/-- Behind the standard fields the first extension field opens the extension block. -/
theorem reachSlot_openExtensions {r r' : Reader} {p : Presence} (optional : Bool) (hp : r.presence = some p)
    (hr : p.rule = .standardFields) (hs : p.standardLeft = 0) (he : p.extensions ≠ 0)
    (ho : openExtensions r = .ok () r') : reachSlot optional r = visitSlot optional r' := by
  have hv := Presence.visit_openExtensions optional hr hs he
  have hw : visitSlot optional r = .ok .openExtensions r := by
    simp only [visitSlot, hp, hv]
    rw [← hp]
  simp only [reachSlot, run_bind, hw, ho]

/-- With a set marker the number of extension fields and their presence bits are in front. -/
theorem openExtensions_marked {r : Reader} {p : Presence} {marks : List Bool} (hm : r.marker = true)
    (hc : r.claimed = none) (hp : r.presence = some p) (hpos : 0 < marks.length) (hlt : marks.length < 2 ^ 64)
    (hbits : WholeNumber.smallForm (marks.length - 1) ++ marks <+: r.view.toList) :
    ∃ r' p', openExtensions r = .ok () r' ∧
      r.Advanced (WholeNumber.smallForm (marks.length - 1) ++ marks).length r' ∧ p'.Opened ∧ Holds r' p' marks := by
  obtain ⟨r1, hm1, hmoved1⟩ := WholeNumber.takes_unpackSmall r (show marks.length - 1 < 2 ^ 64 by omega)
    (Unpacker.prefix_left hbits)
  have hcount : (UInt64.ofNat (marks.length - 1)).toNat = marks.length - 1 := by
    rw [UInt64.toNat_ofNat']
    omega
  have hlist1 : r1.view.toList = r.view.toList.drop (WholeNumber.smallForm (marks.length - 1)).length :=
    LawfulBitSource.ahead_of_moved hmoved1
  have hmarks : marks <+: r1.view.toList := by
    rw [hlist1]
    exact Unpacker.prefix_drop hbits
  have hahead : ¬marks.length - 1 ≥ r1.view.remaining := by
    have := hmarks.length_le
    rw [BitView.length_toList] at this
    omega
  obtain ⟨r2, hm2, hmoved2⟩ := takes_skip r1 marks hmarks
  obtain ⟨p', hp'⟩ : ∃ p', p' = p.enterExtensions r.view.position
      ⟨r1.view.position, r1.view.position + marks.length⟩ true := ⟨_, rfl⟩
  obtain ⟨r3, hr3⟩ : ∃ r3 : Reader, r3 = { r2 with presence := some p' } := ⟨_, rfl⟩
  have hp2 : r2.presence = some p := hmoved2.2.trans (hmoved1.2.trans hp)
  obtain ⟨r4, hr4⟩ : ∃ r4, r4 = noted .verbose (fun () => "extension block with " ++ toString marks.length ++
    " presence bits, " ++ toString p'.extensions ++ " known") r3 := ⟨_, rfl⟩
  have hnote : Moved r3 0 r4 := by
    rw [hr4]
    exact moved_noted _ _ r3
  have hadv : r1.Advanced marks.length r4 := by
    have h23 : r1.Advanced marks.length r3 := by
      rw [hr3]
      exact ⟨hmoved2.1.view, hmoved2.1.claimed, hmoved2.1.marker, hmoved2.1.depth, hmoved2.1.settings, hmoved2.1.steps⟩
    exact h23.trans hnote.1
  have hone : marks.length - 1 + 1 = marks.length := by omega
  refine ⟨r4, p', ?_, ?_, by rw [hp']; exact Presence.opened_enterExtensions _ _ _, ?_⟩
  · simp only [openExtensions, position, run_map, run_bind, run_get, hm, if_true, hm1, Unpacker.remaining,
      BitSource.remaining, hcount, if_neg hahead, hone, hm2, enterExtensions, run_modify, hp2, Option.map_some,
      Option.getD_some, note]
    rw [hr4, hr3, hp']
  · rw [List.length_append]
    exact hmoved1.1.trans hadv
  · refine holds_of_prefix ?_ ?_ ?_ ?_ hadv.view hmarks
    · exact hadv.claimed.trans (hmoved1.1.claimed.trans hc)
    · rw [hnote.2, hr3]
    · rw [hp']
      rfl
    · rw [hp']
      rfl

/-- No field finds a presence bit any more, and a field past the run counts as absent. -/
structure Exhausted (r : Reader) (p : Presence) : Prop where
  /-- The extension block was looked for. -/
  opened : p.Opened
  /-- No presence bit is left. -/
  holds : Holds r p []

/-- Without a set marker there is no extension block. -/
theorem openExtensions_unmarked {r : Reader} {p : Presence} (hm : r.marker = false) (hc : r.claimed = none)
    (hp : r.presence = some p) : ∃ r' p', openExtensions r = .ok () r' ∧ r.Advanced 0 r' ∧ Exhausted r' p' := by
  obtain ⟨p', hp'⟩ : ∃ p', p' = p.enterExtensions r.view.position ⟨r.view.position, r.view.position⟩ true := ⟨_, rfl⟩
  obtain ⟨r1, hr1⟩ : ∃ r1 : Reader, r1 = { r with presence := some p' } := ⟨_, rfl⟩
  obtain ⟨r2, hr2⟩ : ∃ r2, r2 = noted .verbose (fun () => "no extension block") r1 := ⟨_, rfl⟩
  have hnote : Moved r1 0 r2 := by
    rw [hr2]
    exact moved_noted _ _ r1
  have hadv : r.Advanced 0 r2 := by
    refine Advanced.trans ?_ hnote.1
    rw [hr1]
    exact ⟨LawfulBitSource.moved_refl _, rfl, rfl, rfl, rfl, rfl⟩
  refine ⟨r2, p', ?_, hadv, by rw [hp']; exact Presence.opened_enterExtensions _ _ _, ?_, hadv.claimed.trans hc, rfl, ?_, ?_⟩
  · simp only [openExtensions, position, run_map, run_bind, run_get, hm, if_neg Bool.false_ne_true, enterExtensions,
      run_modify, hp, Option.map_some, note]
    rw [hr2, hr1, hp', ← hm]
  · rw [hnote.2, hr1]
  · rw [hp']
    rfl
  · rw [hp']
    exact fun hlt => absurd hlt (Nat.lt_irrefl _)

/-! ## Fields past the presence bits -/

/-- Whatever field comes next is absent. `r'` is the reader once the extension block was looked for. -/
structure Ended (r r' : Reader) (p : Presence) : Prop where
  /-- The extension block is looked for, if it has to be. -/
  reach : ∀ optional, reachSlot optional r = visitSlot optional r'
  /-- No field is claimed. -/
  claimed : r.claimed = none
  /-- Then no presence bit is left. -/
  exhausted : Exhausted r' p

/-- What is found past the run: nothing. -/
theorem Exhausted.visitSlot_eq {r : Reader} {p : Presence} (h : Exhausted r p) (optional : Bool) :
    visitSlot optional r = .ok .absent r := by
  have hv := Presence.visit_absent optional h.opened (Nat.le_of_eq h.holds.stop)
  simp only [visitSlot, h.holds.presence, hv]
  rw [← h.holds.presence]

/-- Past the run nothing is opened any more. -/
theorem Exhausted.ended {r : Reader} {p : Presence} (h : Exhausted r p) : Ended r r p := by
  refine ⟨fun optional => ?_, h.holds.claimed, h⟩
  simp only [reachSlot, run_bind, h.visitSlot_eq]
  rfl

/-- An optional field past the run is absent. -/
theorem Ended.readEntry_optional {r r' : Reader} {p : Presence} (h : Ended r r' p) (type : Descriptor) :
    Descriptor.readEntry true type r = .ok none r' := by
  show opt type.read r = .ok none r'
  simp only [opt, claimSlot, run_bind, h.reach, h.exhausted.visitSlot_eq]
  rfl

/-- A mandatory field past the run is missing. -/
theorem Ended.enterField_eq {r r' : Reader} {p : Presence} (h : Ended r r' p) :
    enterField r = .error (.extensionMismatch true false) r' := by
  simp only [enterField, claimSlot, run_bind, run_get, h.claimed, h.reach, h.exhausted.visitSlot_eq]
  rfl

/-- A value is read as a field, so where no field is entered no value is read. -/
theorem read_of_enterField {r r' : Reader} {fault : Fault} (h : enterField r = .error fault r') (type : Descriptor) :
    type.read r = .error fault r' := by
  have hfield : ∀ {α : Type} (content : ReaderM α), field content r = .error fault r' := by
    intro α content
    simp only [field, run_bind, h]
  have hcontainer : ∀ {α : Type} (content : ReaderM α), container content r = .error fault r' := by
    intro α content
    simp only [container, run_bind, h]
  cases type with
  | simple name plain extensible =>
    cases plain <;> simp only [Descriptor.read, Descriptor.readSimple, null, boolean, integer, octetString, bitString,
      characterString, run_bind, run_map, hfield]
  | enumerated name items standard => simp only [Descriptor.read, enumerated, run_bind, hfield]
  | sequence name fields standard => simp only [Descriptor.read, sequence, run_bind, hcontainer]
  | sequenceOf name element size extensible => simp only [Descriptor.read, sequenceOf, run_bind, hcontainer]
  | choice name alternatives standard => simp only [Descriptor.read, choice, run_bind, hcontainer]

/-- Optional fields past the run are absent. -/
theorem Ended.readFields_optional {fields : List (Field Descriptor)} {r r' : Reader} {p : Presence} (h : Ended r r' p)
    (hnil : fields = [] → r = r') (ho : ∀ field ∈ fields, field.optional = true) :
    Descriptor.readFields fields r = .ok (fields.map fun _ => none) r' := by
  induction fields generalizing r with
  | nil => exact congrArg (EStateM.Result.ok []) (hnil rfl)
  | cons field fields ih =>
    rw [Descriptor.readFields_cons, ho field (List.mem_cons_self ..)]
    simp only [run_bind, h.readEntry_optional, ih h.exhausted.ended (fun _ => rfl) fun f hf => ho f (List.mem_cons_of_mem _ hf)]
    rfl

/-- A mandatory field among the fields past the run is missing. -/
theorem Ended.readFields_mandatory {fields : List (Field Descriptor)} {r r' : Reader} {p : Presence} (h : Ended r r' p)
    (hm : ∃ field ∈ fields, field.optional = false) :
    Descriptor.readFields fields r = .error (.extensionMismatch true false) r' := by
  induction fields generalizing r with
  | nil =>
    obtain ⟨field, hf, -⟩ := hm
    exact absurd hf List.not_mem_nil
  | cons field fields ih =>
    rw [Descriptor.readFields_cons]
    cases ho : field.optional with
    | false =>
      have hentry : Descriptor.readEntry false field.type r = .error (.extensionMismatch true false) r' := by
        show (some <$> field.type.read) r = _
        simp only [run_map, read_of_enterField h.enterField_eq]
      simp only [run_bind, hentry]
    | true =>
      have hrest : ∃ f ∈ fields, f.optional = false := by
        obtain ⟨f, hf, hfalse⟩ := hm
        rcases List.mem_cons.mp hf with rfl | hf
        · exact absurd (ho.symm.trans hfalse) (by decide)
        · exact ⟨f, hf, hfalse⟩
      simp only [run_bind, h.readEntry_optional, ih h.exhausted.ended hrest]

/-! ## The extension fields that are known -/

/-- The standard fields were read, and `extensions` extension fields are to come. -/
structure Behind (r : Reader) (p : Presence) (extensions : Nat) : Prop where
  /-- The presence bits are those of the sequence. -/
  presence : r.presence = some p
  /-- No field is claimed. -/
  claimed : r.claimed = none
  /-- The extension block was not looked for yet. -/
  rule : p.rule = .standardFields
  /-- No standard field is to come. -/
  standardLeft : p.standardLeft = 0
  /-- The extension fields that are known. -/
  extensions : p.extensions = extensions

/-- Without a set marker no extension field is there. -/
theorem Behind.ended {r : Reader} {p : Presence} {extensions : Nat} (h : Behind r p extensions) (he : extensions ≠ 0)
    (hm : r.marker = false) : ∃ r' p', Ended r r' p' ∧ r.Advanced 0 r' := by
  obtain ⟨r', p', hopen, hadv, hex⟩ := openExtensions_unmarked hm h.claimed h.presence
  refine ⟨r', p', ⟨fun optional => ?_, h.claimed, hex⟩, hadv⟩
  exact reachSlot_openExtensions optional h.presence h.rule h.standardLeft (by rw [h.extensions]; exact he) hopen

/-- With a set marker the extension fields are read from the extension block, which may hold more than those. -/
theorem Behind.readsEntries_marked {fields : List (Field Descriptor)} {entries : List (Option Value)} {later : List Part}
    {r : Reader} {p : Presence} {extensions : Nat} (hb : Behind r p extensions) (he : extensions ≠ 0)
    (h : ∀ field ∈ fields, ReadBack field.type) (hlen : entries.length = fields.length) (hne : fields ≠ [])
    (hlt : fields.length + later.length < 2 ^ 64) (hm : r.marker = true) (hx : ExpectsAll true fields entries r)
    (hbits : Part.block (Descriptor.parts fields entries ++ later) <+: r.view.toList) :
    ∃ r' p' done, Descriptor.readFields fields r = .ok (Value.tidyList entries) r' ∧ r.Advanced done.length r' ∧
      p'.Opened ∧ Holds r' p' (Part.marks true later) ∧
      Part.block (Descriptor.parts fields entries ++ later) = done ++ Part.bodies true later := by
  obtain ⟨parts, hparts⟩ : ∃ parts, parts = Descriptor.parts fields entries := ⟨_, rfl⟩
  have hlp : parts.length = fields.length := by rw [hparts, Descriptor.length_parts hlen]
  have hpos : 0 < fields.length := List.length_pos_iff.mpr hne
  have hblock : Part.block (parts ++ later) = (WholeNumber.smallForm ((parts ++ later).length - 1) ++
      Part.marks true (parts ++ later)) ++ (Part.bodies true parts ++ Part.bodies true later) := by
    rw [Part.block, Part.bodies, List.flatMap_append]
    rfl
  have hml := Part.length_marks_true (parts ++ later)
  have hal : (parts ++ later).length = fields.length + later.length := by rw [List.length_append, hlp]
  rw [← hparts] at hbits ⊢
  rw [hblock, ← hml] at hbits
  obtain ⟨r1, p1, hopen, hadv1, ho1, hs1⟩ := openExtensions_marked hm hb.claimed hb.presence (by omega) (by omega)
    (Unpacker.prefix_left hbits)
  have hbody1 : Part.bodies true (Descriptor.parts fields entries) <+: r1.view.toList := by
    have hlist : r1.view.toList = _ := LawfulBitSource.ahead_of_moved hadv1.view
    rw [hlist, ← hparts]
    exact Unpacker.prefix_left (Unpacker.prefix_drop hbits)
  rw [Part.marks, List.flatMap_append, hparts] at hs1
  cases fields with
  | nil => exact absurd rfl hne
  | cons field fields =>
    cases entries with
    | nil => cases hlen
    | cons entry entries =>
      have hreach := reachSlot_openExtensions field.optional hb.presence hb.rule hb.standardLeft
        (by rw [hb.extensions]; exact he) hopen
      obtain ⟨r2, p2, hm2, hpass2, hs2, hadv2⟩ := readsEntries_cons (h field (List.mem_cons_self ..)) hreach hb.claimed hs1
        (ho1.awaits _) (hx.advanced hadv1) hbody1 fun r2 p2 ha2 hs2 he2 hbody2 =>
          readsEntries fields (fun f hf => h f (List.mem_cons_of_mem _ hf)) entries _ r2 p2 (Nat.succ.inj hlen) ha2 hs2 he2
            hbody2
      refine ⟨r2, p2, WholeNumber.smallForm ((Part.marks true (parts ++ later)).length - 1) ++
        Part.marks true (parts ++ later) ++ Part.bodies true parts, hm2, ?_, ho1.passed hpass2, hs2, ?_⟩
      · rw [List.length_append, hparts]
        rw [hparts] at hadv1
        exact hadv1.trans hadv2
      · rw [hblock, ← hml, List.append_assoc _ (Part.bodies true parts)]

/-- The extension fields that are known come from the block, or are absent. -/
theorem Behind.reads {fields : List (Field Descriptor)} {entries : List (Option Value)} (later : List Part)
    {r : Reader} {p : Presence} {extensions : Nat} (hb : Behind r p extensions) (he : extensions ≠ 0)
    (h : ∀ field ∈ fields, ReadBack field.type) (hlen : entries.length = fields.length) (hne : fields ≠ [])
    (hlt : fields.length + later.length < 2 ^ 64)
    (hm : r.marker = Part.anyPresent (Descriptor.parts fields entries ++ later)) (hx : ExpectsAll true fields entries r)
    (hbits : Part.optionalBlock (Descriptor.parts fields entries ++ later) <+: r.view.toList) :
    ∃ r' p' done rest, Descriptor.readFields fields r = .ok (Value.tidyList entries) r' ∧ r.Advanced done.length r' ∧
      p'.Opened ∧ Holds r' p' (Part.marks true rest) ∧
      Part.optionalBlock (Descriptor.parts fields entries ++ later) = done ++ Part.bodies true rest ∧
      (later = [] → rest = []) := by
  unfold Part.optionalBlock at hbits ⊢
  cases hany : Part.anyPresent (Descriptor.parts fields entries ++ later) with
  | true =>
    rw [hany, if_pos rfl] at hbits
    obtain ⟨r', p', done, hr, hadv, ho, hs, hdone⟩ := hb.readsEntries_marked he h hlen hne hlt (hm.trans hany) hx hbits
    exact ⟨r', p', done, later, hr, hadv, ho, hs, hdone, id⟩
  | false =>
    have hnone : Part.anyPresent (Descriptor.parts fields entries) = false := by
      rw [Part.anyPresent, List.any_append, Bool.or_eq_false_iff] at hany
      exact hany.1
    obtain ⟨hopt, habsent⟩ := Descriptor.absent_of_not_anyPresent hx.conforms hnone
    obtain ⟨r', p', hend, hadv⟩ := hb.ended he (hm.trans hany)
    refine ⟨r', p', [], [], ?_, hadv, hend.exhausted.opened, hend.exhausted.holds, rfl, fun _ => rfl⟩
    rw [hend.readFields_optional (fun hnil => absurd hnil hne) hopt, habsent, Value.tidyList_eq_map, List.map_map]
    rfl

/-! ## Closing -/

/-- An extension is skipped if it is there. -/
theorem takes_skipPart (part : Part) (r : Reader) :
    Takes r (if part.content.isSome then do
        note .verbose fun () => "skipping unknown extension"
        OpenType.skip
      else pure ()) (part.body true) () := by
  rw [Part.body]
  cases part.content with
  | none => exact Unpacker.takes_pure r ()
  | some bits =>
    rw [if_pos Option.isSome_some]
    exact (takes_note r .verbose _).bind fun r1 _ => OpenType.takes_skip r1 bits

/-- The extensions that no field asked for are skipped, as their presence bits tell. -/
theorem takes_skipExtensions (rest : List Part) (position : Nat) (r : Reader)
    (hbits : Octets.bitsFrom r.view.data position rest.length = Part.marks true rest)
    (hin : rest ≠ [] → position + rest.length ≤ r.view.stop) :
    Takes r (skipExtensions position rest.length) (Part.bodies true rest) () := by
  induction rest generalizing position r with
  | nil => exact Unpacker.takes_pure r ()
  | cons part rest ih =>
    have hle := hin (List.cons_ne_nil _ _)
    rw [List.length_cons] at hle hbits
    rw [Nat.add_comm rest.length 1, Octets.bitsFrom_add, Octets.bitsFrom_one] at hbits
    obtain ⟨hbit, hrest⟩ := List.cons.inj (hbits : _ = part.content.isSome :: Part.marks true rest)
    have hpeek : peek position r = .ok part.content.isSome r := by
      simp only [peek, BitView.peek, if_pos (show position < r.view.stop by omega), hbit]
    -- what is skipped leaves the presence bits behind it where they are
    have hnext : ∀ n r', Moved r n r' →
        Takes r' (skipExtensions (position + 1) rest.length) (Part.bodies true rest) () := by
      rintro n r' ⟨⟨⟨hview, -⟩, -⟩, -⟩
      refine ih (position + 1) r' ?_ fun _ => ?_
      · rw [hview]
        exact hrest
      · rw [hview]
        show position + 1 + rest.length ≤ r.view.stop
        omega
    have hrun : skipExtensions position (rest.length + 1) r = ((if part.content.isSome then do
        note .verbose fun () => "skipping unknown extension"
        OpenType.skip
      else pure ()) >>= fun _ => skipExtensions (position + 1) rest.length) r := by
      simp only [skipExtensions, run_bind, hpeek]
      cases part.content.isSome <;> rfl
    intro hp
    obtain ⟨r', hr, hmoved⟩ := (takes_skipPart part r).bind (f := fun _ => skipExtensions (position + 1) rest.length)
      (hnext _) hp
    exact ⟨r', hrun.trans hr, hmoved⟩

/-- What is left of an extension block is skipped. -/
theorem takes_skipRest {r : Reader} {p : Presence} (rest : List Part) (ho : p.Opened)
    (hs : Holds r p (Part.marks true rest)) : Takes r skipRest (Part.bodies true rest) () := by
  have hlen := Part.length_marks_true rest
  have hbits := hs.bits
  have hstop := hs.stop
  rw [hlen] at hbits hstop
  have hrun : skipRest r = skipExtensions p.ahead.start rest.length r := by
    have hcount : p.ahead.stop - p.ahead.start = rest.length := by omega
    simp only [skipRest, run_bind, run_get, hs.presence, if_pos ho.header, hcount]
  intro hp
  obtain ⟨r', hr, hmoved⟩ := takes_skipExtensions rest p.ahead.start r hbits (fun hne => by
    have hpos := List.length_pos_iff.mpr hne
    have hcov := hs.covered (by omega)
    omega) hp
  exact ⟨r', hrun.trans hr, hmoved⟩

/-- An extension block that was looked for is left behind the extensions that no field asked for. -/
theorem takes_closeSequence {r : Reader} {p : Presence} (rest : List Part) (ho : p.Opened)
    (hs : Holds r p (Part.marks true rest)) : Takes r closeSequence (Part.bodies true rest) () := by
  have hrule : p.rule ≠ .standardFields := by
    rw [ho.rule]
    decide
  have hrun : closeSequence r = skipRest r := by
    simp only [closeSequence, run_bind, run_get, hs.presence, if_neg hrule]
  intro hp
  obtain ⟨r', hr, hmoved⟩ := takes_skipRest rest ho hs hp
  exact ⟨r', hrun.trans hr, hmoved⟩

/-- An extension block that no field asked for is opened at the end and skipped as a whole. -/
theorem Behind.closes {r : Reader} {p : Presence} {extensions : Nat} (hb : Behind r p extensions) (rest : List Part)
    (hlt : rest.length < 2 ^ 64) (hm : r.marker = Part.anyPresent rest) (hbits : Part.optionalBlock rest <+: r.view.toList) :
    ∃ r', closeSequence r = .ok () r' ∧ r.Advanced (Part.optionalBlock rest).length r' := by
  unfold Part.optionalBlock at hbits ⊢
  cases hany : Part.anyPresent rest with
  | false =>
    refine ⟨r, ?_, Advanced.refl r⟩
    simp only [closeSequence, run_bind, run_get, hb.presence, if_pos hb.rule, hm, hany, Bool.false_eq_true, false_and,
      if_false, run_pure]
  | true =>
    have hmark := Part.length_marks_true rest
    have hpos : 0 < rest.length := List.length_pos_iff.mpr fun hnil => by
      rw [hnil] at hany
      cases hany
    rw [hany, if_pos rfl, Part.block, ← hmark] at hbits
    obtain ⟨r1, p1, hopen, hadv1, ho1, hs1⟩ := openExtensions_marked (hm.trans hany) hb.claimed hb.presence (by omega)
      (by omega) (Unpacker.prefix_left hbits)
    have hbits1 : Part.bodies true rest <+: r1.view.toList := by
      have hlist : r1.view.toList = _ := LawfulBitSource.ahead_of_moved hadv1.view
      rw [hlist]
      exact Unpacker.prefix_drop hbits
    obtain ⟨r2, hskip, hmoved⟩ := takes_skipRest rest ho1 hs1 hbits1
    refine ⟨r2, ?_, ?_⟩
    · simp only [closeSequence, run_bind, run_get, hb.presence, if_pos hb.rule, hm, hany, hb.standardLeft, and_self,
        if_true, hopen, hskip]
    · rw [if_pos rfl, Part.block, ← hmark, List.length_append]
      exact hadv1.trans hmoved.1

/-- Where nothing was read behind the standard fields there is nothing to skip if no extension block was announced. -/
theorem closeSequence_of_unmarked {r : Reader} {p : Presence} (hp : r.presence = some p) (hh : p.header = none)
    (h : p.rule = .standardFields → r.marker = false) : closeSequence r = .ok () r := by
  by_cases hr : p.rule = .standardFields
  · simp only [closeSequence, run_bind, run_get, hp, hr, h hr, if_true, Bool.false_eq_true, false_and, if_false, run_pure]
  · simp only [closeSequence, run_bind, run_get, hp, if_neg hr, skipRest, hh]
    rfl

end Reader

end UnalignedPer
