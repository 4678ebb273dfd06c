import UnalignedPer.Proofs.Message.WritingEntries

/-!
# Writing sequences

A sequence has up to two stretches of fields. The extension block is opened when its first field comes, before it is known
whether any extension is present, and the extension marker is set at the end, or the block is dropped. What stays is
`Part.form`.
-/

namespace UnalignedPer

namespace Writer

open Packer (Writes WritesIf Fails Wrote)

/-! ## Opening and closing -/

/-- The extension block starts with the number of its fields and a zero bit for each, which its fields are to take. -/
theorem openExtensions_run {w : Writer} {p : Presence} (hp : w.presence = some p) :
    let header := WholeNumber.smallForm (UInt64.ofNat (p.extensions - 1)).toNat
    let start := w.buffer.writePosition + header.length
    ∃ w', openExtensions w = .ok () w' ∧ w.Keeps w' ∧
      w.buffer.Adds (header ++ List.replicate p.extensions false) w'.buffer ∧
      w'.presence = some (p.enterExtensions w.buffer.writePosition ⟨start, start + p.extensions⟩ false) := by
  intro header start
  obtain ⟨w1, hm1, hw1⟩ := WholeNumber.writes_packSmall w (UInt64.ofNat (p.extensions - 1))
  obtain ⟨w2, hm2, hw2⟩ := Packer.writes_zeros w1 p.extensions
  have hw := hw1.trans hw2
  have hp2 : w2.presence = some p := hw.2.2.trans hp
  have hstart : w1.buffer.writePosition = start := hw1.1.writePosition
  obtain ⟨w3, hw3⟩ : ∃ w3 : Writer, w3 = { w2 with
    presence := some (p.enterExtensions w.buffer.writePosition ⟨start, start + p.extensions⟩ false) } := ⟨_, rfl⟩
  have hnote := wrote_noted .verbose (fun () => "extension block with " ++ toString p.extensions ++ " presence bits") w3
  have hadds : w3.buffer.Adds [] (noted .verbose
    (fun () => "extension block with " ++ toString p.extensions ++ " presence bits") w3).buffer := hnote.1
  refine ⟨noted .verbose (fun () => "extension block with " ++ toString p.extensions ++ " presence bits") w3, ?_, ?_, ?_, ?_⟩
  · simp only [openExtensions, Packer.position, BitSink.buffer, run_map, run_bind, run_get, hp, Option.map_some,
      Option.getD_some, hm1, hm2]
    rw [hw3, ← hstart]
    simp only [run_modify, hp2, Option.map_some, note]
  · refine Keeps.trans ?_ hnote.2.1
    rw [hw3]
    exact ⟨hw.2.1.claimed, hw.2.1.depth, hw.2.1.settings, hw.2.1.steps⟩
  · have hb : w3.buffer = w2.buffer := by rw [hw3]
    rw [hb] at hadds
    have hall := (show w.buffer.Adds _ w2.buffer from hw.1).trans hadds
    rw [List.append_nil] at hall
    exact hall
  · rw [hnote.2.2, hw3]

/-- So the fields of the block have their stretch. -/
theorem openExtensions_eq {w : Writer} {p : Presence} (hr : w.Ready) (hp : w.presence = some p)
    (he : 0 < p.extensions) (hlt : p.extensions < 2 ^ 64) :
    ∃ w' p', openExtensions w = .ok () w' ∧ w.Keeps w' ∧ p'.rule = .everyField ∧
      p'.header = some w.buffer.writePosition ∧ p'.first = p'.ahead.start ∧
      Stretch w' p' (w.buffer.toList ++ WholeNumber.smallForm (p.extensions - 1)) p.extensions [] := by
  have hcount : (UInt64.ofNat (p.extensions - 1)).toNat = p.extensions - 1 := by
    rw [UInt64.toNat_ofNat']
    omega
  obtain ⟨w', hm, hk, hadds, hp'⟩ := openExtensions_run hp
  rw [hcount] at hadds hp'
  have hstart : w.buffer.writePosition + (WholeNumber.smallForm (p.extensions - 1)).length =
      (w.buffer.toList ++ WholeNumber.smallForm (p.extensions - 1)).length := by
    rw [List.length_append, BitBuffer.length_toList]
  refine ⟨w', _, hm, hk, rfl, rfl, rfl, ⟨hadds.clean hr.clean, ?_, ?_, ?_⟩, hp', ?_, hstart, ?_⟩
  · exact hk.claimed.trans hr.claimed
  · rw [hk.depth, hk.settings]
    exact hr.depth
  · exact hadds.readPosition.trans hr.unread
  · rw [hadds.toList, List.append_nil, List.append_assoc]
  · exact congrArg (· + p.extensions) hstart

/-- Behind the standard fields the first extension field opens the extension block. -/
theorem reachSlot_openExtensions {w w' : Writer} {p : Presence} (optional : Bool) (hp : w.presence = some p)
    (hr : p.rule = .standardFields) (hs : p.standardLeft = 0) (he : p.extensions ≠ 0)
    (ho : openExtensions w = .ok () w') : reachSlot optional w = visitSlot optional w' := by
  have hv := Presence.visit_openExtensions optional hr hs he
  have hw : visitSlot optional w = .ok .openExtensions w := by
    simp only [visitSlot, hp, hv]
    rw [← hp]
  simp only [reachSlot, run_bind, hw, ho]

/-- The extension fields open the extension block and are written into it. -/
theorem writes_extensions {fields : List (Field Descriptor)} {entries : List (Option Value)} {w : Writer} {p : Presence}
    (h : ∀ field ∈ fields, Written field.type) (hlen : entries.length = fields.length) (hne : fields ≠ [])
    (hlt : fields.length < 2 ^ 64) (hr : w.Ready) (hp : w.presence = some p) (hrule : p.rule = .standardFields)
    (hs : p.standardLeft = 0) (he : p.extensions = fields.length) :
    ∃ w' p', w.Keeps w' ∧ p'.header = some w.buffer.writePosition ∧ p'.first = p'.ahead.start ∧
      p'.ahead.start = (w.buffer.toList ++ WholeNumber.smallForm (fields.length - 1)).length ∧
      WritesEntries true fields entries w w' p' (w.buffer.toList ++ WholeNumber.smallForm (fields.length - 1)) [] := by
  have hpos : 0 < fields.length := List.length_pos_iff.mpr hne
  obtain ⟨w', p', hm, hk, hrule', hheader, hfirst, hst⟩ := openExtensions_eq hr hp (by omega) (by omega)
  rw [he] at hst
  refine ⟨w', p', hk, hheader, hfirst, hst.start, ?_⟩
  cases fields with
  | nil => exact absurd rfl hne
  | cons field fields =>
    cases entries with
    | nil => cases hlen
    | cons entry entries =>
      have hlen' : entries.length = fields.length := Nat.succ.inj hlen
      have hreach := reachSlot_openExtensions field.optional hp hrule hs (by omega) hm
      have ha := Presence.awaits_everyField hrule'
      refine writesEntries_cons (h field (List.mem_cons_self ..)) hreach hr.claimed ?_ (ha _) ?_
      · rw [Part.length_marks_true, Descriptor.length_parts hlen]
        exact hst
      · intro w2 p2 front2 back2 ha2 hs2
        exact writesEntries fields (fun f hf => h f (List.mem_cons_of_mem _ hf)) entries w2 p2 front2 back2 hlen' ha2 hs2

/-! ## Closing -/

/-- Without an extension block nothing is left to do at the end. -/
theorem closeSequence_of_none {w : Writer} {p : Presence} (marker : Option Nat) (hp : w.presence = some p)
    (hh : p.header = none) : closeSequence marker w = .ok () w := by
  cases marker with
  | none => simp only [closeSequence, run_bind, run_get, run_pure]
  | some marker =>
    simp only [closeSequence, run_bind, run_get, hp, hh, run_pure]

/-- The writer is done with a sequence and holds some bits. -/
structure Closed (w w' : Writer) (bits : List Bool) : Prop where
  /-- Only bits, presence and trace have changed. -/
  keeps : w.Keeps w'
  /-- Nothing is set past the written bits. -/
  clean : w'.buffer.Clean
  /-- No bit was read. -/
  unread : w'.buffer.readPosition = 0
  /-- The bits. -/
  list : w'.buffer.toList = bits

/-- The presence bits of the extension block, as they are looked at in the end. -/
theorem Stretch.anyBit {w : Writer} {p : Presence} {front marks back : List Bool} (hs : Stretch w p (front ++ marks) 0 back)
    (hfirst : p.first = front.length) :
    Octets.anyBit w.buffer.storage p.reserved.start (p.reserved.stop - p.reserved.start) = marks.any id := by
  have hlist : w.buffer.toList = front ++ marks ++ back := by
    rw [hs.list, List.replicate_zero, List.nil_append]
  have hwp := congrArg List.length hlist
  rw [BitBuffer.length_toList, List.length_append, List.length_append] at hwp
  have hmarks : Octets.bitsFrom w.buffer.storage front.length marks.length = marks := by
    have hd := Octets.drop_bitsFrom w.buffer.storage 0 w.buffer.writePosition front.length
    have ht := Octets.take_bitsFrom w.buffer.storage (0 + front.length) (w.buffer.writePosition - front.length) marks.length
    rw [← hd, Nat.min_eq_left (by omega), Nat.zero_add] at ht
    rw [← ht]
    have hl : Octets.bitsFrom w.buffer.storage 0 w.buffer.writePosition = front ++ marks ++ back := hlist
    rw [hl, List.append_assoc, List.drop_left, List.take_left]
  have hreserved : p.reserved = ⟨front.length, front.length + marks.length⟩ := by
    rw [Presence.reserved, hfirst, hs.stop, List.length_append, Nat.add_zero]
  rw [hreserved, Octets.anyBit_eq, Nat.add_sub_cancel_left, hmarks]

/-- At the end the extension block stays if a presence bit of it is set, and the marker is set then; otherwise nothing of it
is left. -/
theorem closeSequence_of_some {w : Writer} {p : Presence} {base head marks bodies : List Bool} {marker : Nat}
    (hs : Stretch w p (base ++ head ++ marks) 0 bodies) (hne : head ≠ []) (hh : p.header = some base.length)
    (hfirst : p.first = (base ++ head).length) (hmarker : marker < base.length) :
    ∃ w', closeSequence (some marker) w = .ok () w' ∧
      Closed w w' (if marks.any id then base.set marker true ++ (head ++ marks ++ bodies) else base) := by
  have hlist : w.buffer.toList = base ++ head ++ marks ++ bodies := by
    rw [hs.list, List.replicate_zero, List.nil_append]
  have hany := hs.anyBit hfirst
  have hbase : base.length < w.buffer.writePosition := by
    have hpos := List.length_pos_iff.mpr hne
    have hwp := congrArg List.length hlist
    rw [BitBuffer.length_toList, List.length_append, List.length_append, List.length_append] at hwp
    omega
  cases hm : marks.any id with
  | true =>
    rw [hm] at hany
    rw [if_pos rfl]
    refine ⟨{ w with buffer := w.buffer.put marker true }, ?_, ⟨rfl, rfl, rfl, rfl⟩, ?_, hs.ready.unread, ?_⟩
    · simp only [closeSequence, run_bind, run_get, hs.presence, hh, hany, if_true, Packer.overwrite, BitSink.buffer,
        if_pos (Nat.lt_trans hmarker hbase)]
      rw [← hs.presence]
      rfl
    · exact BitBuffer.clean_put true hs.ready.clean (Nat.lt_trans hmarker hbase)
    · show (w.buffer.put marker true).toList = _
      rw [BitBuffer.toList_put _ _ _ hs.ready.clean, hlist, List.append_assoc, List.append_assoc,
        List.set_append_left _ _ hmarker, List.append_assoc]
  | false =>
    rw [hm] at hany
    rw [if_neg Bool.false_ne_true]
    obtain ⟨w2, hw2⟩ : ∃ w2 : Writer, w2 = { w with buffer := w.buffer.truncate base.length } := ⟨_, rfl⟩
    have hnote := wrote_noted .verbose (fun () => "extension block dropped") w2
    have hb2 : w2.buffer = w.buffer.truncate base.length := by rw [hw2]
    have hclean2 : w2.buffer.Clean := by
      rw [hb2]
      exact BitBuffer.clean_truncate hs.ready.clean hbase
    refine ⟨noted .verbose (fun () => "extension block dropped") w2, ?_, ?_, hnote.1.clean hclean2, ?_, ?_⟩
    · simp only [closeSequence, run_bind, run_get, hs.presence, hh, hany, if_neg Bool.false_ne_true, Packer.modifyBuffer,
        BitSink.buffer, BitSink.withBuffer, note]
      rw [hw2, ← hs.presence]
      rfl
    · refine Keeps.trans ?_ hnote.2.1
      rw [hw2]
      exact ⟨rfl, rfl, rfl, rfl⟩
    · refine hnote.1.readPosition.trans ?_
      show w2.buffer.readPosition = 0
      rw [hb2, BitBuffer.truncate, if_pos hbase]
      show min w.buffer.readPosition base.length = 0
      rw [hs.ready.unread, Nat.zero_min]
    · have hl : (noted .verbose (fun () => "extension block dropped") w2).buffer.toList = w2.buffer.toList ++ [] :=
        hnote.1.toList
      rw [hl, List.append_nil, hb2, BitBuffer.toList_truncate _ _ hbase, hlist, List.append_assoc, List.append_assoc,
        List.take_left]

/-! ## The whole sequence -/

/-- The bits reserved in front of the fields: the extension marker and the presence bits of the standard fields. -/
def reservedBits (c : Constraint) : List Bool :=
  (if c.extensible then [false] else []) ++ List.replicate c.optionalFields false

/-- The marker and the presence bits are reserved as zeros. -/
theorem writes_reserve (w : Writer) (c : Constraint) :
    Writes w (reserve c) (reservedBits c)
      (if c.extensible then some w.buffer.writePosition else none,
        Presence.opening c (w.buffer.writePosition + c.extensible.toNat)) := by
  unfold reserve reservedBits Presence.opening
  cases he : c.extensible with
  | false =>
    simp only [if_neg Bool.false_ne_true]
    refine (Packer.writes_pure w _).bind fun w1 hw1 => ?_
    have hpos : w1.buffer.writePosition = w.buffer.writePosition := hw1.1.writePosition
    refine (Packer.writes_position w1).bind fun w2 _ => ?_
    rw [← List.append_nil (List.replicate _ _)]
    refine (Packer.writes_zeros w2 _).bind fun w3 _ => ?_
    show Writes w3 (pure (none, Presence.ofOptional
      ⟨w1.buffer.writePosition, w1.buffer.writePosition + c.optionalFields⟩)) [] _
    rw [hpos]
    exact Packer.writes_pure w3 _
  | true =>
    simp only [if_true]
    refine (Packer.writes_position w).bind fun w0 hw0 => ?_
    refine (Packer.writes_bit w0 false).bind fun w' hw' => ?_
    refine (Packer.writes_pure w' _).bind fun w1 hw1 => ?_
    have hpos : w1.buffer.writePosition = w.buffer.writePosition + 1 := ((hw0.trans hw').trans hw1).1.writePosition
    refine (Packer.writes_position w1).bind fun w2 _ => ?_
    rw [← List.append_nil (List.replicate _ _)]
    refine (Packer.writes_zeros w2 _).bind fun w3 _ => ?_
    show Writes w3 (pure (some w.buffer.writePosition, Presence.ofStandard
      ⟨w1.buffer.writePosition, w1.buffer.writePosition + c.optionalFields⟩ c.standardCount c.extensionCount)) [] _
    rw [hpos]
    exact Packer.writes_pure w3 _

/-- The fields of a sequence are written and it is closed. -/
def WritesAll (marker : Option Nat) (fields : List (Field Descriptor)) (entries : List (Option Value)) (w : Writer)
    (bits : List Bool) : Prop :=
  (Descriptor.fieldsConform fields entries = true ∧ w.depth + Value.nestingList entries ≤ w.settings.maxDepth →
    ∃ w', (Descriptor.writeFields fields entries >>= fun _ => closeSequence marker) w = .ok () w' ∧ Closed w w' bits) ∧
  (¬(Descriptor.fieldsConform fields entries = true ∧ w.depth + Value.nestingList entries ≤ w.settings.maxDepth) →
    Fails w (Descriptor.writeFields fields entries >>= fun _ => closeSequence marker))

/-- A sequence without extension fields. -/
theorem writesAll_standard {fields : List (Field Descriptor)} {entries : List (Option Value)} {w : Writer} {p : Presence}
    {base : List Bool} {extensible : Bool} (marker : Option Nat) (h : ∀ field ∈ fields, Written field.type)
    (hlen : entries.length = fields.length) (ha : p.Awaits false fields.length) (hh : p.header = none)
    (hs : Stretch w p (base ++ if extensible then [false] else [])
      (Part.marks false (Descriptor.parts fields entries)).length []) :
    WritesAll marker fields entries w (base ++ Part.form extensible (Descriptor.parts fields entries) []) := by
  obtain ⟨hok, hfail⟩ := writesEntries fields h entries w p _ [] hlen ha hs
  refine ⟨fun hc => ?_, fun hn => (hfail hn).bind _⟩
  obtain ⟨w2, p2, hm, hpass, hs2, hk⟩ := hok hc
  have hclose := closeSequence_of_none marker hs2.presence (hpass.header.trans hh)
  refine ⟨w2, by simp only [run_bind, hm, hclose], hk, hs2.ready.clean, hs2.ready.unread, ?_⟩
  rw [hs2.list, List.replicate_zero, List.nil_append, List.nil_append, Part.form]
  have hany : Part.anyPresent [] = false := rfl
  rw [hany, if_neg Bool.false_ne_true, List.append_nil, List.append_assoc, List.append_assoc, List.append_assoc]

/-- Closing behind the extension fields leaves the form of the sequence. -/
theorem closeSequence_form {w : Writer} {p : Presence} {base front : List Bool} {standard extensions : List Part}
    (hfront : front = base ++ [false] ++ Part.marks false standard ++ Part.bodies false standard)
    (hs : Stretch w p (front ++ WholeNumber.smallForm (extensions.length - 1) ++ Part.marks true extensions) 0
      (Part.bodies true extensions))
    (hheader : p.header = some front.length)
    (hfirst : p.first = (front ++ WholeNumber.smallForm (extensions.length - 1)).length) :
    ∃ w', closeSequence (some base.length) w = .ok () w' ∧ Closed w w' (base ++ Part.form true standard extensions) := by
  have hhead : WholeNumber.smallForm (extensions.length - 1) ≠ [] := by
    unfold WholeNumber.smallForm
    split <;> exact List.cons_ne_nil _ _
  have hmarker : base.length < front.length := by
    rw [hfront, List.length_append, List.length_append, List.length_append, List.length_singleton]
    omega
  obtain ⟨w', hm, hclosed⟩ := closeSequence_of_some hs hhead hheader hfirst hmarker
  rw [Part.any_marks_true, hfront] at hclosed
  refine ⟨w', hm, ?_⟩
  rw [Part.form]
  cases hany : Part.anyPresent extensions with
  | true =>
    rw [hany, if_pos rfl] at hclosed
    simp only [List.append_assoc] at hclosed
    rw [List.set_append_right _ _ (Nat.le_refl _), Nat.sub_self, List.singleton_append, List.set_cons_zero] at hclosed
    rw [if_pos rfl, if_pos rfl, Part.block]
    simp only [List.append_assoc, List.cons_append, List.nil_append] at hclosed ⊢
    exact hclosed
  | false =>
    rw [hany, if_neg Bool.false_ne_true] at hclosed
    rw [if_pos rfl, if_neg Bool.false_ne_true, List.append_nil]
    simp only [List.append_assoc] at hclosed ⊢
    exact hclosed

/-- A sequence with extension fields. -/
theorem writesAll_extensible {fields extensions : List (Field Descriptor)} {entries added : List (Option Value)} {w : Writer}
    {p : Presence} {base : List Bool} (h : ∀ field ∈ fields, Written field.type)
    (h' : ∀ field ∈ extensions, Written field.type) (hlen : entries.length = fields.length)
    (hlen' : added.length = extensions.length) (hne : extensions ≠ []) (hlt : extensions.length < 2 ^ 64)
    (hrule : p.rule = .standardFields) (hleft : p.standardLeft = fields.length) (he : p.extensions = extensions.length)
    (hs : Stretch w p (base ++ [false]) (Part.marks false (Descriptor.parts fields entries)).length []) :
    WritesAll (some base.length) (fields ++ extensions) (entries ++ added) w
      (base ++ Part.form true (Descriptor.parts fields entries) (Descriptor.parts extensions added)) := by
  have ha : p.Awaits false fields.length := by
    unfold Presence.Awaits
    rw [if_neg Bool.false_ne_true]
    exact Or.inr ⟨hrule, Nat.le_of_eq hleft.symm⟩
  obtain ⟨hok, hfail⟩ := writesEntries fields h entries w p _ [] hlen ha hs
  unfold WritesAll
  rw [fit_append extensions added hlen, writeFields_append fields extensions added hlen, bind_assoc]
  by_cases h1 : Descriptor.fieldsConform fields entries = true ∧
      w.depth + Value.nestingList entries ≤ w.settings.maxDepth
  · obtain ⟨w2, p2, hm, hpass, hs2, hk⟩ := hok h1
    have hleft2 : p2.standardLeft = 0 := by
      rw [hpass.standardLeft hrule, hleft, Nat.sub_self]
    obtain ⟨w3, p3, hk3, hheader, hfirst, hstart, hext⟩ := writes_extensions h' hlen' hne hlt hs2.ready hs2.presence
      (hpass.rule.trans hrule) hleft2 (hpass.extensions.trans he)
    have hlist := hs2.list
    rw [List.replicate_zero, List.nil_append, List.nil_append] at hlist
    rw [← Descriptor.length_parts hlen'] at hext hstart
    unfold WritesEntries at hext
    rw [hk3.depth, hk3.settings, hk.depth, hk.settings] at hext
    refine ⟨fun hc => ?_, fun hn => ?_⟩
    · obtain ⟨w4, p4, hm4, hpass4, hs4, hk4⟩ := hext.1 hc.2
      have hwp : w2.buffer.writePosition = w2.buffer.toList.length := (BitBuffer.length_toList _).symm
      rw [List.nil_append] at hs4
      obtain ⟨w5, hm5, hclosed⟩ := closeSequence_form hlist hs4 (by rw [hpass4.header, hheader, hwp])
        (by rw [hpass4.first, hfirst, hstart])
      exact ⟨w5, by simp only [run_bind, hm, hm4, hm5], ((hk.trans hk3).trans hk4).trans hclosed.keeps,
        hclosed.clean, hclosed.unread, hclosed.list⟩
    · obtain ⟨fault, w4, hm4⟩ := hext.2 fun h2 => hn ⟨h1, h2⟩
      exact ⟨fault, w4, by simp only [run_bind, hm, hm4]⟩
  · exact ⟨fun hc => absurd hc.1 h1, fun _ => (hfail h1).bind _⟩

/-- Once its bits are reserved, a sequence stands before the stretch of its standard fields. -/
theorem exists_stretch {name : String} {fields root extensions : List (Field Descriptor)} {standard : Option Nat}
    {given : List (Option Value)} {w : Writer} {base : List Bool}
    (hv : Descriptor.Halves name fields standard root extensions) (hgiven : given.length = root.length) (hr : w.Ready)
    (hp : w.presence = some (Presence.opening (Descriptor.sequence name fields standard).constraint
      (base.length + standard.isSome.toNat)))
    (hlist : w.buffer.toList = base ++ reservedBits (Descriptor.sequence name fields standard).constraint) :
    ∃ p, Stretch w p (base ++ if standard.isSome then [false] else [])
        (Part.marks false (Descriptor.parts root given)).length [] ∧
      p.header = none ∧ p.Awaits false root.length ∧
      (extensions ≠ [] → standard.isSome = true ∧ p.rule = .standardFields ∧ p.standardLeft = root.length ∧
        p.extensions = extensions.length) := by
  have hext : (Descriptor.sequence name fields standard).constraint.extensible = standard.isSome := rfl
  unfold Presence.opening at hp
  unfold reservedBits at hlist
  rw [hext, hv.optionalFields, ← Descriptor.length_marks_false hgiven] at hp hlist
  rw [hv.standardCount, hv.extensionCount] at hp
  cases standard with
  | none =>
    refine ⟨_, ⟨hr, hp, ?_, ?_, ?_⟩, rfl, .inl rfl, fun hne => absurd (hv.closed rfl) hne⟩
    · rw [hlist]; simp
    · simp [Presence.ofOptional]
    · simp [Presence.ofOptional]
  | some n =>
    refine ⟨_, ⟨hr, hp, ?_, ?_, ?_⟩, rfl, .inr ⟨rfl, Nat.le_refl _⟩, fun _ => ⟨rfl, rfl, rfl, rfl⟩⟩
    · rw [hlist]; simp
    · simp [Presence.ofStandard]
    · simp [Presence.ofStandard]

/-- The fields of a sequence, written from the bits reserved for them on. -/
theorem writesAll_sequence {name : String} {fields : List (Field Descriptor)} {standard : Option Nat}
    {entries : List (Option Value)} {w : Writer} {base : List Bool} (h : ∀ field ∈ fields, Written field.type)
    (hlen : entries.length = fields.length) (hlt : fields.length < 2 ^ 64) (hr : w.Ready)
    (hp : w.presence = some (Presence.opening (Descriptor.sequence name fields standard).constraint
      (base.length + standard.isSome.toNat)))
    (hlist : w.buffer.toList = base ++ reservedBits (Descriptor.sequence name fields standard).constraint) :
    WritesAll (if standard.isSome then some base.length else none) fields entries w
      (base ++ (Descriptor.sequence name fields standard).bits (.sequence entries)) := by
  obtain ⟨root, extensions, given, added, hv, rfl, hgiven, hadded⟩ := Descriptor.exists_halves name standard hlen
  obtain ⟨p, hs, hheader, ha, hext⟩ := exists_stretch hv hgiven hr hp hlist
  have hroot : ∀ field ∈ root, Written field.type := fun f hf => h f (by rw [hv.all]; exact List.mem_append_left _ hf)
  have hexts : ∀ field ∈ extensions, Written field.type := fun f hf =>
    h f (by rw [hv.all]; exact List.mem_append_right _ hf)
  have hfl : fields.length = root.length + extensions.length := by rw [hv.all, List.length_append]
  rw [Descriptor.bits_sequence hv hgiven, hv.all]
  by_cases hne : extensions = []
  · subst hne
    obtain rfl : added = [] := List.eq_nil_of_length_eq_zero hadded
    rw [List.append_nil, List.append_nil]
    exact writesAll_standard _ hroot hgiven ha hheader hs
  · obtain ⟨hsome, hrule, hleft, hcount⟩ := hext hne
    simp only [hsome, if_true] at hs ⊢
    exact writesAll_extensible hroot hexts hgiven hadded hne (by omega) hrule hleft hcount hs

/-- A SEQUENCE is written when its entries conform to the fields. -/
theorem writesField_sequence {name : String} {fields : List (Field Descriptor)} {standard : Option Nat}
    {entries : List (Option Value)} (h : ∀ field ∈ fields, Written field.type) (hlen : entries.length = fields.length)
    (hlt : fields.length < 2 ^ 64) :
    WritesField (sequence (Descriptor.sequence name fields standard).constraint (Descriptor.writeFields fields entries))
      (Descriptor.fieldsConform fields entries = true) (Value.nestingList entries + 1)
      ((Descriptor.sequence name fields standard).bits (.sequence entries)) := by
  refine writesField_container fun w hr => ?_
  obtain ⟨c, hc⟩ : ∃ c, c = (Descriptor.sequence name fields standard).constraint := ⟨_, rfl⟩
  have hext : c.extensible = standard.isSome := by rw [hc]; rfl
  rw [← hc]
  refine (writes_note w .basic _).bind_writesIf fun w0 hw0 => ?_
  have hr0 := hr.wrote hw0
  rw [← hw0.2.1.depth, ← hw0.2.1.settings]
  obtain ⟨w1, hm1, hw1⟩ := writes_reserve w0 c
  have hr1 := hr0.wrote hw1
  obtain ⟨p, hp⟩ : ∃ p, p = Presence.opening c (w0.buffer.writePosition + c.extensible.toNat) := ⟨_, rfl⟩
  rw [← hp] at hm1
  have hwp : w0.buffer.writePosition = w0.buffer.toList.length := (BitBuffer.length_toList _).symm
  obtain ⟨w1', hw1'⟩ : ∃ w1' : Writer, w1' = { w1 with presence := some p } := ⟨_, rfl⟩
  have hall : WritesAll (if c.extensible then some w0.buffer.writePosition else none) fields entries w1'
      (w0.buffer.toList ++ (Descriptor.sequence name fields standard).bits (.sequence entries)) := by
    rw [hext, hwp, hw1']
    refine writesAll_sequence h hlen hlt ⟨hr1.clean, hr1.claimed, hr1.depth, hr1.unread⟩ ?_ ?_
    · rw [hp, hwp, hext, hc]
    · rw [← hc]
      exact hw1.1.toList
  have hk : w0.Keeps w1' := by
    rw [hw1']
    exact ⟨hw1.2.1.claimed, hw1.2.1.depth, hw1.2.1.settings, hw1.2.1.steps⟩
  unfold WritesAll at hall
  rw [hk.depth, hk.settings] at hall
  obtain ⟨hok, hfail⟩ := hall
  refine ⟨fun hcond => ?_, fun hn => ?_⟩
  · obtain ⟨w2, hm2, hclosed⟩ := hok hcond
    rw [hw1'] at hm2
    simp only [run_bind] at hm2
    obtain ⟨w3, hw3⟩ : ∃ w3, w3 = noted .basic (fun () => "leave " ++ c.text) { w2 with presence := w1.presence } :=
      ⟨_, rfl⟩
    have hb3 : w3.buffer = w2.buffer := by
      rw [hw3]
      exact buffer_noted _ _ _
    have hnote := wrote_noted .basic (fun () => "leave " ++ c.text) { w2 with presence := w1.presence }
    rw [← hw3] at hnote
    refine ⟨w3, ?_, ⟨?_, fun _ => ?_, ?_⟩, ?_, ?_⟩
    · simp only [run_bind, hm1, afterwards, withPresence, hm2]
      rw [hw3]
    · show w3.buffer.toList = _
      rw [hb3, hclosed.list]
      rfl
    · show w3.buffer.Clean
      rw [hb3]
      exact hclosed.clean
    · show w3.buffer.readPosition = w0.buffer.readPosition
      rw [hb3, hclosed.unread, hr0.unread]
    · refine (hk.trans hclosed.keeps).trans (Keeps.trans ?_ hnote.2.1)
      exact ⟨rfl, rfl, rfl, rfl⟩
    · exact hnote.2.2.trans hw1.2.2
  · obtain ⟨fault, w2, hm2⟩ := hfail hn
    rw [hw1'] at hm2
    simp only [run_bind] at hm2
    refine ⟨fault, noted .basic (fun () => "leave " ++ c.text) { w2 with presence := w1.presence }, ?_⟩
    simp only [run_bind, hm1, afterwards, withPresence, hm2]

end Writer

end UnalignedPer
