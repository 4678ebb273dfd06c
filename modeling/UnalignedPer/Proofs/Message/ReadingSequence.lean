import UnalignedPer.Proofs.Message.ReadingExtensions

/-!
# Reading sequences

A sequence is its extension marker, the presence bits of its standard fields and its fields (`Reader.readsField_framed`). The
standard fields are read first (`Reader.reads_root`), then the extension fields that are known, and the block is closed.
-/

namespace UnalignedPer

namespace Reader

open Unpacker (Takes)
open LawfulBitSource (Moved)

/-! ## The bits in front -/

/-- The extension marker is read as it was written. -/
theorem takes_readMarker (r : Reader) {c : Constraint} {marker : Bool}
    (hm : marker = true → c.extensible = true ∧ c.extensionCount ≠ 0) :
    Takes r (readMarker c) (if c.extensible then [marker] else []) marker := by
  unfold readMarker
  cases he : c.extensible with
  | false =>
    have hfalse : marker = false := by
      cases marker with
      | false => rfl
      | true => exact absurd (he.symm.trans (hm rfl).1) Bool.false_ne_true
    rw [hfalse]
    exact Unpacker.takes_pure r false
  | true =>
    rw [if_pos rfl, if_pos rfl]
    refine Unpacker.takes_bit_bind fun r1 _ => ?_
    have hn : ¬(marker = true ∧ c.extensionCount = 0) := fun h => (hm h.1).2 h.2
    rw [if_neg hn]
    exact Unpacker.takes_pure r1 marker

/-- The presence bits of the standard fields are passed. -/
theorem takes_reserve (r : Reader) (c : Constraint) {marks : List Bool} (hlen : marks.length = c.optionalFields) :
    Takes r (reserve c) marks (Presence.opening c r.view.position) := by
  unfold reserve
  refine (takes_position r).bind fun r1 _ => ?_
  have hskip := takes_skip r1 marks
  rw [hlen] at hskip
  rw [← List.append_nil marks]
  exact hskip.bind fun r2 _ => Unpacker.takes_pure r2 _

/-- What a sequence reads inside its container. -/
def sequenceContent {α : Type} (c : Constraint) (fields : ReaderM α) : ReaderM α := do
  note .basic fun () => "enter " ++ c.text
  let marker ← readMarker c
  let presence ← reserve c
  afterwards (noted .basic fun () => "leave " ++ c.text) <|
    withMarker marker <| withPresence (some presence) do
      let result ← fields
      closeSequence
      pure result

theorem sequence_eq {α : Type} (c : Constraint) (fields : ReaderM α) :
    sequence c fields = container (sequenceContent c fields) := rfl

/-- A reader inside a sequence, whose extension marker and presence bits were read. -/
structure Entered (c : Constraint) (marker : Bool) (marks : List Bool) (r : Reader) : Prop where
  /-- The marker is that of the sequence. -/
  marker : r.marker = marker
  /-- The presence bits of the standard fields are behind the cursor. -/
  holds : ∃ start, Holds r (Presence.opening c start) marks

/-- The fields of a sequence are read from a reader inside of it, which is left as it was found. -/
theorem sequenceContent_eq {α : Type} {c : Constraint} {marker : Bool} {marks body : List Bool} {r : Reader}
    (fields : ReaderM α) (hclaimed : r.claimed = none)
    (hmarker : marker = true → c.extensible = true ∧ c.extensionCount ≠ 0) (hlen : marks.length = c.optionalFields)
    (hp : (if c.extensible then [marker] else []) ++ (marks ++ body) <+: r.view.toList) :
    ∃ r1 start, Moved r ((if c.extensible then [marker] else []).length + marks.length) r1 ∧
      Entered c marker marks { r1 with marker := marker, presence := some (Presence.opening c start) } ∧
      body <+: r1.view.toList ∧
      sequenceContent c fields r = afterwards (noted .basic fun () => "leave " ++ c.text) (withMarker marker
        (withPresence (some (Presence.opening c start)) (fields >>= fun result => closeSequence >>= fun _ => pure result))) r1 := by
  obtain ⟨r1, hr1⟩ : ∃ r1, r1 = noted .basic (fun () => "enter " ++ c.text) r := ⟨_, rfl⟩
  have hm1 : Moved r 0 r1 := by
    rw [hr1]
    exact moved_noted _ _ r
  have hp1 : (if c.extensible then [marker] else []) ++ (marks ++ body) <+: r1.view.toList := by
    have hlist : r1.view.toList = r.view.toList := LawfulBitSource.ahead_of_moved hm1
    rw [hlist]
    exact hp
  obtain ⟨r2, hread, hm2⟩ := takes_readMarker r1 hmarker (Unpacker.prefix_left hp1)
  have hp2 : marks ++ body <+: r2.view.toList := by
    have hlist : r2.view.toList = _ := LawfulBitSource.ahead_of_moved hm2
    rw [hlist]
    exact Unpacker.prefix_drop hp1
  obtain ⟨r3, hreserve, hm3⟩ := takes_reserve r2 c hlen (Unpacker.prefix_left hp2)
  have hp3 : body <+: r3.view.toList := by
    have hlist : r3.view.toList = _ := LawfulBitSource.ahead_of_moved hm3
    rw [hlist]
    exact Unpacker.prefix_drop hp2
  have hm := LawfulBitSource.moved_trans (LawfulBitSource.moved_trans hm1 hm2) hm3
  rw [Nat.zero_add] at hm
  have hstart : (Presence.opening c r2.view.position).ahead =
      ⟨r2.view.position, r2.view.position + marks.length⟩ := by
    rw [hlen, Presence.ahead_opening]
  refine ⟨r3, r2.view.position, hm, ⟨rfl, r2.view.position, ?_⟩, hp3, ?_⟩
  · exact holds_of_prefix (hm.1.claimed.trans hclaimed) rfl (by rw [hstart]) (by rw [hstart]) hm3.1.view
      (Unpacker.prefix_left hp2)
  · simp only [sequenceContent, run_bind, note, run_modify, ← hr1, hread, hreserve]

/-- Reads the fields of a sequence and closes it. -/
def readAll (fields : List (Field Descriptor)) : ReaderM (List (Option Value)) := do
  let result ← Descriptor.readFields fields
  closeSequence
  pure result

/-- The fields of a sequence are read and it is closed. -/
def ReadsAll (fields : List (Field Descriptor)) (found : List (Option Value)) (r : Reader) (n : Nat) : Prop :=
  ∃ r', readAll fields r = .ok found r' ∧ r.Advanced n r'

/-- A SEQUENCE is read from its marker, its presence bits and its fields. -/
theorem readsField_framed {c : Constraint} {fields : List (Field Descriptor)} {marker : Bool} {marks body : List Bool}
    {found : List (Option Value)} {needs : Nat → Prop} {nesting : Nat}
    (hmarker : marker = true → c.extensible = true ∧ c.extensionCount ≠ 0) (hlen : marks.length = c.optionalFields)
    (h : ∀ r, Entered c marker marks r → r.depth + nesting ≤ r.settings.maxDepth → needs r.settings.maxLength.toNat →
      body <+: r.view.toList → ReadsAll fields found r body.length) :
    ReadsField (sequence c (Descriptor.readFields fields)) needs (nesting + 1)
      ((if c.extensible then [marker] else []) ++ (marks ++ body)) found := by
  refine readsField_container fun r hclaimed hd hn hp => ?_
  obtain ⟨r1, start, hm, hentered, hbody, heq⟩ :=
    sequenceContent_eq (Descriptor.readFields fields) hclaimed hmarker hlen hp
  rw [← hm.1.depth, ← hm.1.settings] at hd
  rw [← hm.1.settings] at hn
  obtain ⟨r2, hread, hadv⟩ := h _ hentered hd hn hbody
  obtain ⟨r3, hr3⟩ : ∃ r3 : Reader, r3 = { r2 with presence := r1.presence, marker := r1.marker } := ⟨_, rfl⟩
  refine ⟨noted .basic (fun () => "leave " ++ c.text) r3, ?_, ?_⟩
  · refine heq.trans ?_
    simp only [afterwards, withMarker, withPresence]
    unfold readAll at hread
    rw [hread, hr3]
  · have hmoved : Moved r1 body.length r3 := by
      rw [hr3]
      exact ⟨⟨hadv.view, hadv.claimed, rfl, hadv.depth, hadv.settings, hadv.steps⟩, rfl⟩
    have hall := LawfulBitSource.moved_trans (LawfulBitSource.moved_trans hm hmoved)
      (moved_noted .basic (fun () => "leave " ++ c.text) r3)
    rw [List.length_append, List.length_append, ← Nat.add_assoc]
    exact hall

/-- Where its fields are refused a SEQUENCE is, which lies in no other one. -/
theorem sequence_refused {c : Constraint} {fields : List (Field Descriptor)} {marker : Bool} {marks body : List Bool}
    {fault : Fault} {r : Reader} {nesting : Nat}
    (hmarker : marker = true → c.extensible = true ∧ c.extensionCount ≠ 0) (hlen : marks.length = c.optionalFields)
    (hpresence : r.presence = none) (hclaimed : r.claimed = none) (hd : r.depth + (nesting + 1) ≤ r.settings.maxDepth)
    (hp : (if c.extensible then [marker] else []) ++ (marks ++ body) <+: r.view.toList)
    (h : ∀ r', Entered c marker marks r' → r'.depth + nesting ≤ r'.settings.maxDepth → r'.settings = r.settings →
      body <+: r'.view.toList → ∃ r'', readAll fields r' = .error fault r'') :
    ∃ r', sequence c (Descriptor.readFields fields) r = .error fault r' := by
  obtain ⟨r1, start, hm, hentered, hbody, heq⟩ := sequenceContent_eq (r := { r with depth := r.depth + 1 })
    (Descriptor.readFields fields) hclaimed hmarker hlen hp
  have hdepth : r1.depth + nesting ≤ r1.settings.maxDepth := by
    rw [hm.1.depth, hm.1.settings]
    show r.depth + 1 + nesting ≤ r.settings.maxDepth
    omega
  obtain ⟨r2, hread⟩ := h _ hentered hdepth hm.1.settings hbody
  have hcontent : ∃ r3, sequenceContent c (Descriptor.readFields fields) { r with depth := r.depth + 1 } = .error fault r3 := by
    rw [heq]
    simp only [afterwards, withMarker, withPresence]
    unfold readAll at hread
    rw [hread]
    exact ⟨_, rfl⟩
  obtain ⟨r3, hr3⟩ := hcontent
  have hnot : ¬r.depth ≥ r.settings.maxDepth := by omega
  refine ⟨{ r3 with depth := r3.depth - 1 }, ?_⟩
  rw [sequence_eq]
  simp only [container, run_bind, enterField_of_none hpresence hclaimed, run_get, if_neg hnot, run_modify, afterwards,
    withContent, Bool.false_eq_true, if_false, hr3]

/-! ## The whole sequence -/

/-- Fields that are read before others. -/
theorem ReadsAll.append {fields fields' : List (Field Descriptor)} {found found' : List (Option Value)} {r r' : Reader}
    {m n : Nat} (hr : Descriptor.readFields fields r = .ok found r') (ha : r.Advanced m r') (h : ReadsAll fields' found' r' n) :
    ReadsAll (fields ++ fields') (found ++ found') r (m + n) := by
  obtain ⟨r'', hr'', ha''⟩ := h
  refine ⟨r'', ?_, ha.trans ha''⟩
  simp only [readAll, run_bind, Descriptor.readFields_append, hr, run_pure] at hr'' ⊢
  cases hread : Descriptor.readFields fields' r' with
  | error fault r1 =>
    rw [hread] at hr''
    cases hr''
  | ok result r1 =>
    rw [hread] at hr''
    simp only at hr'' ⊢
    cases hclose : closeSequence r1 with
    | error fault r2 =>
      rw [hclose] at hr''
      cases hr''
    | ok _ r2 =>
      rw [hclose] at hr''
      cases hr''
      rfl

/-- Where the fields behind others are refused all of them are. -/
theorem readAll_append_error {fields fields' : List (Field Descriptor)} {found : List (Option Value)} {r r' r'' : Reader}
    {fault : Fault} (hr : Descriptor.readFields fields r = .ok found r')
    (h : Descriptor.readFields fields' r' = .error fault r'') : readAll (fields ++ fields') r = .error fault r'' := by
  simp only [readAll, Descriptor.readFields_append, run_bind, hr, h]

/-- The standard fields are read; if there is an extension marker, the extension fields come next. -/
theorem reads_root {fields : List (Field Descriptor)} {entries : List (Option Value)} {c : Constraint} {marker : Bool}
    {r : Reader} (h : ∀ field ∈ fields, ReadBack field.type) (hlen : entries.length = fields.length)
    (hcount : c.standardCount = fields.length)
    (hr : Entered c marker (Part.marks false (Descriptor.parts fields entries)) r) (hx : ExpectsAll false fields entries r)
    (hbody : Part.bodies false (Descriptor.parts fields entries) <+: r.view.toList) :
    ∃ r' p', Descriptor.readFields fields r = .ok (Value.tidyList entries) r' ∧
      r.Advanced (Part.bodies false (Descriptor.parts fields entries)).length r' ∧ r'.presence = some p' ∧
      p'.header = none ∧ (c.extensible = true → Behind r' p' c.extensionCount) := by
  obtain ⟨-, start, hs⟩ := hr
  have hawaits := Presence.awaits_opening c start
  rw [hcount] at hawaits
  rw [← List.append_nil (Part.marks _ _)] at hs
  obtain ⟨r', p', hread, hpass, hs', hadv⟩ := readsEntries fields h entries [] r _ hlen hawaits hs hx hbody
  refine ⟨r', p', hread, hadv, hs'.presence, hpass.header.trans (Presence.header_opening c start), fun he => ?_⟩
  have hopening : Presence.opening c start =
      .ofStandard ⟨start, start + c.optionalFields⟩ c.standardCount c.extensionCount := by
    rw [Presence.opening, if_pos he]
  rw [hopening] at hpass
  refine ⟨hs'.presence, hs'.claimed, hpass.rule, ?_, hpass.extensions⟩
  rw [hpass.standardLeft rfl, ← hcount]
  exact Nat.sub_self _

/-- A sequence without a set marker may end with the standard fields. -/
theorem readsAll_root {fields : List (Field Descriptor)} {entries : List (Option Value)} {c : Constraint} {r : Reader}
    (h : ∀ field ∈ fields, ReadBack field.type) (hlen : entries.length = fields.length)
    (hcount : c.standardCount = fields.length)
    (hr : Entered c false (Part.marks false (Descriptor.parts fields entries)) r) (hx : ExpectsAll false fields entries r)
    (hbody : Part.bodies false (Descriptor.parts fields entries) <+: r.view.toList) :
    ReadsAll fields (Value.tidyList entries) r (Part.bodies false (Descriptor.parts fields entries)).length := by
  obtain ⟨r', p', hread, hadv, hp, hheader, -⟩ := reads_root h hlen hcount hr hx hbody
  have hclose := closeSequence_of_unmarked hp hheader fun _ => hadv.marker.trans hr.marker
  exact ⟨r', by simp only [readAll, run_bind, hread, hclose, run_pure], hadv⟩

/-- A sequence of which some extension fields are asked for, and maybe others are not. -/
theorem readsAll_extended {root extensions : List (Field Descriptor)} {given added : List (Option Value)} (later : List Part)
    {c : Constraint} {r : Reader} (h : ∀ field ∈ root, ReadBack field.type) (h' : ∀ field ∈ extensions, ReadBack field.type)
    (hlen : given.length = root.length) (hlen' : added.length = extensions.length)
    (hlt : extensions.length + later.length < 2 ^ 64) (hext : c.extensible = true) (hcount : c.standardCount = root.length)
    (hpos : c.extensionCount ≠ 0)
    (hr : Entered c (Part.anyPresent (Descriptor.parts extensions added ++ later))
      (Part.marks false (Descriptor.parts root given)) r)
    (hx : ExpectsAll false root given r) (hx' : ExpectsAll true extensions added r)
    (hbits : Part.bodies false (Descriptor.parts root given) ++
      Part.optionalBlock (Descriptor.parts extensions added ++ later) <+: r.view.toList) :
    ReadsAll (root ++ extensions) (Value.tidyList (given ++ added)) r (Part.bodies false (Descriptor.parts root given) ++
      Part.optionalBlock (Descriptor.parts extensions added ++ later)).length := by
  obtain ⟨r1, p1, hread1, hadv1, -, -, hbehind⟩ := reads_root h hlen hcount hr hx (Unpacker.prefix_left hbits)
  have hm1 := hadv1.marker.trans hr.marker
  have hbits1 : Part.optionalBlock (Descriptor.parts extensions added ++ later) <+: r1.view.toList := by
    have hlist : r1.view.toList = _ := LawfulBitSource.ahead_of_moved hadv1.view
    rw [hlist]
    exact Unpacker.prefix_drop hbits
  rw [Value.tidyList_eq_map, List.map_append, ← Value.tidyList_eq_map, ← Value.tidyList_eq_map, List.length_append]
  refine ReadsAll.append hread1 hadv1 ?_
  by_cases hne : extensions = []
  · subst hne
    obtain rfl : added = [] := List.eq_nil_of_length_eq_zero hlen'
    rw [List.length_nil, Nat.zero_add] at hlt
    obtain ⟨r2, hclose, hadv2⟩ := (hbehind hext).closes later hlt hm1 hbits1
    refine ⟨r2, ?_, hadv2⟩
    simp only [readAll, Descriptor.readFields, run_bind, run_pure, hclose]
    rfl
  · obtain ⟨r2, p2, done, rest, hread2, hadv2, ho2, hs2, hdone, -⟩ := (hbehind hext).reads later hpos h' hlen' hne hlt hm1
      (hx'.advanced hadv1) hbits1
    have hrest : Part.bodies true rest <+: r2.view.toList := by
      have hlist : r2.view.toList = _ := LawfulBitSource.ahead_of_moved hadv2.view
      rw [hlist]
      rw [hdone] at hbits1
      exact Unpacker.prefix_drop hbits1
    obtain ⟨r3, hclose, hm3⟩ := takes_closeSequence rest ho2 hs2 hrest
    refine ⟨r3, ?_, ?_⟩
    · simp only [readAll, run_bind, hread2, hclose, run_pure]
    · rw [hdone, List.length_append]
      exact hadv2.trans hm3.1

/-- What a sequence needs is needed by its fields before and after the marker. -/
theorem expectsAll_halves {name : String} {fields root extensions : List (Field Descriptor)} {standard : Option Nat}
    {entries added : List (Option Value)} (hv : Descriptor.Halves name fields standard root extensions)
    (hlen : entries.length = root.length) (r : Reader)
    (hc : Descriptor.fieldsConform fields (entries ++ added) = true)
    (hd : r.depth + Value.nestingList (entries ++ added) ≤ r.settings.maxDepth)
    (hf : (Descriptor.sequence name fields standard).Fits (.sequence (entries ++ added)) r.settings.maxLength.toNat) :
    ExpectsAll false root entries r ∧ ExpectsAll true extensions added r := by
  obtain ⟨hl, hcont⟩ := hf
  rw [hv.all, Descriptor.fieldsConform_append root extensions added hlen, Bool.and_eq_true] at hc
  rw [Value.nestingList_append] at hd
  rw [Value.lengthsWithin, Value.lengthsWithinList_append, Bool.and_eq_true] at hl
  have hopen : (Descriptor.sequence name fields standard).openContents (.sequence (entries ++ added)) =
      (Descriptor.parts extensions added).filterMap (·.content) ++
        (Descriptor.fieldsContents root entries ++ Descriptor.fieldsContents extensions added) := by
    rw [Descriptor.openContents, hv.standardCount, hv.all, Descriptor.parts_append root extensions added hlen,
      Descriptor.fieldsContents_append root extensions added hlen, ← Descriptor.length_parts hlen, List.drop_left]
  rw [hopen] at hcont
  refine ⟨⟨hc.1, by omega, hl.1, fun content hm => hcont content ?_, fun hf => absurd hf Bool.false_ne_true⟩,
    ⟨hc.2, by omega, hl.2, fun content hm => hcont content ?_, fun _ content hm => hcont content ?_⟩⟩
  · exact List.mem_append_right _ (List.mem_append_left _ hm)
  · exact List.mem_append_right _ (List.mem_append_right _ hm)
  · exact List.mem_append_left _ hm

/-- An extension field can only be present where the type has an extension marker. -/
theorem extensible_of_anyPresent {name : String} {fields root extensions : List (Field Descriptor)} {standard : Option Nat}
    {added : List (Option Value)} (hv : Descriptor.Halves name fields standard root extensions)
    (h : Part.anyPresent (Descriptor.parts extensions added) = true) :
    (Descriptor.sequence name fields standard).constraint.extensible = true ∧
      (Descriptor.sequence name fields standard).constraint.extensionCount ≠ 0 := by
  have hne : extensions ≠ [] := by
    rintro rfl
    cases h
  have hpos : 0 < extensions.length := List.length_pos_iff.mpr hne
  refine ⟨?_, by rw [hv.extensionCount]; omega⟩
  cases standard with
  | none => exact absurd (hv.closed rfl) hne
  | some n => rfl

/-- A SEQUENCE is read back from its form. -/
theorem readsField_sequence {name : String} {fields : List (Field Descriptor)} {standard : Option Nat}
    {entries : List (Option Value)} (h : ∀ field ∈ fields, ReadBack field.type) (hlt : fields.length < 2 ^ 64)
    (hc : Descriptor.fieldsConform fields entries = true) :
    ReadsField (sequence (Descriptor.sequence name fields standard).constraint (Descriptor.readFields fields))
      ((Descriptor.sequence name fields standard).Fits (.sequence entries)) (Value.nestingList entries + 1)
      ((Descriptor.sequence name fields standard).bits (.sequence entries)) (Value.tidyList entries) := by
  obtain ⟨root, extensions, given, added, hv, hentries, hgiven, hadded⟩ :=
    Descriptor.exists_halves name standard (Descriptor.length_of_fieldsConform hc)
  rw [hentries] at hc ⊢
  have hroot : ∀ field ∈ root, ReadBack field.type := fun f hf => h f (by rw [hv.all]; exact List.mem_append_left _ hf)
  have hexts : ∀ field ∈ extensions, ReadBack field.type := fun f hf =>
    h f (by rw [hv.all]; exact List.mem_append_right _ hf)
  have hfl : fields.length = root.length + extensions.length := by rw [hv.all, List.length_append]
  have hmarks : (Part.marks false (Descriptor.parts root given)).length =
      (Descriptor.sequence name fields standard).constraint.optionalFields := by
    rw [hv.optionalFields, Descriptor.length_marks_false hgiven]
  rw [Descriptor.bits_sequence hv hgiven, Part.form, List.append_assoc, List.append_assoc]
  refine readsField_framed (extensible_of_anyPresent hv) hmarks fun r hr hd hn hbody => ?_
  obtain ⟨hx, hx'⟩ := expectsAll_halves hv hgiven r hc hd hn
  by_cases hne : extensions = []
  · subst hne
    obtain rfl : added = [] := List.eq_nil_of_length_eq_zero hadded
    have hnil : (if Part.anyPresent (Descriptor.parts [] []) then Part.block (Descriptor.parts [] []) else []) = [] := rfl
    rw [hnil] at hbody ⊢
    rw [hv.all, List.append_nil, List.append_nil, List.append_nil]
    exact readsAll_root hroot hgiven hv.standardCount hr hx (Unpacker.prefix_left hbody)
  · cases standard with
    | none => exact absurd (hv.closed rfl) hne
    | some n =>
      have hpos : (Descriptor.sequence name fields (some n)).constraint.extensionCount ≠ 0 := by
        rw [hv.extensionCount]
        exact mt List.eq_nil_of_length_eq_zero hne
      have hall := readsAll_extended [] hroot hexts hgiven hadded (by simp only [List.length_nil]; omega) rfl
        hv.standardCount hpos (by rw [List.append_nil]; exact hr) hx hx' (by rw [List.append_nil]; exact hbody)
      rw [List.append_nil, ← hv.all] at hall
      exact hall

end Reader

end UnalignedPer
