import UnalignedPer.Proofs.Message.Decoding

/-!
# Types that grow

Fields that are added to a sequence after its extension marker do not disturb those who know fewer of them, nor those who know
more: a message of the longer type is decoded under the shorter one, without the fields that are new to it (`decode_shorter`), and
a message of the shorter type under the longer one, where the new fields are absent (`decode_longer`). Only a mandatory field is
missed.
-/

namespace UnalignedPer

open Reader (ReadBack ReadsField ReadsAll Entered Ended Behind ExpectsAll)

namespace Descriptor

/-- A value of a sequence is the list of its entries. -/
theorem exists_entries {name : String} {fields : List (Field Descriptor)} {standard : Option Nat} {value : Value}
    (h : (sequence name fields standard).conforms value = true) :
    ∃ entries, value = .sequence entries ∧ fieldsConform fields entries = true := by
  cases value
  case sequence entries => exact ⟨entries, rfl, h⟩
  all_goals exact absurd h Bool.false_ne_true

/-- No entry is an entry of an OPTIONAL field. -/
theorem fieldsConform_none {fields : List (Field Descriptor)} (h : ∀ field ∈ fields, field.optional = true) :
    fieldsConform fields (fields.map fun _ => none) = true := by
  induction fields with
  | nil => rfl
  | cons field fields ih =>
    rw [List.map_cons, fieldsConform_cons, ih fun f hf => h f (List.mem_cons_of_mem _ hf), Bool.and_true]
    exact h field (List.mem_cons_self ..)

/-- The entries of a sequence are read as its value. -/
theorem readsField_entries {name : String} {fields : List (Field Descriptor)} {standard : Option Nat} {needs : Nat → Prop}
    {nesting : Nat} {bits : List Bool} {found : List (Option Value)}
    (h : ReadsField (Reader.sequence (sequence name fields standard).constraint (readFields fields)) needs nesting bits found) :
    ReadsField (sequence name fields standard).read needs nesting bits (.sequence found) := by
  refine h.mono fun r r' hm => ?_
  rw [read]
  simp only [run_bind, hm]
  rfl

end Descriptor

section Grown

variable (name name' : String) {fields more : List (Field Descriptor)} {standard : Nat}

/-- The form of a longer sequence is read up to the end where only the fields of the shorter one are asked for. The constraint may
know of more extension fields than those. -/
theorem Reader.readsField_known {kept extra : List (Option Value)} {c : Constraint} (hs : standard ≤ fields.length)
    (hlt : (fields ++ more).length < 2 ^ 64) (hextra : extra.length = more.length) (h : ∀ field ∈ fields, ReadBack field.type)
    (hc : Descriptor.fieldsConform fields kept = true) (hext : c.extensible = true) (hpos : c.extensionCount ≠ 0)
    (hcount : c.standardCount = (Descriptor.sequence name fields (some standard)).constraint.standardCount)
    (hoptional : c.optionalFields = (Descriptor.sequence name fields (some standard)).constraint.optionalFields) :
    ReadsField (Reader.sequence c (Descriptor.readFields fields))
      ((Descriptor.sequence name fields (some standard)).Fits (.sequence kept)) (Value.sequence kept).nesting
      ((Descriptor.sequence name' (fields ++ more) (some standard)).bits (.sequence (kept ++ extra)))
      (Value.tidyList kept) := by
  obtain ⟨root, extensions, hv, hv', hroot⟩ := Descriptor.exists_halves_append name name' more hs
  obtain ⟨given, added, rfl, hgiven, hadded⟩ := hv.exists_entries (Descriptor.length_of_fieldsConform hc)
  have hfl : fields.length = root.length + extensions.length := by rw [hv.all, List.length_append]
  have hlater := Descriptor.length_parts hextra
  rw [List.length_append] at hlt
  have hmarks : (Part.marks false (Descriptor.parts root given)).length = c.optionalFields := by
    rw [hoptional, hv.optionalFields, Descriptor.length_marks_false hgiven]
  rw [List.append_assoc, Descriptor.bits_sequence hv' hgiven, Descriptor.parts_append extensions more extra hadded, Part.form,
    List.append_assoc, List.append_assoc, show (some standard).isSome = c.extensible from hext.symm]
  refine Reader.readsField_framed (fun _ => ⟨hext, hpos⟩) hmarks fun r hr hd hn hbody => ?_
  obtain ⟨hx, hx'⟩ := Reader.expectsAll_halves hv hgiven r hc hd hn
  have hroots : ∀ field ∈ root, ReadBack field.type := fun f hf => h f (by rw [hv.all]; exact List.mem_append_left _ hf)
  have hexts : ∀ field ∈ extensions, ReadBack field.type := fun f hf =>
    h f (by rw [hv.all]; exact List.mem_append_right _ hf)
  have hall := Reader.readsAll_extended (Descriptor.parts more extra) hroots hexts hgiven hadded (by omega) hext
    (hcount.trans hv.standardCount) hpos hr hx hx' hbody
  rw [← hv.all] at hall
  exact hall

/-- The form of a longer sequence is read as the shorter one, and what is new is skipped. -/
theorem Descriptor.readsField_shorter {kept extra : List (Option Value)} (hs : standard < fields.length)
    (hlt : (fields ++ more).length < 2 ^ 64) (hextra : extra.length = more.length) (h : ∀ field ∈ fields, ReadBack field.type)
    (hc : Descriptor.fieldsConform fields kept = true) :
    ReadsField (Descriptor.sequence name fields (some standard)).read
      ((Descriptor.sequence name fields (some standard)).Fits (.sequence kept)) (Value.sequence kept).nesting
      ((Descriptor.sequence name' (fields ++ more) (some standard)).bits (.sequence (kept ++ extra)))
      (Value.sequence kept).tidy := by
  have hpos : (Descriptor.sequence name fields (some standard)).constraint.extensionCount ≠ 0 := by
    rw [Descriptor.extensionCount_sequence, Descriptor.rootCount, Option.getD_some]
    omega
  exact Descriptor.readsField_entries
    (Reader.readsField_known name name' (Nat.le_of_lt hs) hlt hextra h hc rfl hpos rfl rfl)

/-- Behind the fields of the shorter sequence, whichever of them are there, every field is absent. -/
theorem Reader.reads_known {root extensions : List (Field Descriptor)} {given added : List (Option Value)} {c : Constraint}
    {r : Reader} (h : ∀ field ∈ root, ReadBack field.type) (h' : ∀ field ∈ extensions, ReadBack field.type)
    (hlen : given.length = root.length) (hlen' : added.length = extensions.length) (hlt : extensions.length < 2 ^ 64)
    (hext : c.extensible = true) (hcount : c.standardCount = root.length) (hpos : c.extensionCount ≠ 0)
    (hr : Entered c (Part.anyPresent (Descriptor.parts extensions added)) (Part.marks false (Descriptor.parts root given)) r)
    (hx : ExpectsAll false root given r) (hx' : ExpectsAll true extensions added r)
    (hbits : Part.bodies false (Descriptor.parts root given) ++ Part.optionalBlock (Descriptor.parts extensions added) <+:
      r.view.toList) :
    ∃ r' r'' p, Descriptor.readFields (root ++ extensions) r = .ok (Value.tidyList (given ++ added)) r' ∧
      r.Advanced (Part.bodies false (Descriptor.parts root given) ++
        Part.optionalBlock (Descriptor.parts extensions added)).length r'' ∧
      Ended r' r'' p := by
  obtain ⟨r1, p1, hread1, hadv1, -, -, hbehind⟩ := reads_root h hlen hcount hr hx (Unpacker.prefix_left hbits)
  have hb := hbehind hext
  have hm := hadv1.marker.trans hr.marker
  have htidy : Value.tidyList (given ++ added) = Value.tidyList given ++ Value.tidyList added := by
    rw [Value.tidyList_eq_map, List.map_append, ← Value.tidyList_eq_map, ← Value.tidyList_eq_map]
  rw [Descriptor.readFields_append, htidy, List.length_append]
  by_cases hne : extensions = []
  · subst hne
    obtain rfl : added = [] := List.eq_nil_of_length_eq_zero hlen'
    obtain ⟨r2, p2, hend, hadv2⟩ := hb.ended hpos hm
    refine ⟨r1, r2, p2, ?_, hadv1.trans hadv2, hend⟩
    simp only [run_bind, hread1]
    rfl
  · have hbits1 : Part.optionalBlock (Descriptor.parts extensions added) <+: r1.view.toList := by
      have hlist : r1.view.toList = _ := LawfulBitSource.ahead_of_moved hadv1.view
      rw [hlist]
      exact Unpacker.prefix_drop hbits
    obtain ⟨r2, p2, done, rest, hread2, hadv2, ho2, hs2, hdone, hrest⟩ := hb.reads [] hpos h' hlen' hne hlt
      (by rw [List.append_nil]; exact hm) (hx'.advanced hadv1) (by rw [List.append_nil]; exact hbits1)
    obtain rfl : rest = [] := hrest rfl
    rw [List.append_nil] at hdone
    have hnil : Part.bodies true [] = [] := rfl
    rw [hdone, hnil, List.append_nil]
    have hex : Reader.Exhausted r2 p2 := ⟨ho2, hs2⟩
    refine ⟨r2, r2, p2, ?_, hadv1.trans hadv2, hex.ended⟩
    simp only [run_bind, hread1, hread2, run_pure]

/-- A reader of the longer sequence finds the fields of the shorter one in its form, and then nothing. -/
theorem Descriptor.exists_frame_longer {entries : List (Option Value)} (hs : standard ≤ fields.length) (hmore : more ≠ [])
    (hlt : fields.length < 2 ^ 64) (h : ∀ field ∈ fields, ReadBack field.type)
    (hc : Descriptor.fieldsConform fields entries = true) {c : Constraint}
    (hcon : c = (Descriptor.sequence name' (fields ++ more) (some standard)).constraint) :
    ∃ marker marks body,
      (Descriptor.sequence name fields (some standard)).bits (.sequence entries) =
        (if c.extensible then [marker] else []) ++ (marks ++ body) ∧
      (marker = true → c.extensible = true ∧ c.extensionCount ≠ 0) ∧ marks.length = c.optionalFields ∧
      ∀ r, Entered c marker marks r → r.depth + Value.nestingList entries ≤ r.settings.maxDepth →
        (Descriptor.sequence name fields (some standard)).Fits (.sequence entries) r.settings.maxLength.toNat →
        body <+: r.view.toList →
        ∃ r' r'' p, Descriptor.readFields fields r = .ok (Value.tidyList entries) r' ∧ r.Advanced body.length r'' ∧
          Ended r' r'' p := by
  obtain ⟨root, extensions, hv, hv', hroot⟩ := Descriptor.exists_halves_append name name' more hs
  obtain ⟨given, added, rfl, hgiven, hadded⟩ := hv.exists_entries (Descriptor.length_of_fieldsConform hc)
  have hfl : fields.length = root.length + extensions.length := by rw [hv.all, List.length_append]
  have hext : c.extensible = true := by rw [hcon]; rfl
  have hcount : c.extensionCount ≠ 0 := by
    have hpos := List.length_pos_iff.mpr hmore
    rw [hcon, hv'.extensionCount, List.length_append]
    omega
  refine ⟨Part.anyPresent (Descriptor.parts extensions added), Part.marks false (Descriptor.parts root given),
    Part.bodies false (Descriptor.parts root given) ++ Part.optionalBlock (Descriptor.parts extensions added), ?_,
    fun _ => ⟨hext, hcount⟩, ?_, fun r hr hd hn hbody => ?_⟩
  · rw [Descriptor.bits_sequence hv hgiven, Part.form, List.append_assoc, List.append_assoc, hext]
    rfl
  · rw [hcon, hv'.optionalFields, Descriptor.length_marks_false hgiven]
  · obtain ⟨hx, hx'⟩ := Reader.expectsAll_halves hv hgiven r hc hd hn
    have hroots : ∀ field ∈ root, ReadBack field.type := fun f hf => h f (by rw [hv.all]; exact List.mem_append_left _ hf)
    have hexts : ∀ field ∈ extensions, ReadBack field.type := fun f hf =>
      h f (by rw [hv.all]; exact List.mem_append_right _ hf)
    obtain ⟨r', r'', p, hread, hadv, hend⟩ := Reader.reads_known hroots hexts hgiven hadded (by omega) hext
      (by rw [hcon]; exact hv'.standardCount) hcount hr hx hx' hbody
    rw [← hv.all] at hread
    exact ⟨r', r'', p, hread, hadv, hend⟩

/-- The form of a shorter sequence is read as the longer one, where optional fields that are new are absent. -/
theorem Descriptor.readsField_longer {entries : List (Option Value)} (hs : standard ≤ fields.length) (hmore : more ≠ [])
    (hlt : fields.length < 2 ^ 64) (h : ∀ field ∈ fields, ReadBack field.type)
    (hc : Descriptor.fieldsConform fields entries = true) (ho : ∀ field ∈ more, field.optional = true) :
    ReadsField (Descriptor.sequence name' (fields ++ more) (some standard)).read
      ((Descriptor.sequence name fields (some standard)).Fits (.sequence entries)) (Value.sequence entries).nesting
      ((Descriptor.sequence name fields (some standard)).bits (.sequence entries))
      (Value.sequence (entries ++ more.map fun _ => none)).tidy := by
  obtain ⟨marker, marks, body, hbits, hmarker, hlen, hframe⟩ :=
    Descriptor.exists_frame_longer name name' hs hmore hlt h hc rfl
  rw [hbits]
  refine Descriptor.readsField_entries (Reader.readsField_framed hmarker hlen fun r hr hd hn hbody => ?_)
  obtain ⟨r', r'', p, hread, hadv, hend⟩ := hframe r hr hd hn hbody
  have hmoreRead := hend.readFields_optional (fun hnil => absurd hnil hmore) ho
  obtain ⟨r3, hclose, hm3⟩ := Reader.takes_closeSequence [] hend.exhausted.opened hend.exhausted.holds
    List.nil_prefix
  have htidy : Value.tidyList (entries ++ more.map fun _ => none) = Value.tidyList entries ++ more.map fun _ => none := by
    rw [Value.tidyList_eq_map, Value.tidyList_eq_map, List.map_append, List.map_map]
    rfl
  refine ⟨r3, ?_, hadv.trans hm3.1⟩
  rw [htidy]
  simp only [Reader.readAll, Descriptor.readFields_append, run_bind, hread, hmoreRead, run_pure, hclose]

/-- The form of a shorter sequence is refused by the longer one, where a mandatory field that is new is missed. -/
theorem Descriptor.read_longer_refused {entries : List (Option Value)} (hs : standard ≤ fields.length)
    (hlt : fields.length < 2 ^ 64) (h : ∀ field ∈ fields, ReadBack field.type)
    (hc : Descriptor.fieldsConform fields entries = true) (hm : ∃ field ∈ more, field.optional = false) {r : Reader}
    (hpresence : r.presence = none) (hclaimed : r.claimed = none)
    (hd : r.depth + (Value.sequence entries).nesting ≤ r.settings.maxDepth)
    (hn : (Descriptor.sequence name fields (some standard)).Fits (.sequence entries) r.settings.maxLength.toNat)
    (hp : (Descriptor.sequence name fields (some standard)).bits (.sequence entries) <+: r.view.toList) :
    ∃ r', (Descriptor.sequence name' (fields ++ more) (some standard)).read r =
      .error (.extensionMismatch true false) r' := by
  have hmore : more ≠ [] := by
    rintro rfl
    obtain ⟨field, hf, -⟩ := hm
    exact absurd hf List.not_mem_nil
  obtain ⟨marker, marks, body, hbits, hmarker, hlen, hframe⟩ :=
    Descriptor.exists_frame_longer name name' hs hmore hlt h hc rfl
  rw [hbits] at hp
  have hrefused := Reader.sequence_refused hmarker hlen hpresence hclaimed hd hp fun r1 hr1 hd1 hset1 hbody1 => by
    obtain ⟨r', r'', p, hread, -, hend⟩ := hframe r1 hr1 hd1 (by rw [hset1]; exact hn) hbody1
    exact ⟨r'', Reader.readAll_append_error hread (hend.readFields_mandatory hm)⟩
  obtain ⟨r', hr'⟩ := hrefused
  refine ⟨r', ?_⟩
  rw [Descriptor.read]
  simp only [run_bind, hr']

end Grown

/-! ## Whole messages -/

/-- A message of a sequence to which extension fields were added is decoded under the sequence before that: to the entries it
knows, from all bits of the message, whatever fields are there. The decoder has to admit strings, lists and open types as long as
those of the entries it knows. -/
theorem decode_shorter {settings : Settings} (name : String) {name' : String} {fields more : List (Field Descriptor)}
    {standard : Nat} {value : Value} {e : Encoding} (hs : standard < fields.length)
    (ht : (Descriptor.sequence name' (fields ++ more) (some standard)).everywhere Descriptor.countable = true)
    (h : (encode settings (.sequence name' (fields ++ more) (some standard)) value).1 = .ok e) :
    ∃ entries, value = .sequence entries ∧ entries.length = (fields ++ more).length ∧
      ∀ settings' data length, (Value.sequence (entries.take fields.length)).nesting ≤ settings'.maxDepth →
        (Value.sequence (entries.take fields.length)).lengthsWithin settings'.maxLength.toNat = true →
        (Descriptor.sequence name fields (some standard)).contentsWithin settings'.maxLength.toNat
          (.sequence (entries.take fields.length)) = true →
        e.toList <+: (BitView.ofOctets data length).toList →
        ∃ found, (decode settings' (.sequence name fields (some standard)) data length).1 = .ok ⟨found, e.bitLength⟩ ∧
          found.same (.sequence (entries.take fields.length)) = true := by
  have hholds := holds_of_encode ht h
  obtain ⟨entries, rfl, hc⟩ := Descriptor.exists_entries hholds.conforms
  have hlen := Descriptor.length_of_fieldsConform hc
  refine ⟨entries, rfl, hlen, fun settings' data length hd hl ho hp => ?_⟩
  rw [List.length_append] at hlen
  have htake : (entries.take fields.length).length = fields.length := List.length_take_of_le (by omega)
  have hkept : Descriptor.fieldsConform fields (entries.take fields.length) = true := by
    rw [← List.take_append_drop fields.length entries, Descriptor.fieldsConform_append _ _ _ htake, Bool.and_eq_true] at hc
    exact hc.1
  obtain ⟨hcount, hparts⟩ := Descriptor.everywhere_sequence.mp ht
  have hback : ∀ field ∈ fields, ReadBack field.type := fun field hm =>
    field.type.readBack (hparts field (List.mem_append_left _ hm))
  have hextra : (entries.drop fields.length).length = more.length := by
    rw [List.length_drop]
    omega
  have hreads := Descriptor.readsField_shorter name name' hs (of_decide_eq_true hcount) hextra hback hkept
  rw [List.take_append_drop] at hreads
  rw [hholds.bits] at hp
  refine ⟨_, ?_, Descriptor.same_tidy (.sequence name fields (some standard)) _ hkept⟩
  rw [decode_of_readsField hreads hd (Descriptor.fits_of_within hl ho) hp, hholds.length]

/-- A report with a field that is new and always there. -/
theorem decode_shorter_report :
    (encode .standard (.sequence "Report" (Descriptor.report.fields ++ [⟨"seen", false, .simple "" .boolean false⟩]) (some 2))
        (.sequence [some (.boolean true), some (.integer 5), some (.octets #[0xAB]), some (.boolean true)])).1 =
      .ok ⟨#[0xF4, 0x0E, 0x04, 0x03, 0x56, 0x03, 0x00], 55⟩ ∧
    ∃ found, (decode .standard (.sequence "Report" Descriptor.report.fields (some 2))
        #[0xF4, 0x0E, 0x04, 0x03, 0x56, 0x03, 0x00] 55).1 = .ok ⟨found, 55⟩ ∧ found.same .report = true := by
  have hcountable : (Descriptor.sequence "Report" (Descriptor.report.fields ++
      [⟨"seen", false, .simple "" .boolean false⟩]) (some 2)).everywhere Descriptor.countable = true := by decide +kernel
  have h : (encode .standard (.sequence "Report" (Descriptor.report.fields ++
      [⟨"seen", false, .simple "" .boolean false⟩]) (some 2))
      (.sequence [some (.boolean true), some (.integer 5), some (.octets #[0xAB]), some (.boolean true)])).1 =
    .ok ⟨#[0xF4, 0x0E, 0x04, 0x03, 0x56, 0x03, 0x00], 55⟩ := by cbv
  have hp : (⟨#[0xF4, 0x0E, 0x04, 0x03, 0x56, 0x03, 0x00], 55⟩ : Encoding).toList <+:
      (BitView.ofOctets #[0xF4, 0x0E, 0x04, 0x03, 0x56, 0x03, 0x00] 55).toList :=
    List.prefix_iff_eq_take.mpr (by decide +kernel)
  obtain ⟨entries, heq, -, hall⟩ := decode_shorter "Report" (by decide) hcountable h
  cases heq
  exact ⟨h, hall .standard _ _ (by decide +kernel) (by decide +kernel) (by decide +kernel) hp⟩

/-- A message of a sequence is decoded under a sequence with more extension fields, whether or not extensions are there: the new
fields are absent, and all bits of the message are read. Where one of the new fields is mandatory it is missed. The decoder has to
admit strings, lists and open types as long as those of the value. -/
theorem decode_longer {settings : Settings} (settings' : Settings) {name name' : String}
    {fields more : List (Field Descriptor)} {standard : Nat} {value : Value} {e : Encoding} (hs : standard ≤ fields.length)
    (ht : (Descriptor.sequence name' (fields ++ more) (some standard)).everywhere Descriptor.countable = true)
    (h : (encode settings (.sequence name fields (some standard)) value).1 = .ok e)
    (hd : value.nesting ≤ settings'.maxDepth) (hl : value.lengthsWithin settings'.maxLength.toNat = true)
    (ho : (Descriptor.sequence name fields (some standard)).contentsWithin settings'.maxLength.toNat value = true)
    {data : Octets} {length : Nat} (hp : e.toList <+: (BitView.ofOctets data length).toList) :
    ∃ entries, value = .sequence entries ∧
      ((∀ field ∈ more, field.optional = true) →
        ∃ found, (decode settings' (.sequence name' (fields ++ more) (some standard)) data length).1 =
            .ok ⟨found, e.bitLength⟩ ∧
          found.same (.sequence (entries ++ more.map fun _ => none)) = true) ∧
      ((∃ field ∈ more, field.optional = false) →
        (decode settings' (.sequence name' (fields ++ more) (some standard)) data length).1 =
          .error (.extensionMismatch true false)) := by
  obtain ⟨hcount, hparts⟩ := Descriptor.everywhere_sequence.mp ht
  have hcount' : (fields ++ more).length < 2 ^ 64 := of_decide_eq_true hcount
  rw [List.length_append] at hcount'
  have hlt : fields.length < 2 ^ 64 := by omega
  have hparts' : ∀ field ∈ fields, field.type.everywhere Descriptor.countable = true := fun field hm =>
    hparts field (List.mem_append_left _ hm)
  have hback : ∀ field ∈ fields, ReadBack field.type := fun field hm => field.type.readBack (hparts' field hm)
  have hholds := holds_of_encode (Descriptor.everywhere_sequence.mpr ⟨decide_eq_true hlt, hparts'⟩) h
  obtain ⟨entries, rfl, hc⟩ := Descriptor.exists_entries hholds.conforms
  have hf := Descriptor.fits_of_within hl ho
  rw [hholds.bits] at hp
  refine ⟨entries, rfl, fun hoptional => ?_, fun hm => ?_⟩
  · by_cases hmore : more = []
    · subst hmore
      rw [List.append_nil] at ht ⊢
      rw [List.map_nil, List.append_nil]
      refine ⟨_, ?_, Descriptor.same_tidy (.sequence name' fields (some standard)) _ hc⟩
      have hconforms : (Descriptor.sequence name' fields (some standard)).conforms (.sequence entries) = true := hc
      rw [← hholds.length]
      exact decode_of_form ht hconforms hd hf hp
    · have hreads := Descriptor.readsField_longer name name' hs hmore hlt hback hc hoptional
      have hlen := Descriptor.length_of_fieldsConform hc
      have hconforms : (Descriptor.sequence name' (fields ++ more) (some standard)).conforms
          (.sequence (entries ++ more.map fun _ => none)) = true := by
        show Descriptor.fieldsConform _ _ = true
        rw [Descriptor.fieldsConform_append _ _ _ hlen, hc, Bool.true_and]
        exact Descriptor.fieldsConform_none hoptional
      refine ⟨_, ?_, Descriptor.same_tidy _ _ hconforms⟩
      rw [decode_of_readsField hreads hd hf hp, hholds.length]
  · obtain ⟨r, hr⟩ := Descriptor.read_longer_refused name name' hs hlt hback hc hm
      (r := .ofView (.ofOctets data length) settings') rfl rfl (Nat.le_trans (Nat.le_of_eq (Nat.zero_add _)) hd) hf hp
    rw [decode, hr]

/-- A report under a type with a field that is new: one that may be missing, and one that may not. -/
theorem decode_longer_report :
    (encode .standard (.sequence "Report" Descriptor.report.fields (some 2)) .report).1 =
      .ok ⟨#[0xF4, 0x04, 0x08, 0x06, 0xAC], 38⟩ ∧
    (∃ found, (decode .standard (.sequence "Report" (Descriptor.report.fields ++
        [⟨"seen", true, .simple "" .boolean false⟩]) (some 2)) #[0xF4, 0x04, 0x08, 0x06, 0xAC] 38).1 =
        .ok ⟨found, 38⟩ ∧
      found.same (.sequence [some (.boolean true), some (.integer 5), some (.octets #[0xAB]), none]) = true) ∧
    (decode .standard (.sequence "Report" (Descriptor.report.fields ++ [⟨"seen", false, .simple "" .boolean false⟩])
      (some 2)) #[0xF4, 0x04, 0x08, 0x06, 0xAC] 38).1 = .error (.extensionMismatch true false) := by
  have h : (encode .standard (.sequence "Report" Descriptor.report.fields (some 2)) .report).1 =
      .ok ⟨#[0xF4, 0x04, 0x08, 0x06, 0xAC], 38⟩ := by cbv
  have hcountable : ∀ optional, (Descriptor.sequence "Report" (Descriptor.report.fields ++
      [⟨"seen", optional, .simple "" .boolean false⟩]) (some 2)).everywhere Descriptor.countable = true := by
    decide +kernel
  have hp : (⟨#[0xF4, 0x04, 0x08, 0x06, 0xAC], 38⟩ : Encoding).toList <+:
      (BitView.ofOctets #[0xF4, 0x04, 0x08, 0x06, 0xAC] 38).toList := List.prefix_iff_eq_take.mpr (by decide +kernel)
  refine ⟨h, ?_, ?_⟩
  · obtain ⟨entries, heq, hoptional, -⟩ := decode_longer .standard (by decide) (hcountable true) h (by decide +kernel)
      (by decide +kernel) (by decide +kernel) hp
    cases heq
    exact hoptional (by decide)
  · obtain ⟨entries, heq, -, hmandatory⟩ := decode_longer .standard (by decide) (hcountable false) h (by decide +kernel)
      (by decide +kernel) (by decide +kernel) hp
    exact hmandatory ⟨_, List.mem_singleton.mpr rfl, rfl⟩

end UnalignedPer
