import UnalignedPer.Proofs.InStep
import UnalignedPer.Proofs.Message.Compatibility

/-!
# Fields that are not asked for

A body need not read all extension fields of a sequence. Whether it stops at the extension marker or anywhere behind it, the
sequence is left at its end: an extension block that was not opened is opened then, and what no field asked for is skipped
(`Reader.sequence_stopsEarly`).
-/

namespace UnalignedPer

open Reader (ReadsField)

/-- What the writer accepts for the fields of a sequence conforms to them, and what it appends is the form of the sequence. -/
theorem Writer.conforms_of_sequence {name : String} {fields : List (Field Descriptor)} {standard : Option Nat}
    {entries : List (Option Value)} (h : ∀ field ∈ fields, Written field.type) (hlt : fields.length < 2 ^ 64)
    (hlen : entries.length = fields.length) {w w1 w2 : Writer} {openType : Bool}
    (henter : Writer.enterField w = .ok openType w1) (hready : w1.Ready)
    (hm : Writer.sequence (Descriptor.sequence name fields standard).constraint (Descriptor.writeFields fields entries) w =
      .ok () w2) :
    Descriptor.fieldsConform fields entries = true ∧
      w2.buffer.toList = w1.buffer.toList ++
        let bits := (Descriptor.sequence name fields standard).bits (.sequence entries)
        if openType then OpenType.form bits else bits := by
  obtain ⟨hok, hfail⟩ := Writer.writesField_sequence h hlen hlt w w1 openType henter hready
  by_cases hc : Descriptor.fieldsConform fields entries = true ∧
      w1.depth + (Value.nestingList entries + 1) ≤ w1.settings.maxDepth
  · obtain ⟨w3, hm3, hw3⟩ := hok hc
    rw [hm] at hm3
    cases hm3
    exact ⟨hc.1, hw3.1.toList⟩
  · obtain ⟨fault, w3, hm3⟩ := hfail hc
    rw [hm] at hm3
    cases hm3

/-- A body may stop reading extension fields early. Of an extensible sequence that was written, wherever it stands and whatever
follows it, the standard fields and any number of extension fields may be read: they are found as they were written, whichever
fields are there, and the reader moves over the form of the whole sequence. The reader has to admit strings, lists and open types
as long as those of the fields that are read. -/
theorem Reader.sequence_stopsEarly {name : String} {fields : List (Field Descriptor)} {standard : Nat}
    {entries : List (Option Value)} (hs : standard < fields.length)
    (ht : (Descriptor.sequence name fields (some standard)).everywhere Descriptor.countable = true)
    (hlen : entries.length = fields.length) {w w1 w2 : Writer} {openType : Bool}
    (henter : Writer.enterField w = .ok openType w1) (hready : w1.Ready)
    (hm : Writer.sequence (Descriptor.sequence name fields (some standard)).constraint
      (Descriptor.writeFields fields entries) w = .ok () w2) :
    let c := (Descriptor.sequence name fields (some standard)).constraint
    ∃ bits, w2.buffer.toList = w1.buffer.toList ++ (if openType then OpenType.form bits else bits) ∧
      ∀ k, k ≤ c.extensionCount →
        let known := fields.take (standard + k)
        let kept := entries.take (standard + k)
        ∃ found, (Value.sequence found).same (.sequence kept) = true ∧
          ReadsField (Reader.sequence c (Descriptor.readFields known))
            ((Descriptor.sequence name known (some standard)).Fits (.sequence kept)) (Value.sequence kept).nesting bits found := by
  intro c
  obtain ⟨hcount, hparts⟩ := Descriptor.everywhere_sequence.mp ht
  have hlt : fields.length < 2 ^ 64 := of_decide_eq_true hcount
  obtain ⟨hc, hlist⟩ := Writer.conforms_of_sequence (fun field hf => field.type.written (hparts field hf)) hlt hlen henter
    hready hm
  refine ⟨_, hlist, fun k hk => ?_⟩
  have hextensions : c.extensionCount = fields.length - standard := by
    rw [Descriptor.extensionCount_sequence, Descriptor.rootCount_some (Nat.le_of_lt hs)]
  have hknown : (fields.take (standard + k)).length = standard + k := List.length_take_of_le (by omega)
  have htake : (entries.take (standard + k)).length = (fields.take (standard + k)).length := by
    rw [List.length_take, List.length_take, hlen]
  have hkept : Descriptor.fieldsConform (fields.take (standard + k)) (entries.take (standard + k)) = true := by
    rw [← List.take_append_drop (standard + k) fields, ← List.take_append_drop (standard + k) entries,
      Descriptor.fieldsConform_append _ _ _ htake, Bool.and_eq_true] at hc
    exact hc.1
  have hmarker : standard ≤ (fields.take (standard + k)).length := by omega
  have hpos : c.extensionCount ≠ 0 := by omega
  have hwhole : (fields.take (standard + k) ++ fields.drop (standard + k)).length < 2 ^ 64 := by
    rw [List.take_append_drop]
    exact hlt
  have hskipped : (entries.drop (standard + k)).length = (fields.drop (standard + k)).length := by
    rw [List.length_drop, List.length_drop, hlen]
  obtain ⟨hstandard, hoptional⟩ := Descriptor.root_append name name (fields.drop (standard + k)) hmarker
  rw [List.take_append_drop] at hstandard hoptional
  have hreads := Reader.readsField_known name name hmarker hwhole hskipped
    (fun field hf => field.type.readBack (hparts field (List.mem_of_mem_take hf))) hkept rfl hpos hstandard hoptional
  rw [List.take_append_drop, List.take_append_drop] at hreads
  exact ⟨_, Descriptor.same_tidy (.sequence name _ (some standard)) (.sequence _) hkept, hreads⟩

/-- A report with two extension fields in front of other bits, of which both, one or none are read. -/
theorem Reader.sequence_stopsEarly_report :
    let fields := Descriptor.report.fields ++ [⟨"seen", false, .simple "" .boolean false⟩]
    let entries := [some (.boolean true), some (.integer 5), some (.octets #[0xAB]), some (.boolean true)]
    let c := (Descriptor.sequence "Report" fields (some 2)).constraint
    let r := Reader.ofView (.ofOctets #[0xF4, 0x0E, 0x04, 0x03, 0x56, 0x03, 0x00, 0xFF] 64) .standard
    (∃ w, Writer.sequence c (Descriptor.writeFields fields entries) (.ofSettings .standard) = .ok () w) ∧
    ∀ k, k ≤ 2 → ∃ found r', Reader.sequence c (Descriptor.readFields (fields.take (2 + k))) r = .ok found r' ∧
      (Value.sequence found).same (.sequence (entries.take (2 + k))) = true ∧ r'.view.position = 55 := by
  intro fields entries c r
  have hwritten : resultOf (Writer.sequence c (Descriptor.writeFields fields entries)) (.ofSettings .standard) = some () := by
    decide +kernel
  have hahead : (outcome (Writer.sequence c (Descriptor.writeFields fields entries)) (.ofSettings .standard)).2.buffer.toList <+:
      r.view.toList := List.prefix_iff_eq_take.mpr (by decide +kernel)
  have hlength : (outcome (Writer.sequence c (Descriptor.writeFields fields entries))
      (.ofSettings .standard)).2.buffer.toList.length = 55 := by decide +kernel
  have hfits : ∀ k, k ≤ 2 → (Value.sequence (entries.take (2 + k))).nesting ≤ Settings.standard.maxDepth ∧
      (Value.sequence (entries.take (2 + k))).lengthsWithin Settings.standard.maxLength.toNat = true ∧
      (Descriptor.sequence "Report" (fields.take (2 + k)) (some 2)).contentsWithin Settings.standard.maxLength.toNat
        (.sequence (entries.take (2 + k))) = true := by decide +kernel
  obtain ⟨w, hm⟩ := resultOf_eq_some.mp hwritten
  rw [outcome_ok hm] at hahead hlength
  refine ⟨⟨w, hm⟩, fun k hk => ?_⟩
  obtain ⟨bits, hbits, hall⟩ := Reader.sequence_stopsEarly (by decide) (by decide +kernel) rfl
    (Writer.enterField_of_none rfl rfl) ⟨BitBuffer.clean_empty, rfl, Nat.zero_le _, rfl⟩ hm
  have hform : w.buffer.toList = bits := hbits
  rw [hform] at hahead hlength
  obtain ⟨found, hsame, hreads⟩ := hall k (Nat.le_trans hk (by decide +kernel))
  obtain ⟨hdepth, hlengths, hcontents⟩ := hfits k hk
  obtain ⟨r', hread, hmoved⟩ := hreads r r false (Reader.enterField_of_none rfl rfl) rfl
    (Nat.le_trans (Nat.le_of_eq (Nat.zero_add _)) hdepth) (Descriptor.fits_of_within hlengths hcontents)
    (fun hfalse => absurd hfalse Bool.false_ne_true) hahead
  refine ⟨found, r', hread, hsame, ?_⟩
  have hview : r'.view = { r.view with position := r.view.position + bits.length } := hmoved.1.view.1
  rw [hview]
  exact (Nat.zero_add _).trans hlength

end UnalignedPer
