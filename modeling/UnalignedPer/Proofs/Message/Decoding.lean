import UnalignedPer.Proofs.Message.Encoding
import UnalignedPer.Proofs.Message.ReadingSequence

/-!
# What is encoded is decoded

Along the type, `Descriptor.read` takes the form of a value and gives the value back (`Descriptor.readBack`), with its bit
strings in as few octets as possible, which makes no difference (`Descriptor.same_tidy`). So a message is decoded to the value
that was encoded, whatever bits follow it.
-/

namespace UnalignedPer

namespace Descriptor

open Reader (ReadsField ReadBack)

/-- Whether a value fits can be decided. -/
theorem fits_of_within {type : Descriptor} {value : Value} {limit : Nat} (hl : value.lengthsWithin limit = true)
    (ho : type.contentsWithin limit value = true) : type.Fits value limit :=
  ⟨hl, fun content hm => of_decide_eq_true (List.all_eq_true.mp ho content hm)⟩

/-! ## Along the type -/

/-- What follows the greatest decoded length. -/
theorem takes_maxLength_bind {α : Type} {r : Reader} {f : Option Nat → ReaderM α} {bits : List Bool} {result : α}
    (h : ∀ r', Unpacker.Takes r' (f (some r.settings.maxLength.toNat)) bits result) :
    Unpacker.Takes r (Reader.maxLength >>= f) bits result :=
  (Reader.takes_maxLength r).bind fun r' _ => h r'

/-- A value of a type without parts is read back. -/
theorem readsField_simple (type : Descriptor) (plain : SimpleType) {value : Value}
    (h : simpleConforms type plain value = true) :
    ReadsField (readSimple type plain) (fun limit => value.lengthsWithin limit = true) value.nesting
      (simpleBits type plain value) value.tidy := by
  have hlimit : ∀ {size limit : Nat}, decide (size ≤ limit) = true → ∀ l, some limit = some l → size ≤ l := by
    intro size limit hd l hl
    cases hl
    exact of_decide_eq_true hd
  cases plain <;> cases value
  case null.null =>
    have hnull : ReadsField Reader.null (fun limit => Value.null.lengthsWithin limit = true) 0 [] () :=
      Reader.readsField_field fun r _ => Unpacker.takes_pure r ()
    refine hnull.mono fun r r' hm => ?_
    show (Reader.null >>= fun _ => pure Value.null) r = _
    simp only [run_bind, hm]
    rfl
  case boolean.boolean value =>
    exact (Reader.readsField_field fun r _ => Unpacker.takes_bit r value).map Value.boolean
  case integer.integer range value =>
    simp only [simpleConforms, Bool.or_eq_true] at h
    exact (Reader.readsField_field fun r _ => WholeNumber.takes_unpackInteger r h).map Value.integer
  case octetString.octets size data =>
    simp only [simpleConforms, Bool.or_eq_true] at h
    exact (Reader.readsField_field fun r hl => takes_maxLength_bind fun r' =>
      OctetString.takes_unpack r' (hlimit hl) h).map Value.octets
  case bitString.bits size run =>
    simp only [simpleConforms, Bool.and_eq_true, Bool.or_eq_true] at h
    exact (Reader.readsField_field fun r hl => takes_maxLength_bind fun r' =>
      BitString.takes_unpack r' (hlimit hl) h.2).map Value.bits
  case text.text alphabet size data =>
    simp only [simpleConforms, Bool.and_eq_true, Bool.or_eq_true, beq_iff_eq, or_assoc] at h
    exact (Reader.readsField_field fun r hl => takes_maxLength_bind fun r' =>
      CharacterString.takes_unpack r' h.1 (hlimit hl) h.2).map Value.text
  all_goals exact absurd h Bool.false_ne_true

/-- The value of an alternative is read back as the alternative says. -/
theorem readsField_alternative {alternatives : List (String × Descriptor)}
    (h : ∀ alternative ∈ alternatives, ReadBack alternative.2) {index : Nat} {alternative : String × Descriptor}
    (ha : alternatives[index]? = some alternative) {payload : Value} (hc : alternative.2.conforms payload = true) :
    ReadsField (readAlternative alternatives index) (alternative.2.Fits payload) payload.nesting
      (alternative.2.bits payload) (some payload.tidy) := by
  induction alternatives generalizing index with
  | nil => exact absurd ha (by simp)
  | cons first alternatives ih =>
    cases index with
    | zero =>
      obtain rfl : first = alternative := by simpa using ha
      exact (h first (List.mem_cons_self ..) payload hc).map some
    | succ index => exact ih (fun a hm => h a (List.mem_cons_of_mem _ hm)) (by simpa using ha)

/-- A list is read back when its elements are. -/
theorem readBack_sequenceOf {name : String} {element : Descriptor} {size : Bounds Int64} {extensible : Bool}
    (h : ReadBack element) : ReadBack (.sequenceOf name element size extensible) := by
  intro value hc
  cases value
  case sequenceOf elements =>
    obtain ⟨c, hcon⟩ : ∃ c, c = (Descriptor.sequenceOf name element size extensible).constraint := ⟨_, rfl⟩
    have hconforms : (Descriptor.sequenceOf name element size extensible).conforms (.sequenceOf elements) =
        ((c.extensible || SizedContent.inRoot c.size elements.length) &&
          elements.all fun entry => entry.any fun value => element.conforms value) := by
      rw [hcon]
      rfl
    rw [hconforms, Bool.and_eq_true, Bool.or_eq_true, List.all_eq_true] at hc
    obtain ⟨hs, hall⟩ := hc
    obtain ⟨units, hunits⟩ : ∃ units, units = elements.map fun entry =>
        (entry.map fun value => element.bits value).getD [] := ⟨_, rfl⟩
    have hlen : units.length = elements.length := by rw [hunits, List.length_map]
    have hlen' : (Value.tidyList elements).length = units.length := by
      rw [hlen, Value.tidyList_eq_map, List.length_map]
    rw [← hlen] at hs
    have hfits : ∀ value, some value ∈ elements → ∀ limit,
        (Descriptor.sequenceOf name element size extensible).Fits (.sequenceOf elements) limit → element.Fits value limit := by
      rintro value hm limit ⟨hl, hcont⟩
      rw [Value.lengthsWithin, Bool.and_eq_true, Value.lengthsWithinList_iff] at hl
      refine ⟨hl.2 _ hm, fun content hin => hcont content ?_⟩
      rw [openContents]
      exact List.mem_flatMap.mpr ⟨some value, hm, hin⟩
    have helement : ∀ i (_ : i < units.length) (_ : i < (Value.tidyList elements).length),
        ReadsField (some <$> element.read) ((Descriptor.sequenceOf name element size extensible).Fits (.sequenceOf elements))
          (Value.nestingList elements) units[i] (Value.tidyList elements)[i] := by
      intro i hi hi'
      have hm : elements[i] ∈ elements := List.getElem_mem (by omega)
      have hu : units[i] = (elements[i].map fun value => element.bits value).getD [] := by
        simp only [hunits, List.getElem_map]
      have ht : (Value.tidyList elements)[i] = Value.tidyOption elements[i] := by
        simp only [Value.tidyList_eq_map, List.getElem_map]
      rw [hu, ht]
      cases he : elements[i] with
      | none => exact absurd (hall _ hm) (by rw [he]; exact Bool.false_ne_true)
      | some value =>
        rw [he] at hm
        have hnest := (Value.nestingList_le_iff elements _).mp (Nat.le_refl _) _ hm
        exact ((h value (hall _ hm)).weaken hnest (hfits value hm)).map some
    have hfield := (Reader.readsField_sequenceOf c hlen' helement hs).weaken (Nat.le_refl _)
      (fun limit (hn : (Descriptor.sequenceOf name element size extensible).Fits (.sequenceOf elements) limit) => by
        refine ⟨?_, hn⟩
        have hl := hn.1
        rw [Value.lengthsWithin, Bool.and_eq_true] at hl
        rw [hlen]
        exact of_decide_eq_true hl.1)
    have hb : (Descriptor.sequenceOf name element size extensible).bits (.sequenceOf elements) =
        SizedContent.form c.size c.extensible units := by
      rw [hunits, hcon]
      rfl
    rw [hb]
    refine hfield.mono fun r r' hm => ?_
    rw [hcon] at hm
    rw [read]
    simp only [run_bind, hm]
    rfl
  all_goals exact absurd hc Bool.false_ne_true

/-- A choice is read back when its alternatives are. -/
theorem readBack_choice {name : String} {alternatives : List (String × Descriptor)} {standard : Option Nat}
    (hlt : (Descriptor.choice name alternatives standard).constraint.count < 2 ^ 64)
    (h : ∀ alternative ∈ alternatives, ReadBack alternative.2) : ReadBack (.choice name alternatives standard) := by
  intro value hc
  obtain ⟨index, payload, alternative, rfl, ha, hpayload⟩ := exists_alternative hc
  obtain ⟨c, hcon⟩ : ∃ c, c = (Descriptor.choice name alternatives standard).constraint := ⟨_, rfl⟩
  have hi : index.toNat < c.count := by
    rw [hcon]
    exact (List.getElem?_eq_some_iff.mp ha).1
  have hread := Reader.readsField_choice c (Nat.le_of_lt (by rw [hcon]; exact hlt)) hi
    (fun index => readAlternative alternatives index.toNat) (readsField_alternative h ha hpayload)
  have hbits : (Descriptor.choice name alternatives standard).bits (.choice index (some payload)) =
      ChoiceIndex.form c.standardCount c.extensible index.toNat ++
        if c.standardCount ≤ index.toNat then OpenType.form (alternative.2.bits payload)
        else alternative.2.bits payload := by
    rw [hcon, ← alternativeBits_eq ha]
    rfl
  have hopen : (Descriptor.choice name alternatives standard).openContents (.choice index (some payload)) =
      (if c.standardCount ≤ index.toNat then [alternative.2.bits payload] else []) ++ alternative.2.openContents payload := by
    rw [hcon, ← alternativeBits_eq ha, ← alternativeContents_eq ha]
    rfl
  rw [hbits]
  refine (hread.weaken (Nat.le_refl _) ?_).mono ?_
  · rintro limit ⟨hl, hcont⟩
    rw [hopen] at hcont
    refine ⟨⟨hl, fun content hm => hcont content (List.mem_append_right _ hm)⟩, fun hext => ?_⟩
    refine hcont _ (List.mem_append_left _ ?_)
    rw [if_pos hext]
    exact List.mem_singleton.mpr rfl
  · intro r r' hm
    rw [hcon] at hm
    rw [read]
    simp only [run_bind, hm]
    rfl

/-- A value of a type is read back from its form. -/
theorem readBack (type : Descriptor) (h : type.everywhere countable = true) : ReadBack type := by
  induction type using Descriptor.induction with
  | simple name plain extensible =>
    exact fun value hc => (readsField_simple _ plain hc).weaken (Nat.le_refl _) fun limit hn => hn.1
  | enumerated name items standard =>
    intro value hc
    cases value
    case enumerated index =>
      have hlt : (Descriptor.enumerated name items standard).constraint.count < 2 ^ 64 := of_decide_eq_true (of_everywhere h)
      have hi : index.toNat < (Descriptor.enumerated name items standard).constraint.count := of_decide_eq_true hc
      refine Reader.ReadsField.mono (Reader.readsField_field fun r _ => Reader.takes_index r (Nat.le_of_lt hlt) hi) ?_
      intro r r' hm
      have hm' : Reader.enumerated (Descriptor.enumerated name items standard).constraint r = .ok index r' := hm
      rw [read]
      simp only [run_bind, hm']
      rfl
    all_goals exact absurd hc Bool.false_ne_true
  | sequence name fields standard ih =>
    obtain ⟨hcount, hparts⟩ := everywhere_sequence.mp h
    intro value hc
    cases value
    case sequence entries =>
      refine (Reader.readsField_sequence (fun field hf => ih field hf (hparts field hf)) (of_decide_eq_true hcount) hc).mono ?_
      intro r r' hm
      rw [read]
      simp only [run_bind, hm]
      rfl
    all_goals exact absurd hc Bool.false_ne_true
  | sequenceOf name element size extensible ih => exact readBack_sequenceOf (ih (everywhere_sequenceOf.mp h).2)
  | choice name alternatives standard ih =>
    obtain ⟨hcount, hparts⟩ := everywhere_choice.mp h
    exact readBack_choice (of_decide_eq_true hcount) fun alternative hm => ih alternative hm (hparts alternative hm)

/-! ## Tidy values -/

/-- The entries of some fields are the same as their tidy forms. -/
theorem sameList_tidy {entries : List (Option Value)}
    (h : ∀ value, some value ∈ entries → value.tidy.same value = true) :
    Value.sameList (Value.tidyList entries) entries = true := by
  induction entries with
  | nil => rfl
  | cons entry entries ih =>
    rw [Value.tidyList, Value.sameList, ih fun value hm => h value (List.mem_cons_of_mem _ hm), Bool.and_true]
    cases entry with
    | none => rfl
    | some value => exact h value (List.mem_cons_self ..)

/-- The entries that conform to some fields are of the types of these fields. -/
theorem exists_of_fieldsConform {fields : List (Field Descriptor)} {entries : List (Option Value)}
    (h : fieldsConform fields entries = true) {value : Value} (hm : some value ∈ entries) :
    ∃ field ∈ fields, field.type.conforms value = true := by
  induction fields generalizing entries with
  | nil =>
    rw [List.eq_nil_of_length_eq_zero (length_of_fieldsConform h)] at hm
    exact absurd hm List.not_mem_nil
  | cons field fields ih =>
    cases entries with
    | nil => exact absurd h Bool.false_ne_true
    | cons entry entries =>
      rw [fieldsConform_cons, Bool.and_eq_true] at h
      rcases List.mem_cons.mp hm with rfl | hm
      · exact ⟨field, List.mem_cons_self .., h.1⟩
      · obtain ⟨f, hf, hc⟩ := ih h.2 hm
        exact ⟨f, List.mem_cons_of_mem _ hf, hc⟩

/-- A value of a type is the same as its tidy form. -/
theorem same_tidy (type : Descriptor) : ∀ value, type.conforms value = true → value.tidy.same value = true := by
  induction type using Descriptor.induction with
  | simple name plain extensible =>
    intro value hc
    cases value
    case bits run =>
      cases plain
      case bitString size =>
        have hc' : simpleConforms (.simple name (.bitString size) extensible) (.bitString size) (.bits run) = true := hc
        simp only [simpleConforms, Bool.and_eq_true] at hc'
        exact BitString.same_tidy hc'.1
      all_goals exact absurd hc Bool.false_ne_true
    case null => rfl
    case sequence => cases plain <;> exact absurd hc Bool.false_ne_true
    case sequenceOf => cases plain <;> exact absurd hc Bool.false_ne_true
    case choice => cases plain <;> exact absurd hc Bool.false_ne_true
    all_goals exact beq_self_eq_true _
  | enumerated name items standard =>
    intro value hc
    cases value
    case enumerated index => exact beq_self_eq_true index
    all_goals exact absurd hc Bool.false_ne_true
  | sequence name fields standard ih =>
    intro value hc
    cases value
    case sequence entries =>
      refine sameList_tidy fun value hm => ?_
      obtain ⟨field, hf, hcv⟩ := exists_of_fieldsConform hc hm
      exact ih field hf value hcv
    all_goals exact absurd hc Bool.false_ne_true
  | sequenceOf name element size extensible ih =>
    intro value hc
    cases value
    case sequenceOf elements =>
      rw [conforms, Bool.and_eq_true, List.all_eq_true] at hc
      exact sameList_tidy fun value hm => ih value (hc.2 _ hm)
    all_goals exact absurd hc Bool.false_ne_true
  | choice name alternatives standard ih =>
    intro value hc
    obtain ⟨index, payload, alternative, rfl, ha, hpayload⟩ := exists_alternative hc
    have hsame := ih alternative (List.mem_of_getElem? ha) payload hpayload
    show (index == index && payload.tidy.same payload) = true
    rw [hsame, beq_self_eq_true]
    rfl

end Descriptor

/-! ## Whole messages -/

/-- What is read as a field is decoded from its form, whatever follows it. -/
theorem decode_of_readsField {settings : Settings} {type : Descriptor} {found : Value} {needs : Nat → Prop} {nesting : Nat}
    {bits : List Bool} (h : Reader.ReadsField type.read needs nesting bits found) (hd : nesting ≤ settings.maxDepth)
    (hn : needs settings.maxLength.toNat) {data : Octets} {length : Nat} (hp : bits <+: (BitView.ofOctets data length).toList) :
    (decode settings type data length).1 = .ok ⟨found, bits.length⟩ := by
  obtain ⟨r, hr⟩ : ∃ r, r = Reader.ofView (BitView.ofOctets data length) settings := ⟨_, rfl⟩
  have htakes := h.alone (r := r) (by rw [hr]; rfl) (by rw [hr]; rfl)
    (by rw [hr]; show 0 + nesting ≤ settings.maxDepth; omega) (by rw [hr]; exact hn)
  obtain ⟨r', hm, hmoved⟩ := htakes (by rw [hr]; exact hp)
  obtain ⟨hview, _⟩ := hmoved.1.view
  have hpos : r'.view.position = bits.length := by
    rw [hview, hr]
    exact Nat.zero_add _
  rw [hr] at hm
  rw [decode, hm, ← hpos]

/-- The form of a value that conforms to its type is decoded to the value, whatever follows it. -/
theorem decode_of_form {settings : Settings} {type : Descriptor} {value : Value}
    (ht : type.everywhere Descriptor.countable = true) (hc : type.conforms value = true)
    (hd : value.nesting ≤ settings.maxDepth) (hf : type.Fits value settings.maxLength.toNat) {data : Octets} {length : Nat}
    (hp : type.bits value <+: (BitView.ofOctets data length).toList) :
    (decode settings type data length).1 = .ok ⟨value.tidy, (type.bits value).length⟩ :=
  decode_of_readsField (type.readBack ht value hc) hd hf hp

/-- What was encoded is decoded to the same value from any bits that start with the encoding, and just the bits of the encoding
are read. The decoder has to admit strings, lists and open types as long as those of the value. -/
theorem decode_encode {settings : Settings} {type : Descriptor} {value : Value} {e : Encoding}
    (ht : type.everywhere Descriptor.countable = true) (h : (encode settings type value).1 = .ok e)
    (hl : value.lengthsWithin settings.maxLength.toNat = true)
    (ho : type.contentsWithin settings.maxLength.toNat value = true) {data : Octets} {length : Nat}
    (hp : e.toList <+: (BitView.ofOctets data length).toList) :
    ∃ found, (decode settings type data length).1 = .ok ⟨found, e.bitLength⟩ ∧ found.same value = true := by
  have hholds := holds_of_encode ht h
  rw [hholds.bits] at hp
  have hf := Descriptor.fits_of_within hl ho
  refine ⟨value.tidy, ?_, type.same_tidy value hholds.conforms⟩
  rw [decode_of_form ht hholds.conforms hholds.nesting hf hp, hholds.length]

/-- The encoding of a report, followed by three more octets. -/
theorem decode_encode_report : (encode .standard .report .report).1 = .ok ⟨#[0xF4, 0x04, 0x08, 0x06, 0xAC], 38⟩ ∧
    ∃ found, (decode .standard .report #[0xF4, 0x04, 0x08, 0x06, 0xAD, 0xFF, 0x00, 0x5A] 64).1 = .ok ⟨found, 38⟩ ∧
      found.same .report = true :=
  have h : (encode .standard .report .report).1 = .ok ⟨#[0xF4, 0x04, 0x08, 0x06, 0xAC], 38⟩ := by cbv
  ⟨h, decode_encode (by decide +kernel) h (by decide +kernel) (by decide +kernel)
    (List.prefix_iff_eq_take.mpr (by decide +kernel))⟩

end UnalignedPer
