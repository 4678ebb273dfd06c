import Mathlib
import UnalignedPer.Proofs.Message.WritingSequence

/-!
# What is encoded

Along the type, `Descriptor.write` appends the form of a value when the value conforms, and fails otherwise
(`Descriptor.written`). From this come the two statements about `encode`: which bits it gives, and for which values it gives any.
-/

namespace UnalignedPer

namespace Descriptor

open Writer (WritesField Written)

/-! ## Along the type -/

/-- A value of a type without parts is written as its form. -/
theorem writesField_simple (type : Descriptor) (plain : SimpleType) (value : Value) :
    WritesField (writeSimple type plain value) (simpleConforms type plain value = true) value.nesting
      (simpleBits type plain value) := by
  have hrefuse : simpleConforms type plain value = false → writeSimple type plain value = type.refuse value →
      WritesField (writeSimple type plain value) (simpleConforms type plain value = true) value.nesting
        (simpleBits type plain value) := by
    intro hc hw
    rw [hw]
    exact Writer.writesField_throw _ (by rw [hc]; exact Bool.false_ne_true) _ _
  cases plain <;> cases value
  case null.null =>
    exact Writer.writesField_field fun w => (Packer.writes_pure w ()).writesIf rfl
  case boolean.boolean value =>
    exact Writer.writesField_field fun w => (Packer.writes_bit w value).writesIf rfl
  case integer.integer range value =>
    refine Writer.WritesField.congr
      (Writer.writesField_field fun w => WholeNumber.writesIf_packInteger w _ _ value) ?_
    simp only [simpleConforms, Bool.or_eq_true]
  case octetString.octets size data =>
    refine Writer.WritesField.congr
      (Writer.writesField_field fun w => OctetString.writesIf_pack w _ _ data) ?_
    simp only [simpleConforms, Bool.or_eq_true]
  case bitString.bits size run =>
    refine Writer.WritesField.congr
      (Writer.writesField_field fun w => BitString.writesIf_pack w _ _ run) ?_
    simp only [simpleConforms, Bool.and_eq_true, Bool.or_eq_true]
  case text.text alphabet size data =>
    refine Writer.WritesField.congr
      (Writer.writesField_field fun w => CharacterString.writesIf_pack w _ _ _ data) ?_
    simp only [simpleConforms, Bool.and_eq_true, Bool.or_eq_true, beq_iff_eq, or_assoc]
  all_goals exact hrefuse rfl rfl

/-- The value of an alternative is written as the alternative says. -/
theorem writesField_alternative {alternatives : List (String × Descriptor)}
    (h : ∀ alternative ∈ alternatives, Written alternative.2) {index : Nat} (hi : index < alternatives.length)
    (payload : Value) :
    WritesField (writeAlternative alternatives index payload) (alternativeConforms alternatives index payload = true)
      payload.nesting (alternativeBits alternatives index payload) := by
  induction alternatives generalizing index with
  | nil => exact absurd hi (Nat.not_lt_zero _)
  | cons alternative alternatives ih =>
    cases index with
    | zero => exact h alternative (List.mem_cons_self ..) payload
    | succ index =>
      exact ih (fun a ha => h a (List.mem_cons_of_mem _ ha)) (Nat.lt_of_succ_lt_succ hi)

/-- An element of a list is written as its form; one that is missing is not. -/
theorem writesField_element {element : Descriptor} (h : Written element) (elements : List (Option Value)) {index : Nat}
    (hi : index < elements.length) :
    WritesField (writeElement (fun value => element.write value) elements.toArray index)
      (elements[index].any (fun value => element.conforms value) = true) (Value.nestingOption elements[index])
      ((elements[index].map fun value => element.bits value).getD []) := by
  unfold writeElement
  rw [List.getElem?_toArray, List.getElem?_eq_getElem hi]
  cases elements[index] with
  | none => exact Writer.writesField_throw _ Bool.false_ne_true _ _
  | some value => exact h value

/-- The elements of a list are written as their forms one by one. -/
theorem writesField_getElem {element : Descriptor} (h : Written element) (elements : List (Option Value))
    {units : List (List Bool)}
    (hunits : units = elements.map fun entry => (entry.map fun value => element.bits value).getD []) :
    ∀ i (hi : i < units.length),
      WritesField (writeElement (fun value => element.write value) elements.toArray i)
        (elements[i]?.join.any (fun value => element.conforms value) = true) (Value.nestingOption elements[i]?.join)
        units[i] := by
  intro i hi
  have hi' : i < elements.length := by
    rw [hunits, List.length_map] at hi
    exact hi
  have hu : units[i] = (elements[i].map fun value => element.bits value).getD [] := by
    simp only [hunits, List.getElem_map]
  rw [List.getElem?_eq_getElem hi', hu]
  exact writesField_element h elements hi'

/-- A list is written as its form when its size is right and its elements conform. -/
theorem written_sequenceOf {name : String} {element : Descriptor} {size : Bounds Int64} {extensible : Bool}
    (h : Written element) : Written (.sequenceOf name element size extensible) := by
  intro value
  cases value
  case sequenceOf elements =>
    obtain ⟨c, hc⟩ : ∃ c, c = (Descriptor.sequenceOf name element size extensible).constraint := ⟨_, rfl⟩
    obtain ⟨units, hunits⟩ : ∃ units, units = elements.map fun entry =>
        (entry.map fun value => element.bits value).getD [] := ⟨_, rfl⟩
    have hlen : units.length = elements.length := by rw [hunits, List.length_map]
    have helement := writesField_getElem h elements hunits
    have hnesting : ∀ n, Value.nestingList elements ≤ n ↔
        ∀ i, i < units.length → Value.nestingOption elements[i]?.join ≤ n := by
      intro n
      rw [Value.nestingList_le_iff, hlen]
      constructor
      · intro hn i hi
        rw [List.getElem?_eq_getElem hi]
        exact hn _ (List.getElem_mem hi)
      · intro hn entry he
        obtain ⟨i, hi, rfl⟩ := List.mem_iff_getElem.mp he
        have := hn i hi
        rw [List.getElem?_eq_getElem hi] at this
        exact this
    have hw : (Descriptor.sequenceOf name element size extensible).write (.sequenceOf elements) =
        Writer.sequenceOf c units.length (writeElement (fun value => element.write value) elements.toArray) := by
      rw [hlen, hc, ← List.size_toArray, Descriptor.write]
    have hb : (Descriptor.sequenceOf name element size extensible).bits (.sequenceOf elements) =
        SizedContent.form c.size c.extensible units := by
      rw [hunits, hc]
      rfl
    rw [hw, hb]
    refine Writer.WritesField.congr (Writer.writesField_sequenceOf c helement hnesting) ?_
    have hconforms : (Descriptor.sequenceOf name element size extensible).conforms (.sequenceOf elements) =
        ((c.extensible || SizedContent.inRoot c.size elements.length) &&
          elements.all fun entry => entry.any fun value => element.conforms value) := by
      rw [hc]
      rfl
    rw [hconforms, Bool.and_eq_true, Bool.or_eq_true, List.all_eq_true, hlen]
    refine and_congr_right fun _ => ⟨fun hall entry he => ?_, fun hall i hi => ?_⟩
    · obtain ⟨i, hi, rfl⟩ := List.mem_iff_getElem.mp he
      have := hall i hi
      rw [List.getElem?_eq_getElem hi] at this
      exact this
    · rw [List.getElem?_eq_getElem hi]
      exact hall _ (List.getElem_mem hi)
  all_goals exact Writer.writesField_throw _ Bool.false_ne_true _ _

/-- A value of a type is written as its form, and what is no value of it is not written. -/
theorem written (type : Descriptor) (h : type.everywhere countable = true) : Written type := by
  induction type using Descriptor.induction with
  | simple name plain extensible => exact fun value => writesField_simple _ plain value
  | enumerated name items standard =>
    intro value
    cases value
    case enumerated index =>
      have hlt : (Descriptor.enumerated name items standard).constraint.count < 2 ^ 64 := of_decide_eq_true (of_everywhere h)
      refine Writer.WritesField.congr (Writer.writesField_field fun w => Writer.writesIf_index w _ (Nat.le_of_lt hlt) index) ?_
      exact (decide_eq_true_iff (p := index.toNat < items.length)).symm
    all_goals exact Writer.writesField_throw _ Bool.false_ne_true _ _
  | sequence name fields standard ih =>
    obtain ⟨hcount, hparts⟩ := everywhere_sequence.mp h
    intro value
    cases value
    case sequence entries =>
      by_cases hlen : entries.length = fields.length
      · have hw : (Descriptor.sequence name fields standard).write (.sequence entries) =
            Writer.sequence (Descriptor.sequence name fields standard).constraint (writeFields fields entries) := by
          rw [Descriptor.write]
          exact if_neg (not_not_intro hlen)
        rw [hw]
        exact Writer.writesField_sequence (fun field hf => ih field hf (hparts field hf)) hlen (of_decide_eq_true hcount)
      · have hw : (Descriptor.sequence name fields standard).write (.sequence entries) =
            throw (.unsupported (.fieldCount entries.length (Descriptor.sequence name fields standard).text
              fields.length)) := by
          rw [Descriptor.write]
          exact if_pos hlen
        rw [hw]
        exact Writer.writesField_throw _ (fun hc => hlen (length_of_fieldsConform hc)) _ _
    all_goals exact Writer.writesField_throw _ Bool.false_ne_true _ _
  | sequenceOf name element size extensible ih => exact written_sequenceOf (ih (everywhere_sequenceOf.mp h).2)
  | choice name alternatives standard ih =>
    obtain ⟨hcount, hparts⟩ := everywhere_choice.mp h
    have hlt : (Descriptor.choice name alternatives standard).constraint.count < 2 ^ 64 := of_decide_eq_true hcount
    intro value
    cases value
    case choice index payload =>
      cases payload with
      | none => exact Writer.writesField_throw _ Bool.false_ne_true _ _
      | some payload =>
        refine Writer.WritesField.congr (Writer.writesField_choice _ (Nat.le_of_lt hlt) index fun hi =>
          writesField_alternative (fun a ha => ih a ha (hparts a ha)) hi payload) ?_
        refine and_iff_right_of_imp fun hc => ?_
        rw [alternativeConforms_eq] at hc
        refine Nat.lt_of_not_le fun hle => ?_
        rw [List.getElem?_eq_none hle] at hc
        exact Bool.false_ne_true hc
    all_goals exact Writer.writesField_throw _ Bool.false_ne_true _ _

end Descriptor

/-! ## Whole messages -/

open Writer (Ready)

/-- The writer of an empty message is ready. -/
theorem Writer.ready_ofSettings (settings : Settings) : (ofSettings settings).Ready :=
  ⟨BitBuffer.clean_empty, rfl, Nat.zero_le _, rfl⟩

/-- A value that conforms to its type and does not nest too deep is written as its form, and no other value is. -/
theorem writesIf_message (settings : Settings) {type : Descriptor} (value : Value)
    (ht : type.everywhere Descriptor.countable = true) :
    Packer.WritesIf (Writer.ofSettings settings) (type.conforms value = true ∧ value.nesting ≤ settings.maxDepth)
      (type.write value) (type.bits value) () := by
  have h := ((Descriptor.written type ht) value).alone (Writer.ready_ofSettings settings) rfl
  refine h.congr ?_
  show _ ∧ 0 + value.nesting ≤ settings.maxDepth ↔ _
  rw [Nat.zero_add]

/-- What an encoding is made of. -/
theorem encode_eq_ok {settings : Settings} {type : Descriptor} {value : Value} {e : Encoding}
    (h : (encode settings type value).1 = .ok e) :
    ∃ w, type.write value (.ofSettings settings) = .ok () w ∧ e = ⟨w.buffer.take.1, w.buffer.writePosition⟩ := by
  unfold encode at h
  cases hw : type.write value (.ofSettings settings) with
  | ok u w =>
    rw [hw] at h
    exact ⟨w, rfl, (Except.ok.inj h).symm⟩
  | error fault w =>
    rw [hw] at h
    cases h

/-- What an encoding shows of its value and holds of it. -/
structure Encoding.Holds (e : Encoding) (settings : Settings) (type : Descriptor) (value : Value) : Prop where
  /-- The value is one of the type. -/
  conforms : type.conforms value = true
  /-- The value does not nest too deep. -/
  nesting : value.nesting ≤ settings.maxDepth
  /-- The bits are the form of the value. -/
  bits : e.toList = type.bits value
  /-- There are no more octets than it takes. -/
  size : e.octets.size = Octets.countFor e.bitLength
  /-- What is left of the last octet is zero. -/
  blank : ∀ q, e.bitLength ≤ q → Octets.getBit e.octets q = false

/-- An encoding is as long as the form of its value. -/
theorem Encoding.Holds.length {e : Encoding} {settings : Settings} {type : Descriptor} {value : Value}
    (h : e.Holds settings type value) : (type.bits value).length = e.bitLength := by
  rw [← h.bits]
  exact Octets.length_bitsFrom _ _ _

/-- What was encoded holds the form of its value. -/
theorem holds_of_encode {settings : Settings} {type : Descriptor} {value : Value} {e : Encoding}
    (ht : type.everywhere Descriptor.countable = true) (h : (encode settings type value).1 = .ok e) :
    e.Holds settings type value := by
  obtain ⟨w, hm, he⟩ := encode_eq_ok h
  obtain ⟨⟨hc, hd⟩, -, hw⟩ := (writesIf_message settings value ht).of_ok hm
  have hclean : w.buffer.Clean := hw.1.clean BitBuffer.clean_empty
  have hlist : w.buffer.toList = type.bits value := hw.1.toList
  rw [BitBuffer.take_fst_eq_content hclean] at he
  rw [he]
  refine ⟨hc, hd, ?_, BitBuffer.size_content hclean, fun q hq => ?_⟩
  · rw [← hlist]
    exact Octets.bitsFrom_congr fun i _ => BitBuffer.getBit_content hclean _
  · show Octets.getBit w.buffer.content q = false
    rw [BitBuffer.getBit_content hclean]
    exact hclean.blank q hq

/-- A value that conforms to its type and does not nest too deep is encoded. -/
theorem exists_encode {settings : Settings} {type : Descriptor} {value : Value}
    (ht : type.everywhere Descriptor.countable = true) (hc : type.conforms value = true)
    (hd : value.nesting ≤ settings.maxDepth) : ∃ e, (encode settings type value).1 = .ok e := by
  obtain ⟨w, hm, _⟩ := (writesIf_message settings value ht).1 ⟨hc, hd⟩
  exact ⟨⟨w.buffer.take.1, w.buffer.writePosition⟩, by rw [encode, hm]; rfl⟩

/-- A value is encoded as its form, in as few octets as possible, and what is left of the last octet is zero. -/
theorem encode_bits {settings : Settings} {type : Descriptor} {value : Value} {e : Encoding}
    (ht : type.everywhere Descriptor.countable = true) (h : (encode settings type value).1 = .ok e) :
    e.toList = type.bits value ∧ e.octets.size = Octets.countFor e.bitLength ∧
      ∀ q, e.bitLength ≤ q → Octets.getBit e.octets q = false :=
  have hholds := holds_of_encode ht h
  ⟨hholds.bits, hholds.size, hholds.blank⟩

/-- A type with an optional field, a mandatory one and an extension. -/
def Descriptor.report : Descriptor :=
  .sequence "Report"
    [⟨"urgent", true, .simple "" .boolean false⟩, ⟨"code", false, .simple "" (.integer ⟨some 0, some 7⟩) false⟩,
      ⟨"note", false, .simple "" (.octetString .free) false⟩]
    (some 2)

/-- A value of that type. -/
def Value.report : Value :=
  .sequence [some (.boolean true), some (.integer 5), some (.octets #[0xAB])]

/-- The extension marker, a presence bit, the two standard fields and the extension block. -/
theorem encode_bits_report : (encode .standard .report .report).1 = .ok ⟨#[0xF4, 0x04, 0x08, 0x06, 0xAC], 38⟩ ∧
    Octets.bitsFrom #[0xF4, 0x04, 0x08, 0x06, 0xAC] 0 38 = Descriptor.report.bits .report :=
  have h : (encode .standard .report .report).1 = .ok ⟨#[0xF4, 0x04, 0x08, 0x06, 0xAC], 38⟩ := by cbv
  ⟨h, (encode_bits (by decide +kernel) h).1⟩

/-- The values that are encoded are those of the type that do not nest too deep. -/
theorem encode_ok_iff (settings : Settings) {type : Descriptor} (value : Value)
    (ht : type.everywhere Descriptor.countable = true) :
    (∃ e, (encode settings type value).1 = .ok e) ↔ type.conforms value = true ∧ value.nesting ≤ settings.maxDepth := by
  constructor
  · rintro ⟨e, he⟩
    have hholds := holds_of_encode ht he
    exact ⟨hholds.conforms, hholds.nesting⟩
  · rintro ⟨hc, hd⟩
    exact exists_encode ht hc hd

/-- An optional field, a mandatory one and an extension. -/
theorem encode_ok_iff_report : Descriptor.report.everywhere Descriptor.countable = true ∧
    ∃ e, (encode .standard .report .report).1 = .ok e :=
  have hc : Descriptor.report.everywhere Descriptor.countable = true := by decide +kernel
  ⟨hc, (encode_ok_iff .standard .report hc).mpr ⟨by decide +kernel, by decide +kernel⟩⟩

end UnalignedPer
