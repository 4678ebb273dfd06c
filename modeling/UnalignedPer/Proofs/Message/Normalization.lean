import UnalignedPer.Proofs.Message.AdmissionTypes
import UnalignedPer.Proofs.Message.Decoding
import UnalignedPer.Proofs.Schema.Origin

/-!
# What is decoded is encoded again

Whatever bits a value is read from, it conforms to its type, nests no deeper than is allowed, and its strings and lists are no
longer than that (`Descriptor.admissible_inherited`). So it has a form, to which every other encoding of it normalizes.
-/

namespace UnalignedPer

namespace Descriptor

open Reader (AdmitsField)

variable {room depth : Nat} {settings : Settings}

/-! ## Along the type -/

/-- A value that a reader lets through at a depth and under some settings. -/
structure Admissible (type : Descriptor) (depth : Nat) (settings : Settings) (value : Value) : Prop where
  /-- It is a value of the type. -/
  conforms : type.conforms value = true
  /-- It does not nest too deep. -/
  nesting : depth + value.nesting ≤ settings.maxDepth
  /-- Its strings and lists are not too long. -/
  lengths : value.lengthsWithin settings.maxLength.toNat = true

/-- That a value is let through, if the numbers of its type are not open below only. -/
def AdmissibleIf (settings : Settings) (type : Descriptor) (depth : Nat) (value : Value) : Prop :=
  type.everywhere floored = true → type.Admissible depth settings value

/-- A value of a type without parts. -/
theorem admitsField_simple (name : String) (plain : SimpleType) (extensible : Bool)
    (ho : (simple name plain extensible).ordered = true) (hd : depth ≤ settings.maxDepth) :
    AdmitsField room depth settings (readSimple (.simple name plain extensible) plain)
      (AdmissibleIf settings (simple name plain extensible) depth) := by
  have hsize := size_ordered ho
  cases plain with
  | null =>
    have hnull : AdmitsField room depth settings Reader.null fun _ => True :=
      Reader.admitsField_field (Reader.admits_pure trivial)
    exact hnull.bind fun _ _ => Reader.admits_pure fun _ => ⟨rfl, hd, rfl⟩
  | boolean =>
    have hbit : AdmitsField room depth settings Reader.boolean fun _ => True :=
      Reader.admitsField_field (Reader.admits_of_gives fun r _ => Unpacker.gives_bit r)
    exact hbit.map Value.boolean fun _ _ _ => ⟨rfl, hd, rfl⟩
  | integer range =>
    refine (Reader.admitsField_integer _).map Value.integer fun value hv hf => ⟨Bool.or_eq_true_iff.mpr (hv ?_), hd, rfl⟩
    have hf' : floored (simple name (.integer range) extensible) = true := hf
    rwa [floored, Bool.or_eq_true, Bool.or_eq_true, Option.isNone_iff_eq_none, or_assoc] at hf'
  | octetString size =>
    refine (Reader.admitsField_octetString _ hsize).map Value.octets ?_
    rintro data ⟨hl, hs⟩ -
    exact ⟨Bool.or_eq_true_iff.mpr hs, hd, decide_eq_true hl⟩
  | bitString size =>
    refine (Reader.admitsField_bitString _ hsize).map Value.bits ?_
    rintro run ⟨⟨hcov, hl, hs⟩, -⟩ -
    exact ⟨Bool.and_eq_true_iff.mpr ⟨hcov, Bool.or_eq_true_iff.mpr hs⟩, hd, decide_eq_true hl⟩
  | text alphabet size =>
    refine (Reader.admitsField_characterString _ hsize).map Value.text ?_
    rintro data ⟨hlegal, hl, hs⟩ -
    refine ⟨?_, hd, decide_eq_true hl⟩
    simp only [conforms, simpleConforms, Bool.and_eq_true, Bool.or_eq_true, beq_iff_eq, or_assoc]
    exact ⟨hlegal, hs⟩

/-- A sequence whose entries are let through. -/
theorem admissible_sequence {name : String} {fields : List (Field Descriptor)} {standard : Option Nat}
    {entries : List (Option Value)} (hlt : depth < settings.maxDepth)
    (h : List.Forall₂ (EntryHas (AdmissibleIf settings) (depth + 1)) fields entries) :
    AdmissibleIf settings (sequence name fields standard) depth (.sequence entries) := by
  intro hf
  have hparts := (everywhere_sequence.mp hf).2
  clear hf
  have hall : fieldsConform fields entries = true ∧ depth + 1 + Value.nestingList entries ≤ settings.maxDepth ∧
      Value.lengthsWithinList settings.maxLength.toNat entries = true := by
    induction h with
    | nil => exact ⟨rfl, hlt, rfl⟩
    | @cons field entry fields entries he _ ih =>
      obtain ⟨hc, hn, hl⟩ := ih fun f hm => hparts f (List.mem_cons_of_mem _ hm)
      rw [fieldsConform_cons, Value.nestingList, Value.lengthsWithinList, hc, hl, Bool.and_true, Bool.and_true]
      cases entry with
      | none =>
        refine ⟨he, ?_, rfl⟩
        rwa [Value.nestingOption, Nat.zero_max]
      | some value =>
        have hv := he (hparts field (List.mem_cons_self ..))
        have hnesting := hv.nesting
        refine ⟨hv.conforms, ?_, hv.lengths⟩
        rw [Value.nestingOption]
        omega
  obtain ⟨hc, hn, hl⟩ := hall
  refine ⟨hc, ?_, hl⟩
  rw [Value.nesting]
  omega

/-- A list whose elements are let through. -/
theorem admissible_sequenceOf {name : String} {element : Descriptor} {size : Bounds Int64} {extensible : Bool}
    {found : Array (Option Value)} (hlt : depth < settings.maxDepth)
    (h : Reader.Listed (sequenceOf name element size extensible).constraint settings
      (fun entry => ∃ value, entry = some value ∧ AdmissibleIf settings element (depth + 1) value) found) :
    AdmissibleIf settings (sequenceOf name element size extensible) depth (.sequenceOf found.toList) := by
  intro hf
  have helement : ∀ entry ∈ found.toList, ∃ value, entry = some value ∧ element.Admissible (depth + 1) settings value := by
    intro entry hm
    obtain ⟨value, he, hv⟩ := h.elements entry (Array.mem_toList_iff.mp hm)
    exact ⟨value, he, hv (everywhere_sequenceOf.mp hf).2⟩
  refine ⟨?_, ?_, ?_⟩
  · rw [conforms, Array.length_toList, Bool.and_eq_true, Bool.or_eq_true, List.all_eq_true]
    refine ⟨h.size, fun entry hm => ?_⟩
    obtain ⟨value, rfl, hv⟩ := helement entry hm
    exact hv.conforms
  · have hnest : Value.nestingList found.toList ≤ settings.maxDepth - (depth + 1) := by
      refine (Value.nestingList_le_iff _ _).mpr fun entry hm => ?_
      obtain ⟨value, rfl, hv⟩ := helement entry hm
      have := hv.nesting
      rw [Value.nestingOption]
      omega
    rw [Value.nesting]
    omega
  · rw [Value.lengthsWithin, Array.length_toList, Bool.and_eq_true, Value.lengthsWithinList_iff]
    refine ⟨decide_eq_true h.within, fun entry hm => ?_⟩
    obtain ⟨value, rfl, hv⟩ := helement entry hm
    exact hv.lengths

/-- Being let through passes from the parts of a value to the value. -/
theorem admissible_inherited : Inherited room settings (AdmissibleIf settings) where
  simple name plain extensible _ ho hd := admitsField_simple name plain extensible ho hd
  enumerated _ _ _ _ _ hd hi := fun _ => ⟨decide_eq_true hi, hd, rfl⟩
  sequence _ _ _ _ _ hlt he := admissible_sequence hlt he
  sequenceOf _ _ _ _ _ _ hlt hl := admissible_sequenceOf hlt hl
  choice name alternatives standard depth index alternative value hlt ha hv := by
    intro hf
    obtain ⟨hc, hnesting, hl⟩ := hv ((everywhere_choice.mp hf).2 alternative (List.mem_of_getElem? ha))
    refine ⟨?_, ?_, hl⟩
    · rw [conforms, alternativeConforms_eq, ha]
      exact hc
    · rw [Value.nesting, Value.nestingOption]
      omega

/-! ## Open types are no longer than the message -/

/-- The content of an open type of a field lies in the form of a field that is present. -/
theorem exists_part_of_fieldsContents {fields : List (Field Descriptor)} {entries : List (Option Value)}
    {content : List Bool}
    (h : ∀ field ∈ fields, ∀ value, ∀ content ∈ field.type.openContents value,
      OpenType.octetCount content * 8 ≤ (field.type.bits value).length)
    (hm : content ∈ fieldsContents fields entries) :
    ∃ part ∈ parts fields entries, ∃ bits, part.content = some bits ∧ OpenType.octetCount content * 8 ≤ bits.length := by
  induction fields generalizing entries with
  | nil => exact absurd hm (by simp [fieldsContents])
  | cons field fields ih =>
    cases entries with
    | nil => exact absurd hm (by simp [fieldsContents])
    | cons entry entries =>
      rw [fieldsContents] at hm
      rw [parts]
      rcases List.mem_append.mp hm with hm | hm
      · cases entry with
        | none => exact absurd hm List.not_mem_nil
        | some value => exact ⟨_, List.mem_cons_self .., _, rfl, h field (List.mem_cons_self ..) value content hm⟩
      · obtain ⟨part, hp, hbits⟩ := ih (fun f hf => h f (List.mem_cons_of_mem _ hf)) hm
        exact ⟨part, List.mem_cons_of_mem _ hp, hbits⟩

/-- The contents of the open types of an alternative are no longer than its form. -/
theorem octetCount_alternativeContents_le {alternatives : List (String × Descriptor)} {index : Nat} {payload : Value}
    {content : List Bool}
    (h : ∀ alternative ∈ alternatives, ∀ value, ∀ content ∈ alternative.2.openContents value,
      OpenType.octetCount content * 8 ≤ (alternative.2.bits value).length)
    (hm : content ∈ alternativeContents alternatives index payload) :
    OpenType.octetCount content * 8 ≤ (alternativeBits alternatives index payload).length := by
  induction alternatives generalizing index with
  | nil =>
    rw [alternativeContents] at hm
    exact absurd hm List.not_mem_nil
  | cons alternative alternatives ih =>
    cases index with
    | zero => exact h alternative (List.mem_cons_self ..) payload content hm
    | succ index => exact ih (fun a ha => h a (List.mem_cons_of_mem _ ha)) hm

/-- The contents of the open types of a value are no longer than its form. -/
theorem octetCount_openContents_le (type : Descriptor) :
    ∀ value, ∀ content ∈ type.openContents value, OpenType.octetCount content * 8 ≤ (type.bits value).length := by
  induction type using Descriptor.induction with
  | simple name plain extensible =>
    intro value content hm
    exact absurd hm (by simp [openContents])
  | enumerated name items standard =>
    intro value content hm
    exact absurd hm (by simp [openContents])
  | sequence name fields standard ih =>
    intro value content hm
    cases value
    case sequence entries =>
      rw [openContents] at hm
      rw [bits]
      rcases List.mem_append.mp hm with hm | hm
      · obtain ⟨part, hp, hc⟩ := List.mem_filterMap.mp hm
        exact Nat.le_trans (OpenType.octetCount_le_length_form content) (Part.length_openType_le _ _ hp hc)
      · obtain ⟨part, hp, bits, hb, hle⟩ := exists_part_of_fieldsContents ih hm
        refine Nat.le_trans hle (Part.length_content_le _ ?_ hb)
        rw [List.take_append_drop]
        exact hp
    all_goals exact absurd hm List.not_mem_nil
  | sequenceOf name element size extensible ih =>
    intro value content hm
    cases value
    case sequenceOf elements =>
      rw [openContents, List.mem_flatMap] at hm
      obtain ⟨entry, he, hm⟩ := hm
      cases entry with
      | none => exact absurd hm List.not_mem_nil
      | some value =>
        refine Nat.le_trans (ih value content hm) (Nat.le_trans ?_ (SizedContent.length_flatten_le_form _ _ _))
        obtain ⟨before, after, hsplit⟩ := List.mem_iff_append.mp he
        rw [hsplit]
        simp only [List.map_append, List.map_cons, List.flatten_append, List.flatten_cons, List.length_append,
          Option.map_some, Option.getD_some]
        omega
    all_goals exact absurd hm List.not_mem_nil
  | choice name alternatives standard ih =>
    intro value content hm
    cases value
    case choice index payload =>
      cases payload with
      | none => exact absurd hm List.not_mem_nil
      | some payload =>
        rw [openContents] at hm
        rw [bits, List.length_append]
        rcases List.mem_append.mp hm with hm | hm
        · split at hm
          · rename_i hext
            obtain rfl := List.mem_singleton.mp hm
            have := OpenType.octetCount_le_length_form (alternativeBits alternatives index.toNat payload)
            rw [if_pos hext]
            omega
          · exact absurd hm List.not_mem_nil
        · have hpayload := octetCount_alternativeContents_le ih hm
          have hcount := OpenType.octetCount_le_length_form (alternativeBits alternatives index.toNat payload)
          have hfits := OpenType.length_le_octetCount (alternativeBits alternatives index.toNat payload)
          split <;> omega
    all_goals exact absurd hm List.not_mem_nil

end Descriptor

/-! ## Whole messages -/

/-- What is decoded is a value of its type that nests no deeper and is no longer than the settings allow. -/
theorem admissible_of_decode {settings : Settings} {type : Descriptor} {data : Octets} {length : Nat} {found : Decoding}
    (ho : type.everywhere Descriptor.ordered = true) (hf : type.everywhere Descriptor.floored = true)
    (h : (decode settings type data length).1 = .ok found) : type.Admissible 0 settings found.value :=
  Descriptor.admissible_inherited.decode ho h hf

/-- An encoding is all that can be read from its octets. -/
theorem Encoding.toList_ofOctets {e : Encoding} {settings : Settings} {type : Descriptor} {value : Value}
    (h : e.Holds settings type value) : (BitView.ofOctets e.octets e.bitLength).toList = e.toList := by
  have hroom : e.bitLength ≤ e.octets.size * 8 := by
    rw [h.size, Octets.countFor]
    omega
  show Octets.bitsFrom e.octets 0 (min e.bitLength (e.octets.size * 8) - 0) = _
  rw [Nat.min_eq_left hroom, Nat.sub_zero]
  rfl

/-- An encoding is decoded to the tidy form of its value, under any settings that admit the value. -/
theorem Encoding.Holds.decode {e : Encoding} {settings settings' : Settings} {type : Descriptor} {value : Value}
    (h : e.Holds settings type value) (ht : type.everywhere Descriptor.countable = true)
    (hd : value.nesting ≤ settings'.maxDepth) (hf : type.Fits value settings'.maxLength.toNat) :
    (decode settings' type e.octets e.bitLength).1 = .ok ⟨value.tidy, e.bitLength⟩ := by
  have hprefix : type.bits value <+: (BitView.ofOctets e.octets e.bitLength).toList :=
    ⟨[], by rw [List.append_nil, Encoding.toList_ofOctets h, h.bits]⟩
  rw [decode_of_form ht h.conforms hd hf hprefix, h.length]

/-- An encoding whose octets fit into a memory is decoded without a limit on lengths, and to the same value. -/
theorem decode_unlimited {settings : Settings} {type : Descriptor} {value : Value} {e : Encoding}
    (ht : type.everywhere Descriptor.countable = true) (h : e.Holds settings type value)
    (hl : value.lengthsWithin settings.maxLength.toNat = true) (hsize : e.octets.size < 2 ^ 64) :
    ∃ again, (decode { settings with maxLength := 0xFFFFFFFFFFFFFFFF } type e.octets e.bitLength).1 =
      .ok ⟨again, e.bitLength⟩ ∧ again.same value = true := by
  obtain ⟨unlimited, hu⟩ : ∃ s : Settings, s = { settings with maxLength := 0xFFFFFFFFFFFFFFFF } := ⟨_, rfl⟩
  have hmax : unlimited.maxLength.toNat = 2 ^ 64 - 1 := by
    rw [hu]
    rfl
  have hd : value.nesting ≤ unlimited.maxDepth := by
    rw [hu]
    exact h.nesting
  have hfits : type.Fits value unlimited.maxLength.toNat := by
    rw [hmax]
    refine ⟨Value.lengthsWithin_mono ?_ value hl, fun content hm => ?_⟩
    · have := settings.maxLength.toNat_lt
      omega
    · have hle := type.octetCount_openContents_le value content hm
      have hsize' := h.size
      rw [h.length] at hle
      rw [Octets.countFor] at hsize'
      omega
  rw [← hu]
  exact ⟨value.tidy, h.decode ht hd hfits, type.same_tidy value h.conforms⟩

/-- Whatever bits a value of a type of a schema is decoded from, it is encoded, and that encoding is decoded to the same value
and without a rest. A type whose numbers have a greatest value but no least one is left out: there a value may be too great. -/
theorem decode_normalizes {file : String} {document : Json} {schema : Schema} {type : Descriptor} {settings : Settings}
    {data : Octets} {length : Nat} {found : Decoding} (hs : (Schema.parse file document).1 = .ok schema)
    (hm : type ∈ schema.types) (ht : type.everywhere Descriptor.countable = true)
    (hf : type.everywhere Descriptor.floored = true) (h : (decode settings type data length).1 = .ok found) :
    ∃ e, (encode settings type found.value).1 = .ok e ∧
      (e.octets.size < 2 ^ 64 →
        ∃ again, (decode { settings with maxLength := 0xFFFFFFFFFFFFFFFF } type e.octets e.bitLength).1 =
          .ok ⟨again, e.bitLength⟩ ∧ again.same found.value = true) := by
  have ha := admissible_of_decode (Schema.ordered_of_parse hs hm) hf h
  have hd : found.value.nesting ≤ settings.maxDepth := by
    have := ha.nesting
    omega
  obtain ⟨e, he⟩ := exists_encode ht ha.conforms hd
  exact ⟨e, he, decode_unlimited ht (holds_of_encode ht he) ha.lengths⟩

/-- A schema of one type, whose values are the numbers. -/
def Json.numbers : Json :=
  .obj [("types", .obj [("Number", .obj [("kind", .str "integer")])])]

/-- The type of that schema. -/
def Descriptor.number : Descriptor :=
  .simple "Number" (.integer .free) false

/-- The number five in two octets, where one is enough: it is encoded in one, and from that it is decoded again. -/
theorem decode_normalizes_number : (Schema.parse "" .numbers).1 = .ok ⟨[.number]⟩ ∧
    (decode .standard .number #[0x02, 0x00, 0x05] 24).1 = .ok ⟨.integer 5, 24⟩ ∧
    (encode .standard .number (.integer 5)).1 = .ok ⟨#[0x01, 0x05], 16⟩ ∧
    ∃ again, (decode { Settings.standard with maxLength := 0xFFFFFFFFFFFFFFFF } .number #[0x01, 0x05] 16).1 =
      .ok ⟨again, 16⟩ ∧ again.same (.integer 5) = true := by
  have hs : (Schema.parse "" .numbers).1 = .ok ⟨[.number]⟩ := by cbv
  have hd : (decode .standard .number #[0x02, 0x00, 0x05] 24).1 = .ok ⟨.integer 5, 24⟩ := by cbv
  have he : (encode .standard .number (.integer 5)).1 = .ok ⟨#[0x01, 0x05], 16⟩ := by cbv
  obtain ⟨e, hfound, hagain⟩ :=
    decode_normalizes hs (List.mem_singleton.mpr rfl) (by decide +kernel) (by decide +kernel) hd
  obtain rfl : e = ⟨#[0x01, 0x05], 16⟩ := Except.ok.inj (hfound.symm.trans he)
  exact ⟨hs, hd, he, hagain (by decide)⟩

end UnalignedPer
