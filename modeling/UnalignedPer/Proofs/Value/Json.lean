import Mathlib.Data.List.Nodup
import UnalignedPer.Proofs.Json
import UnalignedPer.Proofs.Octets.Hex
import UnalignedPer.Proofs.Value.Shape
import UnalignedPer.Value.OfJson
import UnalignedPer.Value.ToJson

/-!
# Values are read back from JSON

A value of the shape of a type is shown as a document, and from the document the same value is read, without any report. Two
things can stand in the way of that. Fields of one name would share a member, so the names of the type have to differ. The
number of bits of a bit string is written as a signed number, so it has to be below `2 ^ 63`.

Octets of a bit string past its bits are shown, but not read: what comes back is the value without them (`Value.trim`).
-/

namespace UnalignedPer

/-! ## Values without the octets past their bits -/

/-- The bit string without the octets past its bits. -/
def BitString.trim (run : BitString) : BitString :=
  ⟨Octets.resize run.octets (Octets.countFor run.length.toNat), run.length⟩

/-- Where the octets hold all bits, nothing that counts is lost. -/
theorem BitString.same_trim {run : BitString} (h : run.covered = true) : run.trim.same run = true := by
  have hcovered := of_decide_eq_true h
  have hcount := toNat_octetCount_le run.length
  have hbits : Octets.bitsFrom run.trim.octets 0 run.length.toNat = Octets.bitsFrom run.octets 0 run.length.toNat := by
    refine Octets.bitsFrom_congr fun i hi => Octets.getBit_resize _ _ _ ?_
    simp only [Octets.countFor]
    omega
  have hsize : run.trim.octets.size = Octets.countFor run.length.toNat := Octets.size_resize _ _
  have hroom : (octetCount run.length).toNat ≤ run.octets.size := by
    refine Nat.le_trans hcount ?_
    simp only [Octets.countFor]
    omega
  simp only [same, Octets.agreeOn_eq, hsize]
  simp only [trim] at hbits ⊢
  simp only [hbits, hcount, hroom, beq_self_eq_true, decide_true, Bool.and_self]

/-- A tidy bit string has no octets past its bits. -/
@[simp] theorem BitString.trim_tidy (run : BitString) : run.tidy.trim = run.tidy := by
  have hsize : run.tidy.octets.size = Octets.countFor run.length.toNat := by
    show (Octets.ofBits run.toList).size = _
    rw [Octets.size_ofBits, length_toList]
  have hresize : Octets.resize run.tidy.octets (Octets.countFor run.length.toNat) = run.tidy.octets := by
    rw [← hsize, Octets.resize, if_neg (Nat.lt_irrefl _), Octets.growTo, if_neg (Nat.lt_irrefl _)]
  exact congrArg (BitString.mk · run.length) hresize

namespace Value

mutual

/-- The same value with bit strings that have no octets past their bits. -/
def trim : Value → Value
  | bits run => bits run.trim
  | sequence fields => sequence (trimList fields)
  | sequenceOf elements => sequenceOf (trimList elements)
  | choice index payload => choice index (trimOption payload)
  | value => value

/-- The value in a place with bit strings that have no octets past their bits. -/
def trimOption : Option Value → Option Value
  | none => none
  | some value => some (trim value)

/-- The values in some places with bit strings that have no octets past their bits. -/
def trimList : List (Option Value) → List (Option Value)
  | [] => []
  | entry :: entries => trimOption entry :: trimList entries

end

mutual

/-- A tidy value has no octets past its bits. -/
theorem trim_tidy : ∀ value : Value, value.tidy.trim = value.tidy
  | bits run => congrArg bits run.trim_tidy
  | sequence fields => congrArg sequence (trimList_tidyList fields)
  | sequenceOf elements => congrArg sequenceOf (trimList_tidyList elements)
  | choice index payload => congrArg (choice index) (trimOption_tidyOption payload)
  | null => rfl
  | boolean _ => rfl
  | integer _ => rfl
  | enumerated _ => rfl
  | octets _ => rfl
  | text _ => rfl

theorem trimOption_tidyOption : ∀ entry : Option Value, trimOption (tidyOption entry) = tidyOption entry
  | none => rfl
  | some value => congrArg some (trim_tidy value)

theorem trimList_tidyList : ∀ entries : List (Option Value), trimList (tidyList entries) = tidyList entries
  | [] => rfl
  | entry :: entries => by rw [tidyList, trimList, trimOption_tidyOption entry, trimList_tidyList entries]

end

end Value

namespace Descriptor

/-- A value is shown under a type as a document from which the same value is read, without a report. -/
structure Shown (type : Descriptor) (value : Value) (json : Json) : Prop where
  /-- It is shown as this document. -/
  shown : type.jsonOf value = .ok json
  /-- The document is read. -/
  read : ∀ location, type.fit location json = pure (some value.trim)
  /-- The value that is read is the same. -/
  same : value.trim.same value = true

/-! ## Values without parts -/

/-- The number of bits of a bit string as it is shown. -/
theorem toInt_toInt64_of_lt {length : UInt64} (h : length.toNat < 2 ^ 63) : length.toInt64.toInt = length.toNat := by
  show length.toBitVec.toInt = length.toNat
  exact BitVec.toInt_eq_toNat_of_lt (by show 2 * length.toNat < 2 ^ 64; omega)

/-- A bit string. -/
theorem exists_shown_bits {name : String} {size : Bounds Int64} {extensible : Bool} {run : BitString} (hc : run.covered = true)
    (h : run.length.toNat < 2 ^ 63) : ∃ json, Shown (.simple name (.bitString size) extensible) (.bits run) json := by
  obtain ⟨members, hm⟩ : ∃ members : List (String × Json),
      members = [("hex", .str (Octets.toHex run.octets)), ("bits", .int run.length.toInt64.toInt)] := ⟨_, rfl⟩
  have hnames : (members.map (·.1)).Nodup := by
    rw [hm]
    show ["hex", "bits"].Nodup
    decide
  have hhex : Json.member? "hex" (Json.collect members) = some (.str (Octets.toHex run.octets)) := by
    rw [Json.member?_collect hnames, hm, Json.member?_cons, if_pos rfl]
  have hbits : Json.member? "bits" (Json.collect members) = some (.int run.length.toInt64.toInt) := by
    rw [Json.member?_collect hnames, hm, Json.member?_cons, if_neg (by decide), Json.member?_cons, if_pos rfl]
  have hcount := toInt_toInt64_of_lt h
  have hnumber : ∀ location, fitBitCount location (Json.collect members) (run.octets.size * 8) =
      pure (some run.length.toNat) := by
    intro location
    have hfits : ¬(run.length.toInt64 < 0 ∨ run.length.toInt64.toInt.toNat > run.octets.size * 8) := by
      rw [Int64.lt_iff_toInt_lt, hcount]
      show ¬((run.length.toNat : Int) < 0 ∨ run.length.toNat > _)
      have := of_decide_eq_true hc
      omega
    rw [fitBitCount, hbits]
    simp only [Json.int64?_int]
    rw [if_neg hfits, hcount]
    rfl
  refine ⟨.ofMembers members, by rw [hm]; rfl, fun location => ?_, BitString.same_trim hc⟩
  show fitBits _ location (.obj (Json.collect members)) = _
  simp only [fitBits, Json.obj?, hhex, Option.bind_some, Json.str?, Octets.ofHex?_toHex, hnumber, pure_bind, UInt64.ofNat_toNat]
  rfl

/-- A value without parts. -/
theorem exists_shown_simple (name : String) (plain : SimpleType) (extensible : Bool) {value : Value}
    (h : simpleShapes (2 ^ 63 - 1) plain value = true) : ∃ json, Shown (.simple name plain extensible) value json := by
  cases plain <;> cases value
  case null.null => exact ⟨.null, rfl, fun _ => rfl, rfl⟩
  case boolean.boolean value => exact ⟨.bool value, rfl, fun _ => rfl, beq_self_eq_true value⟩
  case integer.integer range value =>
    refine ⟨.int value.toInt, rfl, fun location => ?_, beq_self_eq_true value⟩
    simp only [fit, fitSimple, Json.int64?_int]
    rfl
  case octetString.octets size data =>
    refine ⟨.str (Octets.toHex data), rfl, fun location => ?_, beq_self_eq_true data⟩
    simp only [fit, fitSimple, Json.str?, Octets.ofHex?_toHex]
    rfl
  case bitString.bits size run =>
    obtain ⟨hc, hl⟩ := Bool.and_eq_true_iff.mp h
    have := of_decide_eq_true hl
    exact exists_shown_bits hc (by omega)
  case text.text alphabet size data =>
    refine ⟨.str (Utf8.toText data), rfl, fun location => ?_, beq_self_eq_true data⟩
    simp only [fit, fitSimple, Json.str?, Utf8.ofText_toText h]
    rfl
  all_goals exact absurd h Bool.false_ne_true

/-! ## Items -/

/-- An item is shown by its name. -/
theorem exists_shown_enumerated {name : String} {items : List String} {standard : Option Nat} (hnames : items.Nodup)
    {index : UInt64} (hi : index.toNat < items.length) :
    ∃ json, Shown (.enumerated name items standard) (.enumerated index) json := by
  have hindex : items.idxOf? items[index.toNat] = some index.toNat := by
    refine List.idxOf?_eq_some_iff.mpr ⟨hi, rfl, fun j hj he => ?_⟩
    exact Nat.ne_of_lt hj ((List.Nodup.getElem_inj_iff hnames).mp he)
  refine ⟨.str items[index.toNat], ?_, fun location => ?_, beq_self_eq_true index⟩
  · rw [jsonOf]
    simp only [List.getElem?_eq_getElem hi]
  · rw [fit, fitItem]
    simp only [Json.str?, hindex, UInt64.ofNat_toNat]
    rfl

/-! ## Fields -/

/-- Keys that are all known are passed over. -/
theorem fitKeys_eq (names : List String) (location : Location) {members : List (String × Json)}
    (h : ∀ member ∈ members, member.1 ∈ names) : fitKeys names location true members = pure true := by
  induction members with
  | nil => rfl
  | cons member rest ih =>
    rw [fitKeys, if_pos (List.contains_iff_mem.mpr (h member (List.mem_cons_self ..)))]
    exact ih fun other hm => h other (List.mem_cons_of_mem _ hm)

/-- What is known of the entries of some fields shown as members. -/
structure ShownFields (fields : List (Field Descriptor)) (entries : List (Option Value)) (members : List (String × Json)) :
    Prop where
  /-- They are shown as these members. -/
  shown : jsonOfFields fields entries = .ok members
  /-- The members have names of fields, in the order of the fields. -/
  names : List.Sublist (members.map (·.1)) (fields.map (·.name))
  /-- From any members that are the same under these names the entries are read. -/
  read : ∀ location all, (∀ field ∈ fields, Json.member? field.name all = Json.member? field.name members) →
    fitFields fields location all = pure (Value.trimList entries, true)
  /-- The entries that are read are the same. -/
  same : Value.sameList (Value.trimList entries) entries = true

/-- Under a name that members do not have, nothing is found. -/
theorem member?_eq_none {name : String} {fields : List (Field Descriptor)} (h : name ∉ fields.map (·.name))
    {members : List (String × Json)} (hs : List.Sublist (members.map (·.1)) (fields.map (·.name))) :
    Json.member? name members = none := by
  refine List.lookup_eq_none_iff.mpr fun member hm => bne_iff_ne.mpr fun he => h ?_
  exact he ▸ hs.subset (List.mem_map_of_mem hm)

/-- An entry that is missing is left out. -/
theorem shownFields_absent {field : Field Descriptor} {fields : List (Field Descriptor)} {entries : List (Option Value)}
    {members : List (String × Json)} (hnew : field.name ∉ fields.map (·.name)) (ho : field.optional = true)
    (h : ShownFields fields entries members) : ShownFields (field :: fields) (none :: entries) members := by
  obtain ⟨name, optional, type⟩ := field
  refine ⟨h.shown, .cons name h.names, fun location all hall => ?_, h.same⟩
  have hnone : Json.member? name all = none :=
    (hall _ (List.mem_cons_self ..)).trans (member?_eq_none hnew h.names)
  have hrest := h.read location all fun field hf => hall field (List.mem_cons_of_mem _ hf)
  rw [fitFields]
  simp only [hnone, show optional = true from ho]
  show (fitFields fields location all >>= fun found => pure (none :: found.1, true && found.2)) = _
  rw [hrest]
  rfl

/-- An entry that is present is a member under the name of its field. -/
theorem shownFields_present {field : Field Descriptor} {fields : List (Field Descriptor)} {value : Value} {json : Json}
    {entries : List (Option Value)} {members : List (String × Json)} (hnew : field.name ∉ fields.map (·.name))
    (hv : Shown field.type value json) (h : ShownFields fields entries members) :
    ShownFields (field :: fields) (some value :: entries) ((field.name, json) :: members) := by
  obtain ⟨name, optional, type⟩ := field
  refine ⟨?_, h.names.cons_cons name, fun location all hall => ?_, Bool.and_eq_true_iff.mpr ⟨hv.same, h.same⟩⟩
  · rw [jsonOfFields]
    simp only [show type.jsonOf value = .ok json from hv.shown, h.shown]
    rfl
  · have hfound : Json.member? name all = some json := by
      have hfirst := hall _ (List.mem_cons_self ..)
      rwa [Json.member?_cons, if_pos rfl] at hfirst
    have hrest := h.read location all fun field hf => by
      have hne : field.name ≠ name := fun he => hnew (List.mem_map.mpr ⟨field, hf, he⟩)
      rw [hall field (List.mem_cons_of_mem _ hf), Json.member?_cons, if_neg hne]
    rw [fitFields]
    simp only [hfound]
    have hentry : type.fit (location.child name) json = pure (some value.trim) := hv.read _
    rw [hentry, hrest]
    rfl

/-- The entries of some fields. -/
theorem exists_shownFields {fields : List (Field Descriptor)} {entries : List (Option Value)}
    (hnames : (fields.map (·.name)).Nodup)
    (h : List.Forall₂ (EntryHas (fun type _ value => ∃ json, Shown type value json) 0) fields entries) :
    ∃ members, ShownFields fields entries members := by
  induction h with
  | nil => exact ⟨[], rfl, .refl _, fun _ _ _ => rfl, rfl⟩
  | @cons field entry fields entries he _ ih =>
    rw [List.map_cons, List.nodup_cons] at hnames
    obtain ⟨members, hrest⟩ := ih hnames.2
    cases entry with
    | none => exact ⟨members, shownFields_absent hnames.1 he hrest⟩
    | some value =>
      obtain ⟨json, hv⟩ := he
      exact ⟨_, shownFields_present hnames.1 hv hrest⟩

/-- A sequence is shown as the object of its fields. -/
theorem exists_shown_sequence {name : String} {fields : List (Field Descriptor)} {standard : Option Nat}
    {entries : List (Option Value)} (hnames : (fields.map (·.name)).Nodup)
    (h : List.Forall₂ (EntryHas (fun type _ value => ∃ json, Shown type value json) 0) fields entries) :
    ∃ json, Shown (.sequence name fields standard) (.sequence entries) json := by
  obtain ⟨members, hm⟩ := exists_shownFields hnames h
  refine ⟨.ofMembers members, ?_, fun location => ?_, hm.same⟩
  · rw [jsonOf]
    simp only [h.length_eq, ne_eq, not_true_eq_false, if_false, hm.shown]
    rfl
  · have hkeys : fitKeys (fields.map (·.name)) location true (Json.collect members) = pure true :=
      fitKeys_eq _ location fun member hm' => hm.names.subset (List.mem_map_of_mem (Json.mem_collect hm'))
    have hfields := hm.read location (Json.collect members) fun field _ => Json.member?_collect (hm.names.nodup hnames) _
    rw [Json.ofMembers_eq, fit]
    simp only [Json.obj?, hkeys, hfields, pure_bind]
    rfl

/-! ## Elements -/

/-- The elements of a list are shown and read one after the other. -/
theorem shown_elements {element : Descriptor} {entries : List (Option Value)}
    (h : ∀ entry ∈ entries, ∃ value json, entry = some value ∧ Shown element value json) (whole : Unit → Except Fault Json) :
    ∃ items, (∀ sofar, jsonOfElements (fun value => element.jsonOf value) whole sofar entries =
        .ok (.arr (sofar.reverse ++ items))) ∧
      (∀ location index sofar, fitElements (fun location json => element.fit location json) location index sofar true items =
        pure ((Value.trimList entries).reverse ++ sofar, true)) ∧
      Value.sameList (Value.trimList entries) entries = true := by
  induction entries with
  | nil => exact ⟨[], fun sofar => by rw [jsonOfElements, List.append_nil], fun _ _ _ => rfl, rfl⟩
  | cons entry entries ih =>
    obtain ⟨value, json, rfl, hv⟩ := h entry (List.mem_cons_self ..)
    obtain ⟨items, hitems, hread, hsame⟩ := ih fun other hm => h other (List.mem_cons_of_mem _ hm)
    refine ⟨json :: items, fun sofar => ?_, fun location index sofar => ?_, Bool.and_eq_true_iff.mpr ⟨hv.same, hsame⟩⟩
    · rw [jsonOfElements]
      simp only [hv.shown]
      show jsonOfElements _ whole (json :: sofar) entries = _
      rw [hitems, List.reverse_cons, List.append_assoc]
      rfl
    · rw [fitElements, Value.trimList, Value.trimOption]
      simp only [hv.read, pure_bind, Option.isSome_some, Bool.and_true, hread]
      rw [List.reverse_cons, List.append_assoc]
      rfl

/-- A list is shown as the array of its elements. -/
theorem exists_shown_sequenceOf {name : String} {element : Descriptor} {size : Bounds Int64} {extensible : Bool}
    {entries : List (Option Value)} (h : ∀ entry ∈ entries, ∃ value json, entry = some value ∧ Shown element value json) :
    ∃ json, Shown (.sequenceOf name element size extensible) (.sequenceOf entries) json := by
  obtain ⟨items, hitems, hread, hsame⟩ := shown_elements h fun () =>
    (sequenceOf name element size extensible).mismatch (.sequenceOf entries)
  refine ⟨.arr items, hitems [], fun location => ?_, hsame⟩
  rw [fit]
  simp only [Json.arr?, hread, pure_bind, List.append_nil, List.reverse_reverse]
  rfl

/-! ## Alternatives -/

/-- The value of an alternative is shown under the name of the alternative, and found under it from any alternative before. -/
theorem shown_alternative {alternatives : List (String × Descriptor)} (hnames : (alternatives.map (·.1)).Nodup)
    {index : Nat} {alternative : String × Descriptor} (ha : alternatives[index]? = some alternative) {payload : Value}
    {json : Json} (h : Shown alternative.2 payload json) :
    (∀ whole, jsonOfAlternative alternatives index payload whole = .ok (.obj [(alternative.1, json)])) ∧
      ∀ location start, fitAlternative alternatives start alternative.1 location json =
        pure (some (.choice (UInt64.ofNat (start + index)) (some payload.trim))) := by
  induction alternatives generalizing index with
  | nil => cases ha
  | cons first alternatives ih =>
    obtain ⟨name, type⟩ := first
    cases index with
    | zero =>
      obtain rfl : (name, type) = alternative := by simpa using ha
      refine ⟨fun whole => ?_, fun location start => ?_⟩
      · rw [jsonOfAlternative]
        simp only [show type.jsonOf payload = .ok json from h.shown]
        rfl
      · have hpayload : type.fit (location.child name) json = pure (some payload.trim) := h.read _
        rw [fitAlternative, if_pos rfl, hpayload]
        rfl
    | succ index =>
      rw [List.map_cons, List.nodup_cons] at hnames
      have ha' : alternatives[index]? = some alternative := by simpa using ha
      obtain ⟨hj, hread⟩ := ih hnames.2 ha'
      have hne : name ≠ alternative.1 := fun he =>
        hnames.1 (List.mem_map.mpr ⟨alternative, List.mem_of_getElem? ha', he.symm⟩)
      refine ⟨hj, fun location start => ?_⟩
      rw [fitAlternative, if_neg hne, hread, Nat.add_right_comm]
      rfl

/-- A choice is shown as the object of its one alternative. -/
theorem shown_choice {name : String} {alternatives : List (String × Descriptor)} {standard : Option Nat}
    (hnames : (alternatives.map (·.1)).Nodup) {index : UInt64} {alternative : String × Descriptor}
    (ha : alternatives[index.toNat]? = some alternative) {payload : Value} {json : Json}
    (h : Shown alternative.2 payload json) :
    Shown (.choice name alternatives standard) (.choice index (some payload)) (.obj [(alternative.1, json)]) := by
  obtain ⟨hj, hread⟩ := shown_alternative hnames ha h
  refine ⟨hj _, fun location => ?_, Bool.and_eq_true_iff.mpr ⟨beq_self_eq_true index, h.same⟩⟩
  rw [fit]
  simp only [Json.obj?, hread, Nat.zero_add, UInt64.ofNat_toNat]
  rfl

/-! ## Along the type -/

/-- A value of the shape of a type whose names differ. -/
theorem exists_shown (type : Descriptor) (hn : type.everywhere distinct = true) :
    ∀ value, type.shapes (2 ^ 63 - 1) value = true → ∃ json, Shown type value json := by
  induction type using Descriptor.induction with
  | simple name plain extensible => exact fun value h => exists_shown_simple name plain extensible h
  | enumerated name items standard =>
    intro value h
    cases value
    case enumerated index => exact exists_shown_enumerated ((distinct_iff _).mp hn).1 (of_decide_eq_true h)
    all_goals exact absurd h Bool.false_ne_true
  | sequence name fields standard ih =>
    obtain ⟨hnames, hparts⟩ := everywhere_sequence.mp hn
    intro value h
    cases value
    case sequence entries =>
      have hfields : ∀ field ∈ fields, ∀ value, field.type.shapes (2 ^ 63 - 1) value = true →
          ∃ json, Shown field.type value json := fun field hm => ih field hm (hparts field hm)
      have hentries := (List.forall₂_and_left _ _).mpr ⟨hfields, fieldsShape_iff.mp h⟩
      refine exists_shown_sequence ((distinct_iff _).mp hnames).2 (hentries.imp fun field entry he => ?_)
      cases entry with
      | none => exact he.2
      | some value => exact he.1 value he.2
    all_goals exact absurd h Bool.false_ne_true
  | sequenceOf name element size extensible ih =>
    intro value h
    cases value
    case sequenceOf elements =>
      rw [shapes, List.all_eq_true] at h
      refine exists_shown_sequenceOf fun entry hm => ?_
      obtain ⟨value, rfl, hv⟩ := (Option.any_eq_true _ _).mp (h entry hm)
      obtain ⟨json, hj⟩ := ih (everywhere_sequenceOf.mp hn).2 value hv
      exact ⟨value, json, rfl, hj⟩
    all_goals exact absurd h Bool.false_ne_true
  | choice name alternatives standard ih =>
    obtain ⟨hnames, hparts⟩ := everywhere_choice.mp hn
    intro value h
    cases value
    case choice index payload =>
      cases payload with
      | none => exact absurd h Bool.false_ne_true
      | some payload =>
        obtain ⟨alternative, ha, hpayload⟩ := alternativeShapes_iff.mp h
        have hm := List.mem_of_getElem? ha
        have hdistinct : (alternatives.map (·.1)).Nodup := by
          have h := ((distinct_iff _).mp hnames).2
          rw [fields, List.map_map] at h
          exact h
        obtain ⟨json, hj⟩ := ih alternative hm (hparts alternative hm) payload hpayload
        exact ⟨_, shown_choice hdistinct ha hj⟩
    all_goals exact absurd h Bool.false_ne_true

end Descriptor

/-- A value of the shape of a type whose names differ is shown as a document from which the same value is read, without a
report. -/
theorem Value.exists_toJson {type : Descriptor} {value : Value} (hn : type.everywhere Descriptor.distinct = true)
    (h : type.shapes (2 ^ 63 - 1) value = true) :
    ∃ json, value.toJson type = .ok json ∧ (∀ location, Value.ofJson type location json = (.ok value.trim, #[])) ∧
      value.trim.same value = true := by
  obtain ⟨json, hshown⟩ := type.exists_shown hn value h
  refine ⟨json, hshown.shown, fun location => ?_, hshown.same⟩
  rw [Value.ofJson, hshown.read]
  rfl

/-- A value of a type whose names differ is shown as a document from which its tidy form is read, without a report. -/
theorem Value.ofJson_toJson {type : Descriptor} {value : Value} (hn : type.everywhere Descriptor.distinct = true)
    (hc : type.conforms value = true) (hl : value.lengthsWithin (2 ^ 63 - 1) = true) :
    ∃ json, value.tidy.toJson type = .ok json ∧ ∀ location, Value.ofJson type location json = (.ok value.tidy, #[]) := by
  obtain ⟨json, hj, hread, -⟩ := Value.exists_toJson hn (type.shapes_tidy value hc hl)
  rw [value.trim_tidy] at hread
  exact ⟨json, hj, hread⟩

end UnalignedPer
