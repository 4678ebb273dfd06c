import UnalignedPer.Proofs.Message.Form

/-!
# Values that conform to a type

`Descriptor.conforms` says which values a type has, and `Value.nesting` how many containers lie inside each other in a value.
The two decide what can be encoded.

A decoder is limited in the lengths it accepts: `Value.lengthsWithin` bounds the strings and lists of a value,
`Descriptor.openContents` are the contents of the open types in its form. `Value.tidy` is the value that a decoder gives back:
the same one with its bit strings in as few octets as possible.
-/

namespace UnalignedPer

namespace Value

mutual

/-- The greatest number of containers inside each other. -/
def nesting : Value → Nat
  | sequence fields => nestingList fields + 1
  | sequenceOf elements => nestingList elements + 1
  | choice _ payload => nestingOption payload + 1
  | _ => 0

/-- The greatest number of containers inside each other in a place. -/
def nestingOption : Option Value → Nat
  | none => 0
  | some value => nesting value

/-- The greatest number of containers inside each other in some places. -/
def nestingList : List (Option Value) → Nat
  | [] => 0
  | entry :: entries => max (nestingOption entry) (nestingList entries)

end

mutual

/-- The same value with its bit strings in as few octets as possible. -/
def tidy : Value → Value
  | bits run => bits run.tidy
  | sequence fields => sequence (tidyList fields)
  | sequenceOf elements => sequenceOf (tidyList elements)
  | choice index payload => choice index (tidyOption payload)
  | value => value

/-- The value in a place with its bit strings in as few octets as possible. -/
def tidyOption : Option Value → Option Value
  | none => none
  | some value => some (tidy value)

/-- The values in some places with their bit strings in as few octets as possible. -/
def tidyList : List (Option Value) → List (Option Value)
  | [] => []
  | entry :: entries => tidyOption entry :: tidyList entries

end

mutual

/-- Whether no string and no list is longer than a limit. -/
def lengthsWithin (limit : Nat) : Value → Bool
  | octets data => data.size ≤ limit
  | bits run => run.length.toNat ≤ limit
  | text data => data.size ≤ limit
  | sequence fields => lengthsWithinList limit fields
  | sequenceOf elements => elements.length ≤ limit && lengthsWithinList limit elements
  | choice _ payload => lengthsWithinOption limit payload
  | _ => true

/-- Whether no string and no list in a place is longer than a limit. -/
def lengthsWithinOption (limit : Nat) : Option Value → Bool
  | none => true
  | some value => lengthsWithin limit value

/-- Whether no string and no list in some places is longer than a limit. -/
def lengthsWithinList (limit : Nat) : List (Option Value) → Bool
  | [] => true
  | entry :: entries => lengthsWithinOption limit entry && lengthsWithinList limit entries

end

/-- The values in some places are put in order place by place. -/
theorem tidyList_eq_map (entries : List (Option Value)) : tidyList entries = entries.map tidyOption := by
  induction entries with
  | nil => rfl
  | cons entry entries ih => rw [tidyList, ih, List.map_cons]

/-- A bound of the nesting bounds it in each place. -/
theorem nestingList_le_iff (entries : List (Option Value)) (n : Nat) :
    nestingList entries ≤ n ↔ ∀ entry ∈ entries, nestingOption entry ≤ n := by
  induction entries with
  | nil => simp [nestingList]
  | cons entry entries ih => simp only [nestingList, Nat.max_le, ih, List.forall_mem_cons]

/-- The nesting of places and more places is the greater one of the two. -/
theorem nestingList_append (entries entries' : List (Option Value)) :
    nestingList (entries ++ entries') = max (nestingList entries) (nestingList entries') := by
  induction entries with
  | nil => rw [List.nil_append, nestingList, Nat.zero_max]
  | cons entry entries ih => rw [List.cons_append, nestingList, nestingList, ih, Nat.max_assoc]

/-- A limit holds for some places if it holds for each of them. -/
theorem lengthsWithinList_iff (limit : Nat) (entries : List (Option Value)) :
    lengthsWithinList limit entries = true ↔ ∀ entry ∈ entries, lengthsWithinOption limit entry = true := by
  induction entries with
  | nil => simp [lengthsWithinList]
  | cons entry entries ih => simp only [lengthsWithinList, Bool.and_eq_true, ih, List.forall_mem_cons]

/-- A limit holds for places and more places if it holds for both. -/
theorem lengthsWithinList_append (limit : Nat) (entries entries' : List (Option Value)) :
    lengthsWithinList limit (entries ++ entries') =
      (lengthsWithinList limit entries && lengthsWithinList limit entries') := by
  induction entries with
  | nil => rw [List.nil_append, lengthsWithinList, Bool.true_and]
  | cons entry entries ih => rw [List.cons_append, lengthsWithinList, lengthsWithinList, ih, Bool.and_assoc]

mutual

/-- A greater limit admits more. -/
theorem lengthsWithin_mono {limit limit' : Nat} (h : limit ≤ limit') :
    ∀ value, lengthsWithin limit value = true → lengthsWithin limit' value = true
  | octets _, hl => decide_eq_true (Nat.le_trans (of_decide_eq_true hl) h)
  | bits _, hl => decide_eq_true (Nat.le_trans (of_decide_eq_true hl) h)
  | text _, hl => decide_eq_true (Nat.le_trans (of_decide_eq_true hl) h)
  | sequence fields, hl => lengthsWithinList_mono h fields hl
  | sequenceOf elements, hl => by
    rw [lengthsWithin, Bool.and_eq_true] at hl ⊢
    exact ⟨decide_eq_true (Nat.le_trans (of_decide_eq_true hl.1) h), lengthsWithinList_mono h elements hl.2⟩
  | choice _ payload, hl => lengthsWithinOption_mono h payload hl
  | null, _ => rfl
  | boolean _, _ => rfl
  | integer _, _ => rfl
  | enumerated _, _ => rfl

/-- A greater limit admits more in a place. -/
theorem lengthsWithinOption_mono {limit limit' : Nat} (h : limit ≤ limit') :
    ∀ entry, lengthsWithinOption limit entry = true → lengthsWithinOption limit' entry = true
  | none, _ => rfl
  | some value, hl => lengthsWithin_mono h value hl

/-- A greater limit admits more in some places. -/
theorem lengthsWithinList_mono {limit limit' : Nat} (h : limit ≤ limit') :
    ∀ entries, lengthsWithinList limit entries = true → lengthsWithinList limit' entries = true
  | [], _ => rfl
  | entry :: entries, hl => by
    rw [lengthsWithinList, Bool.and_eq_true] at hl ⊢
    exact ⟨lengthsWithinOption_mono h entry hl.1, lengthsWithinList_mono h entries hl.2⟩

end

end Value

namespace Descriptor

/-- Whether a value is one of a type without parts. -/
def simpleConforms (type : Descriptor) (plain : SimpleType) (value : Value) : Bool :=
  let c := type.constraint
  match plain, value with
  | .null, .null => true
  | .boolean, .boolean _ => true
  | .integer _, .integer value => c.extensible || c.bounds.contains value
  | .octetString _, .octets data => c.extensible || SizedContent.inRoot c.size data.size
  | .bitString _, .bits run => run.covered && (c.extensible || SizedContent.inRoot c.size run.length.toNat)
  | .text .., .text data =>
    CharacterString.legal c.alphabet data &&
      (c.alphabet == .utf8 || c.extensible || SizedContent.inRoot c.size data.size)
  | _, _ => false

mutual

/-- Whether a value is one of a type. -/
def conforms : Descriptor → Value → Bool
  | .simple name plain extensible, value => simpleConforms (.simple name plain extensible) plain value
  | .enumerated _ items _, value =>
    match value with
    | .enumerated index => index.toNat < items.length
    | _ => false
  | .sequence _ fields _, value =>
    match value with
    | .sequence entries => fieldsConform fields entries
    | _ => false
  | .sequenceOf name element size extensible, value =>
    let c := (Descriptor.sequenceOf name element size extensible).constraint
    match value with
    | .sequenceOf elements =>
      (c.extensible || SizedContent.inRoot c.size elements.length) &&
        elements.all fun entry => entry.any fun value => conforms element value
    | _ => false
  | .choice _ alternatives _, value =>
    match value with
    | .choice index (some payload) => alternativeConforms alternatives index.toNat payload
    | _ => false

/-- Whether some fields have an entry each, and each entry is a value of the type of its field or missing where that is
OPTIONAL. -/
def fieldsConform : List (Field Descriptor) → List (Option Value) → Bool
  | [], [] => true
  | ⟨_, optional, type⟩ :: fields, entry :: entries =>
    (match entry with
     | some value => conforms type value
     | none => optional) && fieldsConform fields entries
  | _, _ => false

/-- Whether there is an alternative of an index and a value is one of its type. -/
def alternativeConforms : List (String × Descriptor) → Nat → Value → Bool
  | (_, type) :: _, 0, payload => conforms type payload
  | _ :: alternatives, index + 1, payload => alternativeConforms alternatives index payload
  | [], _, _ => false

end

mutual

/-- The contents of the open types in the form of a value. -/
def openContents : Descriptor → Value → List (List Bool)
  | .sequence name fields standard, value =>
    let c := (Descriptor.sequence name fields standard).constraint
    match value with
    | .sequence entries =>
      ((parts fields entries).drop c.standardCount).filterMap (·.content) ++ fieldsContents fields entries
    | _ => []
  | .sequenceOf _ element _ _, value =>
    match value with
    | .sequenceOf elements => elements.flatMap fun entry => (entry.map fun value => openContents element value).getD []
    | _ => []
  | .choice name alternatives standard, value =>
    let c := (Descriptor.choice name alternatives standard).constraint
    match value with
    | .choice index (some payload) =>
      (if c.standardCount ≤ index.toNat then [alternativeBits alternatives index.toNat payload] else []) ++
        alternativeContents alternatives index.toNat payload
    | _ => []
  | _, _ => []

/-- The contents of the open types in the forms of the values of some fields. -/
def fieldsContents : List (Field Descriptor) → List (Option Value) → List (List Bool)
  | ⟨_, _, type⟩ :: fields, entry :: entries =>
    (entry.map fun value => openContents type value).getD [] ++ fieldsContents fields entries
  | _, _ => []

/-- The contents of the open types in the form of the value of an alternative. -/
def alternativeContents : List (String × Descriptor) → Nat → Value → List (List Bool)
  | (_, type) :: _, 0, payload => openContents type payload
  | _ :: alternatives, index + 1, payload => alternativeContents alternatives index payload
  | [], _, _ => []

end

/-- Whether no open type in the form of a value is longer than a limit in octets. -/
def contentsWithin (limit : Nat) (type : Descriptor) (value : Value) : Bool :=
  (type.openContents value).all (OpenType.octetCount · ≤ limit)

/-- Whether the entry of a field is a value of its type, or missing where the field is OPTIONAL. -/
def entryConforms (optional : Bool) (type : Descriptor) : Option Value → Bool
  | some value => type.conforms value
  | none => optional

/-- The first entry conforms to the first field, and the others to the others. -/
theorem fieldsConform_cons (field : Field Descriptor) (fields : List (Field Descriptor)) (entry : Option Value)
    (entries : List (Option Value)) :
    fieldsConform (field :: fields) (entry :: entries) =
      (entryConforms field.optional field.type entry && fieldsConform fields entries) := by
  cases entry <;> rfl

/-- A value of a sequence has as many entries as the type has fields. -/
theorem length_of_fieldsConform {fields : List (Field Descriptor)} {entries : List (Option Value)}
    (h : fieldsConform fields entries = true) : entries.length = fields.length := by
  induction fields generalizing entries with
  | nil =>
    cases entries with
    | nil => rfl
    | cons entry entries => simp [fieldsConform] at h
  | cons field fields ih =>
    cases entries with
    | nil => simp [fieldsConform] at h
    | cons entry entries =>
      simp only [fieldsConform, Bool.and_eq_true] at h
      rw [List.length_cons, List.length_cons, ih h.2]

/-- Entries of fields and of more fields conform if both do. -/
theorem fieldsConform_append (fields fields' : List (Field Descriptor)) {entries : List (Option Value)}
    (entries' : List (Option Value)) (h : entries.length = fields.length) :
    fieldsConform (fields ++ fields') (entries ++ entries') =
      (fieldsConform fields entries && fieldsConform fields' entries') := by
  induction fields generalizing entries with
  | nil =>
    obtain rfl : entries = [] := List.eq_nil_of_length_eq_zero h
    simp [fieldsConform]
  | cons field fields ih =>
    cases entries with
    | nil => cases h
    | cons entry entries =>
      rw [List.cons_append, List.cons_append, fieldsConform_cons, fieldsConform_cons, ih (Nat.succ.inj h), Bool.and_assoc]

/-- The open types of fields and of more fields are those of both, in this order. -/
theorem fieldsContents_append (fields fields' : List (Field Descriptor)) {entries : List (Option Value)}
    (entries' : List (Option Value)) (h : entries.length = fields.length) :
    fieldsContents (fields ++ fields') (entries ++ entries') =
      fieldsContents fields entries ++ fieldsContents fields' entries' := by
  induction fields generalizing entries with
  | nil =>
    obtain rfl : entries = [] := List.eq_nil_of_length_eq_zero h
    simp [fieldsContents]
  | cons field fields ih =>
    cases entries with
    | nil => cases h
    | cons entry entries =>
      rw [List.cons_append, List.cons_append, fieldsContents, fieldsContents, ih (Nat.succ.inj h), List.append_assoc]

/-- Where no field is present, all fields are OPTIONAL and all entries are missing. -/
theorem absent_of_not_anyPresent {fields : List (Field Descriptor)} {entries : List (Option Value)}
    (hc : fieldsConform fields entries = true) (h : Part.anyPresent (parts fields entries) = false) :
    (∀ field ∈ fields, field.optional = true) ∧ entries = fields.map fun _ => none := by
  induction fields generalizing entries with
  | nil => exact ⟨fun _ hf => absurd hf List.not_mem_nil, List.eq_nil_of_length_eq_zero (length_of_fieldsConform hc)⟩
  | cons field fields ih =>
    cases entries with
    | nil => exact absurd hc Bool.false_ne_true
    | cons entry entries =>
      rw [fieldsConform_cons, Bool.and_eq_true] at hc
      rw [parts, Part.anyPresent, List.any_cons, Bool.or_eq_false_iff] at h
      obtain ⟨ho, he⟩ := ih hc.2 h.2
      cases entry with
      | some value => exact absurd h.1 (by simp)
      | none =>
        refine ⟨fun f hf => ?_, by rw [he, List.map_cons]⟩
        rcases List.mem_cons.mp hf with rfl | hf
        · exact hc.1
        · exact ho f hf

/-- The alternative of an index, if there is one, decides about a value of it. -/
theorem alternativeConforms_eq (alternatives : List (String × Descriptor)) (index : Nat) (payload : Value) :
    alternativeConforms alternatives index payload = alternatives[index]?.any (·.2.conforms payload) := by
  induction alternatives generalizing index with
  | nil => simp [alternativeConforms]
  | cons alternative alternatives ih =>
    cases index with
    | zero => simp [alternativeConforms]
    | succ index => simp [alternativeConforms, ih]

/-- A value of a choice is that of one of its alternatives. -/
theorem exists_alternative {name : String} {alternatives : List (String × Descriptor)} {standard : Option Nat} {value : Value}
    (hc : (choice name alternatives standard).conforms value = true) :
    ∃ index payload alternative, value = .choice index (some payload) ∧ alternatives[index.toNat]? = some alternative ∧
      alternative.2.conforms payload = true := by
  cases value
  case choice index payload =>
    cases payload with
    | none => exact absurd hc Bool.false_ne_true
    | some payload =>
      have hc' : alternativeConforms alternatives index.toNat payload = true := hc
      rw [alternativeConforms_eq, Option.any_eq_true] at hc'
      obtain ⟨alternative, ha, hpayload⟩ := hc'
      exact ⟨index, payload, alternative, rfl, ha, hpayload⟩
  all_goals exact absurd hc Bool.false_ne_true

/-- The bits of a payload are those of its value under the type of the alternative. -/
theorem alternativeBits_eq {alternatives : List (String × Descriptor)} {index : Nat} {alternative : String × Descriptor}
    (h : alternatives[index]? = some alternative) (payload : Value) :
    alternativeBits alternatives index payload = alternative.2.bits payload := by
  induction alternatives generalizing index with
  | nil => simp at h
  | cons first alternatives ih =>
    cases index with
    | zero =>
      obtain rfl : first = alternative := by simpa using h
      rfl
    | succ index => exact ih (by simpa using h)

/-- The open types in a payload are those in its value under the type of the alternative. -/
theorem alternativeContents_eq {alternatives : List (String × Descriptor)} {index : Nat}
    {alternative : String × Descriptor} (h : alternatives[index]? = some alternative) (payload : Value) :
    alternativeContents alternatives index payload = alternative.2.openContents payload := by
  induction alternatives generalizing index with
  | nil => simp at h
  | cons first alternatives ih =>
    cases index with
    | zero =>
      obtain rfl : first = alternative := by simpa using h
      rfl
    | succ index => exact ih (by simpa using h)

end Descriptor

end UnalignedPer
