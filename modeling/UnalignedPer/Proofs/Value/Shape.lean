import UnalignedPer.Proofs.Message.AdmissionTypes
import UnalignedPer.Proofs.Text.Utf8

/-!
# The shape of a value

A value has the shape of a type if it is built as the type says: of the right kind, with one entry for each field, with no part
missing that has to be there, and with items and alternatives that exist. What bounds and alphabets say does not count
(`Descriptor.shapes`). Every value of a type has its shape (`Descriptor.shapes_tidy`), and so has everything that is read
(`Descriptor.shapes_of_decode`), also a number that is too great for its type.
-/

namespace UnalignedPer

namespace Descriptor

/-- Whether a value has the shape of a type without parts. A bit string may have so many bits and has to hold them, a text has to
be legal. -/
def simpleShapes (limit : Nat) (plain : SimpleType) (value : Value) : Bool :=
  match plain, value with
  | .null, .null => true
  | .boolean, .boolean _ => true
  | .integer _, .integer _ => true
  | .octetString _, .octets _ => true
  | .bitString _, .bits run => run.covered && run.length.toNat ≤ limit
  | .text .., .text data => Utf8.isLegal data
  | _, _ => false

mutual

/-- Whether a value has the shape of a type, with bit strings of no more bits than a limit. -/
def shapes (limit : Nat) : Descriptor → Value → Bool
  | .simple _ plain _, value => simpleShapes limit plain value
  | .enumerated _ items _, value =>
    match value with
    | .enumerated index => index.toNat < items.length
    | _ => false
  | .sequence _ fields _, value =>
    match value with
    | .sequence entries => fieldsShape limit fields entries
    | _ => false
  | .sequenceOf _ element _ _, value =>
    match value with
    | .sequenceOf elements => elements.all fun entry => entry.any fun value => shapes limit element value
    | _ => false
  | .choice _ alternatives _, value =>
    match value with
    | .choice index (some payload) => alternativeShapes limit alternatives index.toNat payload
    | _ => false

/-- Whether some fields have an entry each, and each entry has the shape of its field or is missing where that is OPTIONAL. -/
def fieldsShape (limit : Nat) : List (Field Descriptor) → List (Option Value) → Bool
  | [], [] => true
  | ⟨_, optional, type⟩ :: fields, entry :: entries =>
    (match entry with
     | some value => shapes limit type value
     | none => optional) && fieldsShape limit fields entries
  | _, _ => false

/-- Whether there is an alternative of an index and a value has the shape of its type. -/
def alternativeShapes (limit : Nat) : List (String × Descriptor) → Nat → Value → Bool
  | (_, type) :: _, 0, payload => shapes limit type payload
  | _ :: alternatives, index + 1, payload => alternativeShapes limit alternatives index payload
  | [], _, _ => false

end

variable {limit : Nat}

/-- Entries have the shape of their fields one by one. -/
theorem fieldsShape_iff {fields : List (Field Descriptor)} {entries : List (Option Value)} :
    fieldsShape limit fields entries = true ↔
      List.Forall₂ (EntryHas (fun type _ value => type.shapes limit value = true) 0) fields entries := by
  induction fields generalizing entries with
  | nil =>
    cases entries with
    | nil => exact ⟨fun _ => .nil, fun _ => rfl⟩
    | cons entry entries => exact ⟨fun h => absurd h Bool.false_ne_true, fun h => by cases h⟩
  | cons field fields ih =>
    cases entries with
    | nil => exact ⟨fun h => absurd h Bool.false_ne_true, fun h => by cases h⟩
    | cons entry entries =>
      rw [List.forall₂_cons, ← ih]
      cases entry <;> exact Bool.and_eq_true_iff

/-- The alternative of an index, if there is one, decides about the shape of a value of it. -/
theorem alternativeShapes_eq (alternatives : List (String × Descriptor)) (index : Nat) (payload : Value) :
    alternativeShapes limit alternatives index payload = alternatives[index]?.any (·.2.shapes limit payload) := by
  induction alternatives generalizing index with
  | nil => simp [alternativeShapes]
  | cons alternative alternatives ih =>
    cases index with
    | zero => simp [alternativeShapes]
    | succ index => simp [alternativeShapes, ih]

/-- A value has the shape of an alternative that there is. -/
theorem alternativeShapes_iff {alternatives : List (String × Descriptor)} {index : Nat} {payload : Value} :
    alternativeShapes limit alternatives index payload = true ↔
      ∃ alternative, alternatives[index]? = some alternative ∧ alternative.2.shapes limit payload = true := by
  rw [alternativeShapes_eq, Option.any_eq_true]

/-! ## Values of the type -/

/-- The entries of a sequence have the shapes of its fields in as few octets as possible, if the values of the fields do. -/
theorem entriesShape_tidy {fields : List (Field Descriptor)} {entries : List (Option Value)}
    (h : ∀ field ∈ fields, ∀ value, field.type.conforms value = true → value.lengthsWithin limit = true →
      field.type.shapes limit value.tidy = true)
    (hc : fieldsConform fields entries = true) (hl : Value.lengthsWithinList limit entries = true) :
    List.Forall₂ (EntryHas (fun type _ value => type.shapes limit value = true) 0) fields (Value.tidyList entries) := by
  induction fields generalizing entries with
  | nil =>
    obtain rfl := List.eq_nil_of_length_eq_zero (length_of_fieldsConform hc)
    exact .nil
  | cons field fields ih =>
    cases entries with
    | nil => exact absurd hc Bool.false_ne_true
    | cons entry entries =>
      rw [fieldsConform_cons, Bool.and_eq_true] at hc
      rw [Value.lengthsWithinList, Bool.and_eq_true] at hl
      refine .cons ?_ (ih (fun f hf => h f (List.mem_cons_of_mem _ hf)) hc.2 hl.2)
      cases entry with
      | none => exact hc.1
      | some value => exact h field (List.mem_cons_self ..) value hc.1 hl.1

/-- A value of a type has its shape in as few octets as possible. -/
theorem shapes_tidy (type : Descriptor) : ∀ value, type.conforms value = true → value.lengthsWithin limit = true →
    type.shapes limit value.tidy = true := by
  induction type using Descriptor.induction with
  | simple name plain extensible =>
    intro value hc hl
    cases plain <;> cases value
    case bitString.bits size run =>
      have hlength : run.toList.length = run.length.toNat := BitString.length_toList run
      refine Bool.and_eq_true_iff.mpr ⟨decide_eq_true ?_, hl⟩
      show run.length.toNat ≤ (Octets.ofBits run.toList).size * 8
      rw [Octets.size_ofBits, hlength, Octets.countFor]
      omega
    case text.text alphabet size data => exact CharacterString.isLegal_of_legal (Bool.and_eq_true_iff.mp hc).1
    case null.null | boolean.boolean | integer.integer | octetString.octets => rfl
    all_goals exact absurd hc Bool.false_ne_true
  | enumerated name items standard =>
    intro value hc _
    cases value
    case enumerated index => exact hc
    all_goals exact absurd hc Bool.false_ne_true
  | sequence name fields standard ih =>
    intro value hc hl
    cases value
    case sequence entries =>
      exact fieldsShape_iff.mpr (entriesShape_tidy ih hc hl)
    all_goals exact absurd hc Bool.false_ne_true
  | sequenceOf name element size extensible ih =>
    intro value hc hl
    cases value
    case sequenceOf elements =>
      rw [conforms, Bool.and_eq_true, List.all_eq_true] at hc
      rw [Value.lengthsWithin, Bool.and_eq_true, Value.lengthsWithinList_iff] at hl
      rw [Value.tidy, shapes, List.all_eq_true, Value.tidyList_eq_map]
      intro entry hm
      obtain ⟨given, hg, rfl⟩ := List.mem_map.mp hm
      obtain ⟨value, rfl, hv⟩ := (Option.any_eq_true _ _).mp (hc.2 given hg)
      exact ih value hv (hl.2 _ hg)
    all_goals exact absurd hc Bool.false_ne_true
  | choice name alternatives standard ih =>
    intro value hc hl
    obtain ⟨index, payload, alternative, rfl, ha, hpayload⟩ := exists_alternative hc
    exact alternativeShapes_iff.mpr ⟨alternative, ha, ih alternative (List.mem_of_getElem? ha) payload hpayload hl⟩

/-! ## Values that were read -/

variable {room : Nat} {settings : Settings}

/-- A value without parts that was read. A bit string is no longer than its source, nor than is admitted. -/
theorem admitsField_shapes (name : String) (plain : SimpleType) (extensible : Bool) {depth : Nat}
    (ho : (simple name plain extensible).ordered = true) (hlimit : min room settings.maxLength.toNat ≤ limit) :
    Reader.AdmitsField room depth settings (readSimple (.simple name plain extensible) plain)
      fun value => simpleShapes limit plain value = true := by
  have hsize := size_ordered ho
  cases plain with
  | null =>
    have hnull : Reader.AdmitsField room depth settings Reader.null fun _ => True :=
      Reader.admitsField_field (Reader.admits_pure trivial)
    exact hnull.bind fun _ _ => Reader.admits_pure rfl
  | boolean =>
    have hbit : Reader.AdmitsField room depth settings Reader.boolean fun _ => True :=
      Reader.admitsField_field (Reader.admits_of_gives fun r _ => Unpacker.gives_bit r)
    exact hbit.map Value.boolean fun _ _ => rfl
  | integer range => exact (Reader.admitsField_integer _).map Value.integer fun _ _ => rfl
  | octetString size => exact (Reader.admitsField_octetString _ hsize).map Value.octets fun _ _ => rfl
  | bitString size =>
    refine (Reader.admitsField_bitString _ hsize).map Value.bits ?_
    rintro run ⟨⟨hcovered, hl, -⟩, hroom⟩
    exact Bool.and_eq_true_iff.mpr ⟨hcovered, decide_eq_true (Nat.le_trans (Nat.le_min.mpr ⟨hroom, hl⟩) hlimit)⟩
  | text alphabet size =>
    refine (Reader.admitsField_characterString _ hsize).map Value.text ?_
    rintro data ⟨hlegal, -⟩
    exact CharacterString.isLegal_of_legal hlegal

/-- The shape passes from the parts of a value to the value. -/
theorem shapes_inherited (hlimit : min room settings.maxLength.toNat ≤ limit) :
    Inherited room settings fun type _ value => type.shapes limit value = true where
  simple name plain extensible _ ho _ := admitsField_shapes name plain extensible ho hlimit
  enumerated _ _ _ _ _ _ hi := decide_eq_true hi
  sequence _ _ _ _ _ _ he := fieldsShape_iff.mpr he
  sequenceOf _ element _ _ _ found _ hl := by
    rw [shapes, List.all_eq_true]
    intro entry hm
    obtain ⟨value, rfl, hv⟩ := hl.elements entry (Array.mem_toList_iff.mp hm)
    exact hv
  choice _ _ _ _ _ alternative _ _ ha hv := alternativeShapes_iff.mpr ⟨alternative, ha, hv⟩

/-- What is decoded has the shape of its type, with bit strings no longer than the message, nor than is admitted. -/
theorem shapes_of_decode {type : Descriptor} {data : Octets} {length : Nat} {found : Decoding}
    (ho : type.everywhere ordered = true) (hlimit : min (min length (data.size * 8)) settings.maxLength.toNat ≤ limit)
    (h : (decode settings type data length).1 = .ok found) : type.shapes limit found.value = true :=
  (shapes_inherited hlimit).decode ho h

end Descriptor

end UnalignedPer
