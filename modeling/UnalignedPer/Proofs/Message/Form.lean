import UnalignedPer.Message.Encode
import UnalignedPer.Proofs.BitString
import UnalignedPer.Proofs.ChoiceIndex
import UnalignedPer.Proofs.Descriptor
import UnalignedPer.Proofs.Text.CharacterString

/-!
# The packed form of a value

`Descriptor.bits` is the packed form of a value under a type as a list of bits, put together from the forms of its parts. It
knows nothing of buffers, positions and scopes: the extension marker and the presence bits of a sequence stand in front of
the fields because they are written there, and an open type is the octet string of a list of bits.

The form is defined for every value. It is what `encode` writes for the values that conform to the type.
-/

namespace UnalignedPer

/-- A field of a sequence as it goes into the form: whether it is OPTIONAL, and the form of its value if it is present. -/
structure Part where
  /-- Whether the field may be absent. -/
  optional : Bool
  /-- The form of the value, if there is one. -/
  content : Option (List Bool)

namespace Part

/-- The presence bit of a field. Extension fields have one in any case, standard fields when they are OPTIONAL. -/
def mark (extension : Bool) (part : Part) : List Bool :=
  if extension || part.optional then [part.content.isSome] else []

/-- The form of a field that is present. That of an extension field is an open type. -/
def body (extension : Bool) (part : Part) : List Bool :=
  match part.content with
  | none => []
  | some bits => if extension then OpenType.form bits else bits

/-- The presence bits of some fields. -/
def marks (extension : Bool) (parts : List Part) : List Bool :=
  parts.flatMap (mark extension)

/-- The forms of the fields that are present. -/
def bodies (extension : Bool) (parts : List Part) : List Bool :=
  parts.flatMap (body extension)

/-- Whether any of some fields is present. -/
def anyPresent (parts : List Part) : Bool :=
  parts.any (·.content.isSome)

/-- The extension block: the number of extension fields, a presence bit for each and the ones that are present. -/
def block (extensions : List Part) : List Bool :=
  WholeNumber.smallForm (extensions.length - 1) ++ marks true extensions ++ bodies true extensions

/-- The form of a sequence from its fields before and after the extension marker. -/
def form (extensible : Bool) (standard extensions : List Part) : List Bool :=
  (if extensible then [anyPresent extensions] else []) ++ marks false standard ++ bodies false standard ++
    if anyPresent extensions then block extensions else []

end Part

namespace Descriptor

/-- The form of a value of a type without parts. -/
def simpleBits (type : Descriptor) (plain : SimpleType) (value : Value) : List Bool :=
  let c := type.constraint
  match plain, value with
  | .boolean, .boolean value => [value]
  | .integer _, .integer value => WholeNumber.integerForm c.bounds c.extensible value
  | .octetString _, .octets data => OctetString.form c.size c.extensible data
  | .bitString _, .bits run => BitString.form c.size c.extensible run
  | .text .., .text data => CharacterString.form c.alphabet c.size c.extensible data
  | _, _ => []

mutual

/-- The form of a value. -/
def bits : Descriptor → Value → List Bool
  | .simple name plain extensible, value => simpleBits (.simple name plain extensible) plain value
  | .enumerated name items standard, value =>
    let c := (Descriptor.enumerated name items standard).constraint
    match value with
    | .enumerated index => ChoiceIndex.form c.standardCount c.extensible index.toNat
    | _ => []
  | .sequence name fields standard, value =>
    let c := (Descriptor.sequence name fields standard).constraint
    match value with
    | .sequence entries =>
      let parts := parts fields entries
      Part.form c.extensible (parts.take c.standardCount) (parts.drop c.standardCount)
    | _ => []
  | .sequenceOf name element size extensible, value =>
    let c := (Descriptor.sequenceOf name element size extensible).constraint
    match value with
    | .sequenceOf elements =>
      SizedContent.form c.size c.extensible (elements.map fun entry => (entry.map fun value => bits element value).getD [])
    | _ => []
  | .choice name alternatives standard, value =>
    let c := (Descriptor.choice name alternatives standard).constraint
    match value with
    | .choice index (some payload) =>
      let content := alternativeBits alternatives index.toNat payload
      ChoiceIndex.form c.standardCount c.extensible index.toNat ++
        if c.standardCount ≤ index.toNat then OpenType.form content else content
    | _ => []

/-- The fields of a sequence with the forms of their values. -/
def parts : List (Field Descriptor) → List (Option Value) → List Part
  | ⟨_, optional, type⟩ :: fields, entry :: entries =>
    ⟨optional, entry.map fun value => bits type value⟩ :: parts fields entries
  | _, _ => []

/-- The form of the value of an alternative. -/
def alternativeBits : List (String × Descriptor) → Nat → Value → List Bool
  | (_, type) :: _, 0, payload => bits type payload
  | _ :: alternatives, index + 1, payload => alternativeBits alternatives index payload
  | [], _, _ => []

end

theorem parts_append (fields fields' : List (Field Descriptor)) {entries : List (Option Value)}
    (entries' : List (Option Value)) (h : entries.length = fields.length) :
    parts (fields ++ fields') (entries ++ entries') = parts fields entries ++ parts fields' entries' := by
  induction fields generalizing entries with
  | nil =>
    obtain rfl : entries = [] := List.eq_nil_of_length_eq_zero h
    rfl
  | cons field fields ih =>
    cases entries with
    | nil => cases h
    | cons entry entries =>
      rw [List.cons_append, List.cons_append, parts, parts, ih (Nat.succ.inj h), List.cons_append]

theorem length_parts {fields : List (Field Descriptor)} {entries : List (Option Value)}
    (h : entries.length = fields.length) : (parts fields entries).length = fields.length := by
  induction fields generalizing entries with
  | nil =>
    obtain rfl : entries = [] := List.eq_nil_of_length_eq_zero h
    rfl
  | cons field fields ih =>
    cases entries with
    | nil => cases h
    | cons entry entries => rw [parts, List.length_cons, List.length_cons, ih (Nat.succ.inj h)]

/-- Before the extension marker the optional fields take a bit. -/
theorem length_marks_false {fields : List (Field Descriptor)} {entries : List (Option Value)}
    (h : entries.length = fields.length) :
    (Part.marks false (parts fields entries)).length = fields.countP (·.optional) := by
  induction fields generalizing entries with
  | nil =>
    obtain rfl : entries = [] := List.eq_nil_of_length_eq_zero h
    rfl
  | cons field fields ih =>
    cases entries with
    | nil => cases h
    | cons entry entries =>
      rw [parts, Part.marks, List.flatMap_cons, List.length_append, List.countP_cons, ← ih (Nat.succ.inj h), Nat.add_comm]
      congr 1
      cases field.optional <;> simp [Part.mark]

/-- The form of a sequence from its fields and entries before and after the marker. -/
theorem bits_sequence {name : String} {fields root extensions : List (Field Descriptor)} {standard : Option Nat}
    {entries entries' : List (Option Value)} (h : Halves name fields standard root extensions)
    (hlen : entries.length = root.length) :
    (sequence name fields standard).bits (.sequence (entries ++ entries')) =
      Part.form standard.isSome (parts root entries) (parts extensions entries') := by
  have hparts : parts fields (entries ++ entries') = parts root entries ++ parts extensions entries' := by
    rw [h.all, parts_append root extensions entries' hlen]
  have hform : (sequence name fields standard).bits (.sequence (entries ++ entries')) =
      Part.form standard.isSome
        ((parts fields (entries ++ entries')).take (sequence name fields standard).constraint.standardCount)
        ((parts fields (entries ++ entries')).drop (sequence name fields standard).constraint.standardCount) := rfl
  rw [hform, hparts, h.standardCount, ← length_parts hlen, List.take_left, List.drop_left]

end Descriptor

/-- After the extension marker every field takes a bit. -/
theorem Part.length_marks_true (parts : List Part) : (Part.marks true parts).length = parts.length := by
  induction parts with
  | nil => rfl
  | cons part parts ih =>
    rw [Part.marks, List.flatMap_cons, List.length_append, List.length_cons, ← ih, Nat.add_comm]
    rfl

/-- The form of a field that is present. -/
theorem Part.body_of_content {part : Part} {bits : List Bool} (h : part.content = some bits) (extension : Bool) :
    part.body extension = if extension then OpenType.form bits else bits := by
  rw [body, h]

/-- A field that is present stands among the forms of the fields. -/
theorem Part.length_body_le {parts : List Part} {part : Part} (hm : part ∈ parts) (extension : Bool) :
    (part.body extension).length ≤ (bodies extension parts).length := by
  obtain ⟨before, after, rfl⟩ := List.mem_iff_append.mp hm
  rw [bodies, List.flatMap_append, List.flatMap_cons, List.length_append, List.length_append]
  omega

/-- An extension field that is present stands in a sequence, as an open type. -/
theorem Part.length_openType_le (extensible : Bool) (standard : List Part) {extensions : List Part} {part : Part}
    (hm : part ∈ extensions) {bits : List Bool} (hb : part.content = some bits) :
    (OpenType.form bits).length ≤ (form extensible standard extensions).length := by
  have hany : anyPresent extensions = true := List.any_eq_true.mpr ⟨part, hm, by rw [hb]; rfl⟩
  have hbody := length_body_le hm true
  rw [body_of_content hb, if_pos rfl] at hbody
  rw [form, if_pos hany, block]
  simp only [List.length_append]
  omega

/-- A field that is present stands in a sequence. -/
theorem Part.length_content_le (extensible : Bool) {standard extensions : List Part} {part : Part}
    (hm : part ∈ standard ++ extensions) {bits : List Bool} (hb : part.content = some bits) :
    bits.length ≤ (form extensible standard extensions).length := by
  rcases List.mem_append.mp hm with hm | hm
  · have hbody := length_body_le hm false
    rw [body_of_content hb, if_neg Bool.false_ne_true] at hbody
    simp only [form, List.length_append]
    omega
  · have hopen := length_openType_le extensible standard hm hb
    have hcount := OpenType.octetCount_le_length_form bits
    have hfits := OpenType.length_le_octetCount bits
    omega

/-- The presence bits of the extension fields tell whether any is present. -/
theorem Part.any_marks_true (parts : List Part) : (Part.marks true parts).any id = Part.anyPresent parts := by
  induction parts with
  | nil => rfl
  | cons part parts ih =>
    have hmark : (part.mark true).any id = part.content.isSome := Bool.or_false _
    rw [Part.marks, List.flatMap_cons, List.any_append, hmark, Part.anyPresent, List.any_cons]
    exact congrArg (part.content.isSome || ·) ih

/-- The bits of an encoded message. -/
def Encoding.toList (e : Encoding) : List Bool :=
  Octets.bitsFrom e.octets 0 e.bitLength

end UnalignedPer
