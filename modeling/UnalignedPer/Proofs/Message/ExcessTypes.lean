import UnalignedPer.Proofs.Message.Excess

/-!
# What can go wrong with a sequence of the right shape

Along a sequence, `Writer.writes_entry` says which state an entry that was written leaves. In such a state the next presence bit
is there, so that only the content of the next entry can fail, and the end of the sequence cannot.
-/

namespace UnalignedPer

open Packer (Exceeds)

namespace Writer

/-! ## Entries -/

/-- The value of a field fails for an excess, if it fails, or is missing where the field is OPTIONAL. -/
abbrev EntryExceeds : Field Descriptor → Option Value → Prop :=
  Descriptor.EntryHas (fun type _ value => ExceedsField (type.write value)) 0

/-- An entry once its presence bit can be claimed. -/
theorem exceeds_claimed {w w1 : Writer} {extension : Bool} {field : Field Descriptor} {entry : Option Value}
    (he : EntryExceeds field entry) (hclaimed : w.claimed = none)
    (hclaim : claimSlot field.optional entry.isSome w = .ok extension w1) (hready : w1.Ready) :
    Exceeds w (Descriptor.writeEntry field.name field.optional (fun value => field.type.write value) entry) := by
  obtain ⟨name, optional, type⟩ := field
  cases entry with
  | none =>
    obtain rfl : optional = true := he
    have hm : opt false (pure ()) w = .ok () w1 := by
      rw [show Option.isSome (none : Option Value) = false from rfl] at hclaim
      simp only [opt, run_bind, hclaim]
      rfl
    exact Packer.exceeds_of_ok hm
  | some value =>
    have hvalue : ExceedsField (type.write value) := he
    rw [show Option.isSome (some value) = true from rfl] at hclaim
    cases optional with
    | false =>
      have henter : enterField w = .ok extension w1 := by
        simp only [enterField, run_bind, run_get, hclaimed]
        exact hclaim
      exact hvalue w w1 extension henter hready
    | true =>
      have hopt : opt true (type.write value) w =
          afterwards (fun w => { w with claimed := none }) (type.write value) { w1 with claimed := some extension } := by
        simp only [opt, run_bind, hclaim]
        rfl
      have hentered := hvalue _ w1 extension (enterField_claimed hready.claimed extension) hready
      intro fault w2 hm
      exact hentered.afterwards (fun w : Writer => { w with claimed := none }) fault w2 (hopt.symm.trans hm)

/-- One entry before the others. Where the stretch begins with the opening of the extension block, `w'` is the writer after
that. -/
theorem exceedsEntries_cons {extension : Bool} {field : Field Descriptor} {fields : List (Field Descriptor)}
    {entry : Option Value} {entries : List (Option Value)} {w w' : Writer} {p : Presence} {front back : List Bool}
    (ht : Written field.type) (he : EntryExceeds field entry)
    (hreach : reachSlot field.optional w = visitSlot field.optional w') (hclaimed : w.claimed = none)
    (hs : Stretch w' p front (Part.marks extension (Descriptor.parts (field :: fields) (entry :: entries))).length back)
    (ha : p.Awaits extension (fields.length + 1))
    (hrest : ∀ w2 p2 front2 back2, p2.Awaits extension fields.length →
      Stretch w2 p2 front2 (Part.marks extension (Descriptor.parts fields entries)).length back2 →
      Exceeds w2 (Descriptor.writeFields fields entries)) :
    Exceeds w (Descriptor.writeFields (field :: fields) (entry :: entries)) := by
  have hmarks : Part.marks extension (Descriptor.parts (field :: fields) (entry :: entries)) =
      (partOf field.optional field.type entry).mark extension ++
        Part.marks extension (Descriptor.parts fields entries) := rfl
  rw [hmarks, List.length_append] at hs
  obtain ⟨w1, p1, hclaim, hready, -⟩ := hs.claim hreach ha
  obtain ⟨hok, hfail⟩ := writes_entry field.name ht hreach hclaimed hs ha
  show Exceeds w (Descriptor.writeEntry field.name field.optional (fun value => field.type.write value) entry >>= fun _ =>
    Descriptor.writeFields fields entries)
  refine (exceeds_claimed he hclaimed hclaim hready).bind fun _ w2 hm => ?_
  obtain ⟨w3, p3, hm3, hpass, hst, -⟩ := hok (Packer.met_of_ok hfail hm)
  rw [hm] at hm3
  cases hm3
  rw [Nat.add_comm] at ha
  exact hrest w2 p3 _ _ (ha.passed hpass) hst

/-- The entries of a stretch. -/
theorem exceedsEntries {extension : Bool} {fields : List (Field Descriptor)} {entries : List (Option Value)}
    (h : ∀ field ∈ fields, Written field.type) (he : List.Forall₂ EntryExceeds fields entries) :
    ∀ w p front back, p.Awaits extension fields.length →
      Stretch w p front (Part.marks extension (Descriptor.parts fields entries)).length back →
      Exceeds w (Descriptor.writeFields fields entries) := by
  induction he with
  | nil => exact fun w p front back _ _ => Packer.exceeds_of_ok rfl
  | @cons field entry fields entries hentry _ ih =>
    intro w p front back ha hs
    exact exceedsEntries_cons (h field (List.mem_cons_self ..)) hentry (reachSlot_eq hs.presence ha hs.room_cons) hs.ready.claimed hs
      ha (ih fun f hf => h f (List.mem_cons_of_mem _ hf))

/-- Entries that were written went through the stretch. -/
theorem WritesEntries.of_ok {extension : Bool} {fields : List (Field Descriptor)} {entries : List (Option Value)}
    {w w' w2 : Writer} {p : Presence} {front back : List Bool} (h : WritesEntries extension fields entries w w' p front back)
    (hm : Descriptor.writeFields fields entries w = .ok () w2) :
    ∃ p2, p.Passed fields.length (Part.marks extension (Descriptor.parts fields entries)).length p2 ∧
      Stretch w2 p2 (front ++ Part.marks extension (Descriptor.parts fields entries)) 0
        (back ++ Part.bodies extension (Descriptor.parts fields entries)) := by
  obtain ⟨w3, p2, hm3, hpass, hst, -⟩ := h.1 (Packer.met_of_ok h.2 hm)
  rw [hm] at hm3
  cases hm3
  exact ⟨p2, hpass, hst⟩

/-- The extension fields, which open the extension block. -/
theorem exceeds_extensions {fields : List (Field Descriptor)} {entries : List (Option Value)} {w : Writer} {p : Presence}
    (h : ∀ field ∈ fields, Written field.type) (he : List.Forall₂ EntryExceeds fields entries)
    (hlt : fields.length < 2 ^ 64) (hr : w.Ready) (hp : w.presence = some p) (hrule : p.rule = .standardFields)
    (hs : p.standardLeft = 0) (hcount : p.extensions = fields.length) :
    Exceeds w (Descriptor.writeFields fields entries) := by
  cases he with
  | nil => exact Packer.exceeds_of_ok rfl
  | @cons field entry fields entries hentry hrest =>
    rw [List.length_cons] at hcount hlt
    obtain ⟨w', p', hm, -, hrule', -, -, hst⟩ := openExtensions_eq hr hp (by omega) (by omega)
    have hmarks : (Part.marks true (Descriptor.parts (field :: fields) (entry :: entries))).length = p.extensions := by
      rw [Part.length_marks_true, Descriptor.length_parts (congrArg (· + 1) hrest.length_eq.symm), List.length_cons, hcount]
    rw [← hmarks] at hst
    exact exceedsEntries_cons (h field (List.mem_cons_self ..)) hentry
      (reachSlot_openExtensions field.optional hp hrule hs (by omega) hm) hr.claimed hst
      (Presence.awaits_everyField hrule' _)
      (exceedsEntries (fun f hf => h f (List.mem_cons_of_mem _ hf)) hrest)

/-! ## Sequences -/

/-- A sequence without extension fields. -/
theorem exceedsAll_standard {fields : List (Field Descriptor)} {entries : List (Option Value)} {w : Writer} {p : Presence}
    {front : List Bool} (marker : Option Nat) (h : ∀ field ∈ fields, Written field.type)
    (he : List.Forall₂ EntryExceeds fields entries) (ha : p.Awaits false fields.length) (hh : p.header = none)
    (hs : Stretch w p front (Part.marks false (Descriptor.parts fields entries)).length []) :
    Exceeds w (Descriptor.writeFields fields entries >>= fun _ => closeSequence marker) := by
  refine (exceedsEntries h he w p front [] ha hs).bind fun _ w2 hm => ?_
  obtain ⟨p2, hpass, hs2⟩ := (writesEntries fields h entries w p front [] he.length_eq.symm ha hs).of_ok hm
  exact Packer.exceeds_of_ok (closeSequence_of_none marker hs2.presence (hpass.header.trans hh))

/-- A sequence with extension fields. -/
theorem exceedsAll_extensible {fields extensions : List (Field Descriptor)} {entries added : List (Option Value)} {w : Writer}
    {p : Presence} {base : List Bool} (h : ∀ field ∈ fields, Written field.type)
    (h' : ∀ field ∈ extensions, Written field.type) (he : List.Forall₂ EntryExceeds fields entries)
    (he' : List.Forall₂ EntryExceeds extensions added) (hne : extensions ≠ []) (hlt : extensions.length < 2 ^ 64)
    (ha : p.Awaits false fields.length) (hrule : p.rule = .standardFields) (hleft : p.standardLeft = fields.length)
    (hcount : p.extensions = extensions.length)
    (hs : Stretch w p (base ++ [false]) (Part.marks false (Descriptor.parts fields entries)).length []) :
    Exceeds w (Descriptor.writeFields (fields ++ extensions) (entries ++ added) >>= fun _ =>
      closeSequence (some base.length)) := by
  have hlen' := he'.length_eq.symm
  rw [writeFields_append fields extensions added he.length_eq.symm, bind_assoc]
  refine (exceedsEntries h he w p _ [] ha hs).bind fun _ w2 hm => ?_
  obtain ⟨p2, hpass, hs2⟩ := (writesEntries fields h entries w p _ [] he.length_eq.symm ha hs).of_ok hm
  have hleft2 : p2.standardLeft = 0 := by
    rw [hpass.standardLeft hrule, hleft, Nat.sub_self]
  have hrule2 := hpass.rule.trans hrule
  have hcount2 := hpass.extensions.trans hcount
  refine (exceeds_extensions h' he' hlt hs2.ready hs2.presence hrule2 hleft2 hcount2).bind fun _ w4 hm4 => ?_
  -- Both runs of fields were written, so the extension block can be closed.
  obtain ⟨w3, p3, -, hheader, hfirst, hstart, hext⟩ :=
    writes_extensions h' hlen' hne hlt hs2.ready hs2.presence hrule2 hleft2 hcount2
  obtain ⟨p4, hpass4, hs4⟩ := hext.of_ok hm4
  have hlist := hs2.list
  rw [List.replicate_zero, List.nil_append, List.nil_append] at hlist
  have hwp : w2.buffer.writePosition = w2.buffer.toList.length := (BitBuffer.length_toList _).symm
  rw [← Descriptor.length_parts hlen'] at hs4 hstart
  rw [List.nil_append] at hs4
  obtain ⟨w5, hm5, -⟩ := closeSequence_form hlist hs4 (by rw [hpass4.header, hheader, hwp]) (by rw [hpass4.first, hfirst, hstart])
  exact Packer.exceeds_of_ok hm5

/-- The fields of a sequence, written from the bits reserved for them on. -/
theorem exceedsAll_sequence {name : String} {fields : List (Field Descriptor)} {standard : Option Nat}
    {entries : List (Option Value)} {w : Writer} {base : List Bool} (h : ∀ field ∈ fields, Written field.type)
    (he : List.Forall₂ EntryExceeds fields entries) (hlt : fields.length < 2 ^ 64) (hr : w.Ready)
    (hp : w.presence = some (Presence.opening (Descriptor.sequence name fields standard).constraint
      (base.length + standard.isSome.toNat)))
    (hlist : w.buffer.toList = base ++ reservedBits (Descriptor.sequence name fields standard).constraint) :
    Exceeds w (Descriptor.writeFields fields entries >>= fun _ =>
      closeSequence (if standard.isSome then some base.length else none)) := by
  obtain ⟨root, extensions, given, added, hv, rfl, hgiven, hadded⟩ :=
    Descriptor.exists_halves name standard he.length_eq.symm
  obtain ⟨p, hs, hheader, ha, hext⟩ := exists_stretch hv hgiven hr hp hlist
  have hroot : ∀ field ∈ root, Written field.type := fun f hf => h f (by rw [hv.all]; exact List.mem_append_left _ hf)
  have hexts : ∀ field ∈ extensions, Written field.type := fun f hf =>
    h f (by rw [hv.all]; exact List.mem_append_right _ hf)
  have hfl : fields.length = root.length + extensions.length := by rw [hv.all, List.length_append]
  have hfirst := List.forall₂_take_append _ given added he
  have hlast := List.forall₂_drop_append _ given added he
  rw [hv.all, hgiven, List.take_left] at hfirst
  rw [hv.all, hgiven, List.drop_left] at hlast
  rw [hv.all]
  by_cases hne : extensions = []
  · subst hne
    obtain rfl : added = [] := List.eq_nil_of_length_eq_zero hadded
    rw [List.append_nil, List.append_nil]
    exact exceedsAll_standard _ hroot hfirst ha hheader hs
  · obtain ⟨hsome, hrule, hleft, hcount⟩ := hext hne
    simp only [hsome, if_true] at hs ⊢
    exact exceedsAll_extensible hroot hexts hfirst hlast hne (by omega) ha hrule hleft hcount hs

/-- A SEQUENCE of such entries. -/
theorem exceedsField_sequence {name : String} {fields : List (Field Descriptor)} {standard : Option Nat}
    {entries : List (Option Value)} (h : ∀ field ∈ fields, Written field.type)
    (he : List.Forall₂ EntryExceeds fields entries) (hlt : fields.length < 2 ^ 64) :
    ExceedsField
      (sequence (Descriptor.sequence name fields standard).constraint (Descriptor.writeFields fields entries)) := by
  refine exceedsField_container fun w hr => (writes_note w .basic _).bind_exceeds fun w0 hw0 => ?_
  have hr0 := hr.wrote hw0
  refine (writes_reserve w0 _).bind_exceeds fun w1 hw1 => Packer.Exceeds.afterwards _ (exceeds_withPresence ?_)
  have hr1 := hr0.wrote hw1
  have hwp : w0.buffer.writePosition = w0.buffer.toList.length := (BitBuffer.length_toList _).symm
  rw [hwp]
  exact exceedsAll_sequence h he hlt ⟨hr1.clean, hr1.claimed, hr1.depth, hr1.unread⟩ rfl hw1.1.toList

end Writer

namespace Descriptor

open Writer (ExceedsField)

variable {limit : Nat}

/-! ## Along the type -/

/-- A value of the shape of a type without parts. -/
theorem exceedsField_simple (type : Descriptor) {plain : SimpleType} {value : Value}
    (h : simpleShapes limit plain value = true) : ExceedsField (writeSimple type plain value) := by
  cases plain <;> cases value
  case null.null => exact Writer.exceedsField_field fun w => Packer.exceeds_of_ok rfl
  case boolean.boolean value => exact Writer.exceedsField_field fun w => Packer.exceeds_of_ok rfl
  case integer.integer range value => exact Writer.exceedsField_field fun w => WholeNumber.exceeds_packInteger w _ _ value
  case octetString.octets size data => exact Writer.exceedsField_field fun w => OctetString.exceeds_pack w _ _ data
  case bitString.bits size run =>
    have hcovered := (Bool.and_eq_true_iff.mp h).1
    exact Writer.exceedsField_field fun w => BitString.exceeds_pack w _ _ hcovered
  case text.text alphabet size data => exact Writer.exceedsField_field fun w => CharacterString.exceeds_pack w _ _ _ h
  all_goals exact absurd h Bool.false_ne_true

/-- The value of an alternative that there is. -/
theorem exceedsField_alternative {alternatives : List (String × Descriptor)} {index : Nat} {alternative : String × Descriptor}
    (ha : alternatives[index]? = some alternative) {payload : Value} (h : ExceedsField (alternative.2.write payload)) :
    ExceedsField (writeAlternative alternatives index payload) := by
  induction alternatives generalizing index with
  | nil => cases ha
  | cons first alternatives ih =>
    cases index with
    | zero =>
      obtain rfl : first = alternative := by simpa using ha
      exact h
    | succ index => exact ih (by simpa using ha)

/-- Elements that are all there. -/
theorem exceedsField_element {element : Descriptor} {elements : List (Option Value)}
    (h : ∀ entry ∈ elements, ∃ value, entry = some value ∧ ExceedsField (element.write value)) {index : Nat}
    (hi : index < elements.length) : ExceedsField (writeElement (fun value => element.write value) elements.toArray index) := by
  obtain ⟨value, hentry, hvalue⟩ := h _ (List.getElem_mem hi)
  unfold writeElement
  rw [List.getElem?_toArray, List.getElem?_eq_getElem hi, hentry]
  exact hvalue

/-- A value of the shape of a type fails to be written for an excess, if it fails. -/
theorem exceedsField_write (type : Descriptor) (hc : type.everywhere countable = true) :
    ∀ value, type.shapes limit value = true → ExceedsField (type.write value) := by
  induction type using Descriptor.induction with
  | simple name plain extensible => exact fun value h => exceedsField_simple _ h
  | enumerated name items standard =>
    intro value h
    cases value
    case enumerated index =>
      have hlt : (Descriptor.enumerated name items standard).constraint.count < 2 ^ 64 := of_decide_eq_true (of_everywhere hc)
      exact Writer.exceedsField_field fun w =>
        ((Writer.writesIf_index w _ (Nat.le_of_lt hlt) index).1 (of_decide_eq_true h)).exceeds
    all_goals exact absurd h Bool.false_ne_true
  | sequence name fields standard ih =>
    obtain ⟨hcount, hparts⟩ := everywhere_sequence.mp hc
    intro value h
    cases value
    case sequence entries =>
      have hshapes := fieldsShape_iff.mp h
      have hw : (Descriptor.sequence name fields standard).write (.sequence entries) =
          Writer.sequence (Descriptor.sequence name fields standard).constraint (writeFields fields entries) := by
        rw [Descriptor.write]
        exact if_neg (not_not_intro hshapes.length_eq.symm)
      rw [hw]
      refine Writer.exceedsField_sequence (fun field hf => written _ (hparts field hf)) ?_ (of_decide_eq_true hcount)
      have hfields := (List.forall₂_and_left _ _).mpr ⟨fun field hf => ih field hf (hparts field hf), hshapes⟩
      refine hfields.imp fun field entry he => ?_
      cases entry with
      | none => exact he.2
      | some value => exact he.1 value he.2
    all_goals exact absurd h Bool.false_ne_true
  | sequenceOf name element size extensible ih =>
    have hparts := (everywhere_sequenceOf.mp hc).2
    intro value h
    cases value
    case sequenceOf elements =>
      rw [shapes, List.all_eq_true] at h
      have hentries : ∀ entry ∈ elements, ∃ value, entry = some value ∧ ExceedsField (element.write value) := by
        intro entry hm
        obtain ⟨value, rfl, hv⟩ := (Option.any_eq_true _ _).mp (h entry hm)
        exact ⟨value, rfl, ih hparts value hv⟩
      obtain ⟨units, hunits⟩ : ∃ units, units = elements.map fun entry =>
          (entry.map fun value => element.bits value).getD [] := ⟨_, rfl⟩
      have hlen : units.length = elements.length := by rw [hunits, List.length_map]
      have hall := Writer.exceedsField_sequenceOf (Descriptor.sequenceOf name element size extensible).constraint
        (writesField_getElem (written element hparts) elements hunits)
        fun i hi => exceedsField_element hentries (by omega)
      rw [hlen, ← List.size_toArray] at hall
      rw [Descriptor.write]
      exact hall
    all_goals exact absurd h Bool.false_ne_true
  | choice name alternatives standard ih =>
    obtain ⟨hcount, hparts⟩ := everywhere_choice.mp hc
    have hlt : (Descriptor.choice name alternatives standard).constraint.count < 2 ^ 64 := of_decide_eq_true hcount
    intro value h
    cases value
    case choice index payload =>
      cases payload with
      | none => exact absurd h Bool.false_ne_true
      | some payload =>
        obtain ⟨alternative, ha, hpayload⟩ := alternativeShapes_iff.mp h
        have hm := List.mem_of_getElem? ha
        have hi : index.toNat < alternatives.length := (List.getElem?_eq_some_iff.mp ha).1
        exact Writer.exceedsField_choice _ (Nat.le_of_lt hlt) hi
          (exceedsField_alternative ha (ih alternative hm (hparts alternative hm) payload hpayload))
    all_goals exact absurd h Bool.false_ne_true

end Descriptor

/-- A value of the shape of its type is encoded, or a number, a size, a character or the depth of nesting is to blame. -/
theorem encode_excess (settings : Settings) {limit : Nat} {type : Descriptor} {value : Value}
    (hc : type.everywhere Descriptor.countable = true) (h : type.shapes limit value = true) {fault : Fault}
    (he : (encode settings type value).1 = .error fault) : fault.isExcess = true := by
  unfold encode at he
  cases hw : type.write value (.ofSettings settings) with
  | ok _ w =>
    rw [hw] at he
    cases he
  | error cause w =>
    rw [hw] at he
    cases he
    exact (type.exceedsField_write hc value h).alone (Writer.ready_ofSettings settings) rfl fault w hw

end UnalignedPer
