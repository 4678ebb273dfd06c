import UnalignedPer.Message.Encode
import UnalignedPer.Proofs.Message.Conformance
import UnalignedPer.Proofs.Message.Writing
import UnalignedPer.Proofs.Presence

/-!
# Writing the entries of a sequence

A sequence reserves its presence bits as zeros and sets them later. That its bits are those of `Part.form` all the same is an
invariant of the fields written so far (`Writer.Stretch`): the bits in front are final, then come the reserved zeros of the
fields still to be written, and behind them the contents. A field turns the first of the zeros into its presence bit and adds
its content at the end (`Writer.writes_entry`), and so do some fields in a row (`Writer.writesEntries`).
-/

namespace UnalignedPer

namespace Writer

open Packer (Writes WritesIf Fails Wrote)

/-! ## Claiming a presence bit -/

/-- In a stretch the extension block is not opened. -/
theorem reachSlot_eq {w : Writer} {p : Presence} {extension optional : Bool} {left : Nat} (hp : w.presence = some p)
    (ha : p.Awaits extension (left + 1)) (hroom : (extension || optional) = true → p.ahead.start < p.ahead.stop) :
    reachSlot optional w = visitSlot optional w := by
  cases hm : extension || optional with
  | false =>
    obtain ⟨p', hv, _⟩ := Presence.visit_unmarked ha hm
    simp only [reachSlot, run_bind, visitSlot, hp, hv]
    rfl
  | true =>
    obtain ⟨p', hv, _⟩ := Presence.visit_marked ha hm (hroom hm)
    simp only [reachSlot, run_bind, visitSlot, hp, hv]
    rfl

/-- Claiming the next presence bit sets it, if there is one, and tells whether the content is an open type. -/
theorem claimSlot_eq {w w' : Writer} {p : Presence} {extension optional : Bool} {left : Nat} (present : Bool)
    (hreach : reachSlot optional w = visitSlot optional w') (hp : w'.presence = some p)
    (ha : p.Awaits extension (left + 1))
    (hroom : (extension || optional) = true → p.ahead.start < p.ahead.stop ∧ p.ahead.start < w'.buffer.writePosition) :
    ∃ p', p.Passed 1 (extension || optional).toNat p' ∧
      claimSlot optional present w = .ok extension { w' with
        presence := some p'
        buffer := if extension || optional then w'.buffer.put p.ahead.start present else w'.buffer } := by
  cases hm : extension || optional with
  | false =>
    obtain ⟨p', hv, hpass⟩ := Presence.visit_unmarked ha hm
    obtain ⟨rfl, rfl⟩ : extension = false ∧ optional = false := by simpa using hm
    refine ⟨p', hpass, ?_⟩
    simp only [claimSlot, run_bind, hreach, visitSlot, hp, hv, if_neg Bool.false_ne_true]
    rfl
  | true =>
    obtain ⟨hlt, hwritten⟩ := hroom hm
    obtain ⟨p', hv, hpass⟩ := Presence.visit_marked ha hm hlt
    refine ⟨p', hpass, ?_⟩
    have ho : Packer.overwrite p.ahead.start present { w' with presence := some p' } =
        .ok () { w' with presence := some p', buffer := w'.buffer.put p.ahead.start present } := by
      simp only [Packer.overwrite, BitSink.buffer, if_pos hwritten]
      rfl
    simp only [claimSlot, run_bind, hreach, visitSlot, hp, hv, ho, if_true]
    rfl

/-! ## The bits of a stretch -/

/-- The fields of a stretch written so far: `front` is final, `left` presence bits are reserved, `back` lies behind them. -/
structure Stretch (w : Writer) (p : Presence) (front : List Bool) (left : Nat) (back : List Bool) : Prop where
  /-- The writer is between two fields. -/
  ready : w.Ready
  /-- The presence bits are those of the sequence. -/
  presence : w.presence = some p
  /-- The bits written. -/
  list : w.buffer.toList = front ++ (List.replicate left false ++ back)
  /-- The next presence bit is the first reserved one. -/
  start : p.ahead.start = front.length
  /-- The run of presence bits ends with the reserved ones. -/
  stop : p.ahead.stop = front.length + left

/-- The first reserved bit is there, unless none is left. -/
theorem Stretch.room {w : Writer} {p : Presence} {front back : List Bool} {left : Nat} (h : Stretch w p front left back)
    (hl : 0 < left) : p.ahead.start < p.ahead.stop ∧ p.ahead.start < w.buffer.writePosition := by
  have hlen := congrArg List.length h.list
  rw [BitBuffer.length_toList, List.length_append, List.length_append, List.length_replicate] at hlen
  rw [h.start, h.stop]
  omega

/-- Setting the first reserved bit. -/
theorem set_reserved (front back : List Bool) (left : Nat) (bit : Bool) :
    (front ++ (List.replicate (left + 1) false ++ back)).set front.length bit =
      front ++ [bit] ++ (List.replicate left false ++ back) := by
  rw [List.set_append_right _ _ (Nat.le_refl _), Nat.sub_self, List.replicate_succ, List.cons_append, List.set_cons_zero,
    List.append_assoc, List.singleton_append]

/-- Taking a presence bit, or none, and appending a content. -/
theorem Stretch.next {w w2 : Writer} {p p' : Presence} {front back : List Bool} {left : Nat} {part : Part}
    {extension present : Bool} (h : Stretch w p front ((part.mark extension).length + left) back)
    (hpart : part.content.isSome = present) (hpass : p.Passed 1 (extension || part.optional).toNat p')
    (hw : Wrote { w with
      presence := some p'
      buffer := if extension || part.optional then w.buffer.put p.ahead.start present else w.buffer }
      (part.body extension) w2) :
    Stretch w2 p' (front ++ part.mark extension) left (back ++ part.body extension) ∧ w.Keeps w2 := by
  have hstart := h.start
  have hstop := h.stop
  have hlist := h.list
  have hkeeps : w.Keeps w2 := ⟨hw.2.1.claimed, hw.2.1.depth, hw.2.1.settings, hw.2.1.steps⟩
  refine ⟨?_, hkeeps⟩
  have hdepth : w2.depth ≤ w2.settings.maxDepth := by
    rw [hkeeps.depth, hkeeps.settings]
    exact h.ready.depth
  have hclaimed := hkeeps.claimed.trans h.ready.claimed
  cases hm : extension || part.optional with
  | false =>
    have hmark : part.mark extension = [] := by rw [Part.mark, hm, if_neg Bool.false_ne_true]
    simp only [hm, if_neg Bool.false_ne_true] at hw
    rw [hm] at hpass
    rw [hmark, List.length_nil, Nat.zero_add] at hlist hstop
    rw [hmark, List.append_nil]
    refine ⟨⟨hw.1.clean h.ready.clean, hclaimed, hdepth, hw.1.readPosition.trans h.ready.unread⟩, hw.2.2, ?_,
      hpass.start.trans hstart, hpass.stop.trans hstop⟩
    have happ : w2.buffer.toList = w.buffer.toList ++ part.body extension := hw.1.toList
    rw [happ, hlist, List.append_assoc, List.append_assoc]
  | true =>
    have hmark : part.mark extension = [present] := by rw [Part.mark, hm, if_pos rfl, hpart]
    have hpos := (h.room (by rw [hmark, List.length_singleton]; omega)).2
    simp only [hm, if_true] at hw
    rw [hm] at hpass
    rw [hmark, List.length_singleton, Nat.add_comm 1 left] at hlist hstop
    have hlist1 := BitBuffer.toList_put w.buffer p.ahead.start present h.ready.clean
    rw [hlist, hstart, set_reserved] at hlist1
    have hlen : (front ++ part.mark extension).length = front.length + 1 := by
      rw [hmark, List.length_append, List.length_singleton]
    refine ⟨⟨hw.1.clean (BitBuffer.clean_put present h.ready.clean hpos), hclaimed, hdepth, ?_⟩, hw.2.2, ?_, ?_, ?_⟩
    · exact hw.1.readPosition.trans h.ready.unread
    · have happ : w2.buffer.toList = (w.buffer.put p.ahead.start present).toList ++ part.body extension := hw.1.toList
      rw [happ, hstart, hlist1, hmark]
      simp only [List.append_assoc]
    · rw [hlen, hpass.start, hstart]
      rfl
    · rw [hlen, hpass.stop, hstop]
      omega

/-! ## Entries -/

/-- A field with the form of its entry. -/
def partOf (optional : Bool) (type : Descriptor) (entry : Option Value) : Part :=
  ⟨optional, entry.map type.bits⟩

/-- A type whose values are written in their form. -/
def Written (type : Descriptor) : Prop :=
  ∀ value, WritesField (type.write value) (type.conforms value = true) value.nesting (type.bits value)

/-- A field whose presence bit was claimed in advance. -/
theorem enterField_claimed {w : Writer} (h : w.claimed = none) (openType : Bool) :
    enterField { w with claimed := some openType } = .ok openType w := by
  have hback : ({ w with claimed := none } : Writer) = w := by
    rw [← h]
  simp only [enterField, run_bind, run_get]
  refine Eq.trans ?_ (congrArg (EStateM.Result.ok openType) hback)
  rfl

/-- An optional content that is there is written as a field whose presence bit is claimed. -/
theorem writesIf_opt {w w1 : Writer} {value : WriterM Unit} {conforms : Prop} {nesting : Nat} {bits : List Bool}
    {openType : Bool} (h : WritesField value conforms nesting bits) (hclaim : claimSlot true true w = .ok openType w1)
    (hready : w1.Ready) :
    (conforms ∧ w1.depth + nesting ≤ w1.settings.maxDepth →
      ∃ w2, opt true value w = .ok () w2 ∧ Wrote w1 (if openType then OpenType.form bits else bits) w2) ∧
    (¬(conforms ∧ w1.depth + nesting ≤ w1.settings.maxDepth) → Fails w (opt true value)) := by
  have hopt : opt true value w =
      afterwards (fun w => { w with claimed := none }) value { w1 with claimed := some openType } := by
    simp only [opt, run_bind, hclaim]
    rfl
  have hfield := h _ w1 openType (enterField_claimed hready.claimed openType) hready
  refine ⟨fun hc => ?_, fun hn => ?_⟩
  · obtain ⟨w2, hm, hw⟩ := hfield.1 hc
    refine ⟨w2, ?_, hw⟩
    rw [hopt]
    simp only [afterwards, hm]
    rw [← (hready.wrote hw).claimed]
  · obtain ⟨fault, w2, hm⟩ := hfield.2 hn
    refine ⟨fault, { w2 with claimed := none }, ?_⟩
    rw [hopt]
    simp only [afterwards, hm]

/-- What an entry writes once its presence bit is claimed: its content, if it is there. -/
theorem writes_claimed {w w1 : Writer} {extension optional : Bool} {type : Descriptor} {entry : Option Value} (name : String)
    (ht : Written type) (hclaimed : w.claimed = none)
    (hclaim : claimSlot optional entry.isSome w = .ok extension w1) (hready : w1.Ready) :
    (Descriptor.entryConforms optional type entry = true ∧ w1.depth + Value.nestingOption entry ≤ w1.settings.maxDepth →
      ∃ w2, Descriptor.writeEntry name optional (fun value => type.write value) entry w = .ok () w2 ∧
        Wrote w1 ((partOf optional type entry).body extension) w2) ∧
    (¬(Descriptor.entryConforms optional type entry = true ∧ w1.depth + Value.nestingOption entry ≤ w1.settings.maxDepth) →
      Fails w (Descriptor.writeEntry name optional (fun value => type.write value) entry)) := by
  cases entry with
  | none =>
    cases optional with
    | false => exact ⟨fun hc => absurd hc.1 Bool.false_ne_true, fun _ => Packer.fails_throw w _⟩
    | true =>
      have hm : Descriptor.writeEntry name true (fun value => type.write value) none w = .ok () w1 := by
        rw [show Option.isSome (none : Option Value) = false from rfl] at hclaim
        show opt false (pure ()) w = .ok () w1
        simp only [opt, run_bind, hclaim]
        rfl
      exact ⟨fun _ => ⟨w1, hm, Wrote.refl w1⟩, fun hn => absurd ⟨rfl, hready.depth⟩ hn⟩
  | some value =>
    rw [show Option.isSome (some value) = true from rfl] at hclaim
    cases optional with
    | false =>
      have henter : enterField w = .ok extension w1 := by
        simp only [enterField, run_bind, run_get, hclaimed]
        exact hclaim
      exact ht value w w1 extension henter hready
    | true => exact writesIf_opt (ht value) hclaim hready

/-- In a stretch the presence bit of an entry can be claimed, and what is then written of the entry continues the stretch. -/
theorem Stretch.claim {w w' : Writer} {p : Presence} {extension optional : Bool} {type : Descriptor} {entry : Option Value}
    {front back : List Bool} {left n : Nat} (hreach : reachSlot optional w = visitSlot optional w')
    (hs : Stretch w' p front (((partOf optional type entry).mark extension).length + left) back)
    (ha : p.Awaits extension (n + 1)) :
    ∃ w1 p1, claimSlot optional entry.isSome w = .ok extension w1 ∧ w1.Ready ∧ w'.Keeps w1 ∧
      p.Passed 1 ((partOf optional type entry).mark extension).length p1 ∧
      ∀ w2, Wrote w1 ((partOf optional type entry).body extension) w2 →
        Stretch w2 p1 (front ++ (partOf optional type entry).mark extension) left
          (back ++ (partOf optional type entry).body extension) ∧ w'.Keeps w2 := by
  have hroom : (extension || optional) = true → p.ahead.start < p.ahead.stop ∧ p.ahead.start < w'.buffer.writePosition := by
    intro hm
    refine hs.room ?_
    have hmark : (partOf optional type entry).mark extension = [(entry.map type.bits).isSome] := by
      rw [Part.mark]
      exact if_pos hm
    rw [hmark, List.length_singleton]
    omega
  have hlen : ((partOf optional type entry).mark extension).length = (extension || optional).toNat := by
    rw [Part.mark]
    have ho : (partOf optional type entry).optional = optional := rfl
    rw [ho]
    cases extension || optional <;> rfl
  obtain ⟨p', hpass, hclaim⟩ := claimSlot_eq entry.isSome hreach hs.presence ha hroom
  refine ⟨_, p', hclaim, ?_, ⟨rfl, rfl, rfl, rfl⟩, by rw [hlen]; exact hpass, fun w2 hw => ?_⟩
  · by_cases hm : (extension || optional) = true
    · simp only [hm, if_true]
      exact ⟨BitBuffer.clean_put _ hs.ready.clean (hroom hm).2, hs.ready.claimed, hs.ready.depth, hs.ready.unread⟩
    · simp only [if_neg hm]
      exact ⟨hs.ready.clean, hs.ready.claimed, hs.ready.depth, hs.ready.unread⟩
  · exact hs.next Option.isSome_map hpass hw

/-- An entry is written in a stretch: its presence bit is set, its value appended. Where the stretch begins with the opening of
the extension block, `w'` is the writer after that. -/
theorem writes_entry {w w' : Writer} {p : Presence} {extension optional : Bool} {type : Descriptor} {entry : Option Value}
    {front back : List Bool} {left n : Nat} (name : String) (ht : Written type)
    (hreach : reachSlot optional w = visitSlot optional w') (hclaimed : w.claimed = none)
    (hs : Stretch w' p front (((partOf optional type entry).mark extension).length + left) back)
    (ha : p.Awaits extension (n + 1)) :
    (Descriptor.entryConforms optional type entry = true ∧ w'.depth + Value.nestingOption entry ≤ w'.settings.maxDepth →
      ∃ w2 p2, Descriptor.writeEntry name optional (fun value => type.write value) entry w = .ok () w2 ∧
        p.Passed 1 ((partOf optional type entry).mark extension).length p2 ∧
        Stretch w2 p2 (front ++ (partOf optional type entry).mark extension) left
          (back ++ (partOf optional type entry).body extension) ∧ w'.Keeps w2) ∧
    (¬(Descriptor.entryConforms optional type entry = true ∧ w'.depth + Value.nestingOption entry ≤ w'.settings.maxDepth) →
      Fails w (Descriptor.writeEntry name optional (fun value => type.write value) entry)) := by
  obtain ⟨w1, p1, hclaim, hready, hkeeps, hpass, hnext⟩ := hs.claim hreach ha
  obtain ⟨hok, hfail⟩ := writes_claimed name ht hclaimed hclaim hready
  rw [hkeeps.depth, hkeeps.settings] at hok hfail
  refine ⟨fun hc => ?_, hfail⟩
  obtain ⟨w2, hm, hw⟩ := hok hc
  exact ⟨w2, p1, hm, hpass, hnext w2 hw⟩

/-! ## Entries in a row -/

/-- In front of an entry that takes a presence bit the first reserved bit is there. -/
theorem Stretch.room_cons {w : Writer} {p : Presence} {extension : Bool} {field : Field Descriptor}
    {fields : List (Field Descriptor)} {entry : Option Value} {entries : List (Option Value)} {front back : List Bool}
    (hs : Stretch w p front (Part.marks extension (Descriptor.parts (field :: fields) (entry :: entries))).length back)
    (hm : (extension || field.optional) = true) : p.ahead.start < p.ahead.stop := by
  refine (hs.room ?_).1
  have hmark : Part.marks extension (Descriptor.parts (field :: fields) (entry :: entries)) =
      [(partOf field.optional field.type entry).content.isSome] ++ Part.marks extension (Descriptor.parts fields entries) := by
    refine congrArg (· ++ Part.marks extension (Descriptor.parts fields entries)) ?_
    exact if_pos hm
  rw [hmark, List.length_append, List.length_singleton]
  omega

/-- What the entries of some fields write from `w` on, `w'` being the writer once the extension block is open, if it has to be. -/
def WritesEntries (extension : Bool) (fields : List (Field Descriptor)) (entries : List (Option Value)) (w w' : Writer)
    (p : Presence) (front back : List Bool) : Prop :=
  (Descriptor.fieldsConform fields entries = true ∧ w'.depth + Value.nestingList entries ≤ w'.settings.maxDepth →
    ∃ w2 p2, Descriptor.writeFields fields entries w = .ok () w2 ∧
      p.Passed fields.length (Part.marks extension (Descriptor.parts fields entries)).length p2 ∧
      Stretch w2 p2 (front ++ Part.marks extension (Descriptor.parts fields entries)) 0
        (back ++ Part.bodies extension (Descriptor.parts fields entries)) ∧ w'.Keeps w2) ∧
  (¬(Descriptor.fieldsConform fields entries = true ∧ w'.depth + Value.nestingList entries ≤ w'.settings.maxDepth) →
    Fails w (Descriptor.writeFields fields entries))

/-- The entries of some fields are written before those of others. -/
theorem writeFields_append (fields fields' : List (Field Descriptor)) {entries : List (Option Value)}
    (entries' : List (Option Value)) (h : entries.length = fields.length) :
    Descriptor.writeFields (fields ++ fields') (entries ++ entries') =
      (Descriptor.writeFields fields entries >>= fun _ => Descriptor.writeFields fields' entries') := by
  induction fields generalizing entries with
  | nil =>
    obtain rfl : entries = [] := List.eq_nil_of_length_eq_zero h
    rfl
  | cons field fields ih =>
    cases entries with
    | nil => cases h
    | cons entry entries =>
      rw [List.cons_append, List.cons_append, Descriptor.writeFields, Descriptor.writeFields, ih (Nat.succ.inj h), bind_assoc]

/-- Entries fit, that is, conform and do not nest too deep, when the first one and the others do. -/
theorem fit_cons (field : Field Descriptor) (fields : List (Field Descriptor)) (entry : Option Value)
    (entries : List (Option Value)) (depth limit : Nat) :
    Descriptor.fieldsConform (field :: fields) (entry :: entries) = true ∧
        depth + Value.nestingList (entry :: entries) ≤ limit ↔
      (Descriptor.entryConforms field.optional field.type entry = true ∧ depth + Value.nestingOption entry ≤ limit) ∧
        (Descriptor.fieldsConform fields entries = true ∧ depth + Value.nestingList entries ≤ limit) := by
  rw [Descriptor.fieldsConform_cons, Bool.and_eq_true, Value.nestingList]
  constructor
  · rintro ⟨⟨h1, h2⟩, h3⟩
    exact ⟨⟨h1, by omega⟩, h2, by omega⟩
  · rintro ⟨⟨h1, h2⟩, h3, h4⟩
    exact ⟨⟨h1, h3⟩, by omega⟩

/-- Some entries and others fit together when they do on their own. -/
theorem fit_append {fields : List (Field Descriptor)} (extensions : List (Field Descriptor)) {entries : List (Option Value)}
    (added : List (Option Value)) (hlen : entries.length = fields.length) (depth limit : Nat) :
    Descriptor.fieldsConform (fields ++ extensions) (entries ++ added) = true ∧
        depth + Value.nestingList (entries ++ added) ≤ limit ↔
      (Descriptor.fieldsConform fields entries = true ∧ depth + Value.nestingList entries ≤ limit) ∧
        (Descriptor.fieldsConform extensions added = true ∧ depth + Value.nestingList added ≤ limit) := by
  rw [Descriptor.fieldsConform_append fields extensions added hlen, Bool.and_eq_true, Value.nestingList_append]
  constructor
  · rintro ⟨⟨h1, h2⟩, h3⟩
    exact ⟨⟨h1, by omega⟩, h2, by omega⟩
  · rintro ⟨⟨h1, h2⟩, h3, h4⟩
    exact ⟨⟨h1, h3⟩, by omega⟩

/-- One entry before the others. -/
theorem writesEntries_cons {extension : Bool} {field : Field Descriptor} {fields : List (Field Descriptor)}
    {entry : Option Value} {entries : List (Option Value)} {w w' : Writer} {p : Presence} {front back : List Bool}
    (ht : Written field.type) (hreach : reachSlot field.optional w = visitSlot field.optional w')
    (hclaimed : w.claimed = none)
    (hs : Stretch w' p front (Part.marks extension (Descriptor.parts (field :: fields) (entry :: entries))).length back)
    (ha : p.Awaits extension (fields.length + 1))
    (hrest : ∀ w2 p2 front2 back2, p2.Awaits extension fields.length →
      Stretch w2 p2 front2 (Part.marks extension (Descriptor.parts fields entries)).length back2 →
      WritesEntries extension fields entries w2 w2 p2 front2 back2) :
    WritesEntries extension (field :: fields) (entry :: entries) w w' p front back := by
  have hmarks : Part.marks extension (Descriptor.parts (field :: fields) (entry :: entries)) =
      (partOf field.optional field.type entry).mark extension ++
        Part.marks extension (Descriptor.parts fields entries) := rfl
  have hbodies : Part.bodies extension (Descriptor.parts (field :: fields) (entry :: entries)) =
      (partOf field.optional field.type entry).body extension ++
        Part.bodies extension (Descriptor.parts fields entries) := rfl
  have hfields : Descriptor.writeFields (field :: fields) (entry :: entries) =
      (Descriptor.writeEntry field.name field.optional (fun value => field.type.write value) entry >>= fun _ =>
        Descriptor.writeFields fields entries) := rfl
  unfold WritesEntries
  rw [fit_cons, hmarks, hbodies, hfields]
  rw [hmarks, List.length_append] at hs
  obtain ⟨hok, hfail⟩ := writes_entry field.name ht hreach hclaimed hs ha
  refine ⟨?_, fun hn => ?_⟩
  · rintro ⟨h1, h2⟩
    obtain ⟨w2, p2, hm, hpass, hst, hk⟩ := hok h1
    have ha2 : p2.Awaits extension fields.length := by
      rw [Nat.add_comm] at ha
      exact ha.passed hpass
    have hr := hrest w2 p2 _ _ ha2 hst
    unfold WritesEntries at hr
    rw [hk.depth, hk.settings] at hr
    obtain ⟨w3, p3, hm3, hpass3, hst3, hk3⟩ := hr.1 h2
    refine ⟨w3, p3, by simp only [run_bind, hm, hm3], ?_, ?_, hk.trans hk3⟩
    · rw [List.length_cons, Nat.add_comm fields.length 1, List.length_append]
      exact hpass.trans hpass3
    · rw [List.append_assoc, List.append_assoc] at hst3
      exact hst3
  · by_cases h1 : Descriptor.entryConforms field.optional field.type entry = true ∧
        w'.depth + Value.nestingOption entry ≤ w'.settings.maxDepth
    · obtain ⟨w2, p2, hm, hpass, hst, hk⟩ := hok h1
      have ha2 : p2.Awaits extension fields.length := by
        rw [Nat.add_comm] at ha
        exact ha.passed hpass
      have hr := hrest w2 p2 _ _ ha2 hst
      unfold WritesEntries at hr
      rw [hk.depth, hk.settings] at hr
      obtain ⟨fault, w3, hm3⟩ := hr.2 fun h2 => hn ⟨h1, h2⟩
      exact ⟨fault, w3, by simp only [run_bind, hm, hm3]⟩
    · exact (hfail h1).bind _

/-- The entries of a stretch. -/
theorem writesEntries {extension : Bool} (fields : List (Field Descriptor)) (h : ∀ field ∈ fields, Written field.type) :
    ∀ entries w p front back, entries.length = fields.length → p.Awaits extension fields.length →
      Stretch w p front (Part.marks extension (Descriptor.parts fields entries)).length back →
      WritesEntries extension fields entries w w p front back := by
  induction fields with
  | nil =>
    intro entries w p front back hlen _ hs
    obtain rfl : entries = [] := List.eq_nil_of_length_eq_zero hlen
    refine ⟨fun _ => ⟨w, p, rfl, Presence.Passed.refl p, ?_, Keeps.refl w⟩, fun hn => absurd ⟨rfl, hs.ready.depth⟩ hn⟩
    have hnone : Part.marks extension (Descriptor.parts [] []) = [] := rfl
    have hbody : Part.bodies extension (Descriptor.parts [] []) = [] := rfl
    rw [hnone, hbody, List.append_nil, List.append_nil]
    rw [hnone] at hs
    exact hs
  | cons field fields ih =>
    intro entries w p front back hlen ha hs
    cases entries with
    | nil => cases hlen
    | cons entry entries =>
      have hlen' : entries.length = fields.length := Nat.succ.inj hlen
      refine writesEntries_cons (h field (List.mem_cons_self ..)) (reachSlot_eq hs.presence ha hs.room_cons) hs.ready.claimed hs ha ?_
      intro w2 p2 front2 back2 ha2 hs2
      exact ih (fun f hf => h f (List.mem_cons_of_mem _ hf)) entries w2 p2 front2 back2 hlen' ha2 hs2

end Writer

end UnalignedPer
