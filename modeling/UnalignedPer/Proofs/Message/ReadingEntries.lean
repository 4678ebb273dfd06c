import UnalignedPer.Message.Decode
import UnalignedPer.Proofs.Message.Conformance
import UnalignedPer.Proofs.Message.Reading
import UnalignedPer.Proofs.Presence

/-!
# Reading the entries of a sequence

The presence bits of a sequence are looked at where they stand, behind the cursor. `Reader.Holds` says that those of the fields
still to be read are there. A field looks at the first of them and takes its content from the bits ahead (`Reader.reads_entry`),
and so do some fields in a row (`Reader.readsEntries`).
-/

namespace UnalignedPer

namespace Reader

open LawfulBitSource (Moved)

/-! ## Looking at presence bits -/

/-- In a stretch the extension block is not opened. -/
theorem reachSlot_eq {r : Reader} {p : Presence} {extension optional : Bool} {left : Nat} (hp : r.presence = some p)
    (ha : p.Awaits extension (left + 1)) (hroom : (extension || optional) = true → p.ahead.start < p.ahead.stop) :
    reachSlot optional r = visitSlot optional r := by
  cases hm : extension || optional with
  | false =>
    obtain ⟨p', hv, _⟩ := Presence.visit_unmarked ha hm
    simp only [reachSlot, run_bind, visitSlot, hp, hv]
    rfl
  | true =>
    obtain ⟨p', hv, _⟩ := Presence.visit_marked ha hm (hroom hm)
    simp only [reachSlot, run_bind, visitSlot, hp, hv]
    rfl

/-- The next presence bit, if the field has one, tells whether the field is there. -/
theorem claimSlot_eq {r r' : Reader} {p : Presence} {extension optional present : Bool} {left : Nat}
    (hreach : reachSlot optional r = visitSlot optional r') (hp : r'.presence = some p)
    (ha : p.Awaits extension (left + 1))
    (hroom : (extension || optional) = true → p.ahead.start < p.ahead.stop ∧ r'.view.peek p.ahead.start = .ok present)
    (hpresent : (extension || optional) = false → present = true) :
    ∃ p', p.Passed 1 (extension || optional).toNat p' ∧
      claimSlot optional r = .ok (present, extension) { r' with presence := some p' } := by
  cases hm : extension || optional with
  | false =>
    obtain ⟨p', hv, hpass⟩ := Presence.visit_unmarked ha hm
    obtain ⟨rfl, rfl⟩ : extension = false ∧ optional = false := by simpa using hm
    refine ⟨p', hpass, ?_⟩
    rw [hpresent hm]
    simp only [claimSlot, run_bind, hreach, visitSlot, hp, hv]
    rfl
  | true =>
    obtain ⟨hlt, hpeek⟩ := hroom hm
    obtain ⟨p', hv, hpass⟩ := Presence.visit_marked ha hm hlt
    refine ⟨p', hpass, ?_⟩
    have ho : peek p.ahead.start { r' with presence := some p' } = .ok present { r' with presence := some p' } := by
      simp only [peek, hpeek]
    simp only [claimSlot, run_bind, hreach, visitSlot, hp, hv, ho]
    rfl

/-- The presence bits of the fields still to be read stand where the reader will look for them. -/
structure Holds (r : Reader) (p : Presence) (marks : List Bool) : Prop where
  /-- The presence bits are those of the sequence. -/
  presence : r.presence = some p
  /-- No presence bit was looked at in advance. -/
  claimed : r.claimed = none
  /-- The bits themselves. -/
  bits : Octets.bitsFrom r.view.data p.ahead.start marks.length = marks
  /-- The run ends with them. -/
  stop : p.ahead.stop = p.ahead.start + marks.length
  /-- They lie before the end of the message. -/
  covered : p.ahead.start < p.ahead.stop → p.ahead.stop ≤ r.view.stop

/-- The first presence bit. -/
theorem Holds.peek {r : Reader} {p : Presence} {present : Bool} {marks : List Bool} (h : Holds r p (present :: marks)) :
    p.ahead.start < p.ahead.stop ∧ r.view.peek p.ahead.start = .ok present := by
  have hstop := h.stop
  have hcov := h.covered
  have hmarks := h.bits
  rw [List.length_cons] at hstop hmarks
  rw [Nat.add_comm marks.length 1, Octets.bitsFrom_add, Octets.bitsFrom_one] at hmarks
  have hbit : Octets.getBit r.view.data p.ahead.start = present := (List.cons.inj hmarks).1
  refine ⟨by omega, ?_⟩
  have hlt : p.ahead.start < p.ahead.stop := by omega
  have hle := hcov hlt
  unfold BitView.peek
  rw [if_pos (by omega), hbit]

/-- The presence bits behind those of a field, once the field is read. -/
theorem Holds.next {r r' : Reader} {p p' : Presence} {mark marks : List Bool} {n : Nat} (h : Holds r p (mark ++ marks))
    (hpass : p.Passed 1 mark.length p') (ha : r.Advanced n r') (hp : r'.presence = some p') : Holds r' p' marks := by
  obtain ⟨hview, _⟩ := ha.view
  have hdata : r'.view.data = r.view.data := by rw [hview]
  have hend : r'.view.stop = r.view.stop := by rw [hview]
  have hstop := h.stop
  have hmarks := h.bits
  rw [List.length_append] at hstop hmarks
  rw [Octets.bitsFrom_add] at hmarks
  refine ⟨hp, ha.claimed.trans h.claimed, ?_, ?_, ?_⟩
  · rw [hdata, hpass.start]
    exact List.append_inj_right hmarks (Octets.length_bitsFrom _ _ _)
  · rw [hpass.stop, hpass.start, hstop, Nat.add_assoc]
  · rw [hpass.stop, hpass.start, hend]
    exact fun hlt => h.covered (by omega)

end Reader

/-! ## Entries -/

namespace Descriptor

/-- Whether the strings and lists of a value and the contents of its open types are no longer than a limit. -/
def Fits (type : Descriptor) (value : Value) (limit : Nat) : Prop :=
  value.lengthsWithin limit = true ∧ ∀ content ∈ type.openContents value, OpenType.octetCount content ≤ limit

/-- Reads the entry of a field. -/
def readEntry (optional : Bool) (type : Descriptor) : ReaderM (Option Value) :=
  if optional then Reader.opt type.read else some <$> type.read

theorem readFields_cons (field : Field Descriptor) (fields : List (Field Descriptor)) :
    readFields (field :: fields) = (do
      let entry ← readEntry field.optional field.type
      let entries ← readFields fields
      pure (entry :: entries)) := by
  unfold readEntry
  rw [readFields]
  cases field.optional <;> rfl

/-- The entries of some fields are read before those of others. -/
theorem readFields_append (fields fields' : List (Field Descriptor)) :
    readFields (fields ++ fields') = (do
      let entries ← readFields fields
      let entries' ← readFields fields'
      pure (entries ++ entries')) := by
  induction fields with
  | nil =>
    rw [List.nil_append, readFields, pure_bind]
    exact (bind_pure _).symm
  | cons field fields ih =>
    rw [List.cons_append, readFields_cons, readFields_cons, ih]
    simp only [bind_assoc, pure_bind, List.cons_append]

end Descriptor

namespace Reader

open LawfulBitSource (Moved)

/-- A type whose values are read back from their form, with their bit strings in as few octets as possible. -/
def ReadBack (type : Descriptor) : Prop :=
  ∀ value, type.conforms value = true →
    ReadsField type.read (type.Fits value) value.nesting (type.bits value) value.tidy

/-- What is needed for an entry to be read. -/
structure Expects (extension optional : Bool) (type : Descriptor) (entry : Option Value) (r : Reader) : Prop where
  /-- The entry conforms to the field. -/
  conforms : Descriptor.entryConforms optional type entry = true
  /-- Its containers fit into the limit. -/
  depth : r.depth + Value.nestingOption entry ≤ r.settings.maxDepth
  /-- Its contents are no longer than the limit. -/
  fits : ∀ value, entry = some value → type.Fits value r.settings.maxLength.toNat
  /-- Nor is it, as an open type. -/
  within : ∀ value, entry = some value → extension = true →
    OpenType.octetCount (type.bits value) ≤ r.settings.maxLength.toNat

/-- A field whose presence bit was claimed in advance. -/
theorem enterField_claimed {r : Reader} (h : r.claimed = none) (openType : Bool) :
    enterField { r with claimed := some openType } = .ok openType r := by
  have hback : ({ r with claimed := none } : Reader) = r := by
    rw [← h]
  simp only [enterField, run_bind, run_get]
  refine Eq.trans ?_ (congrArg (EStateM.Result.ok openType) hback)
  rfl

/-- What an entry takes once its presence bit is looked at: its content, if it is there. -/
theorem reads_claimed {r r1 : Reader} {extension optional : Bool} {type : Descriptor} {entry : Option Value}
    (ht : ReadBack type) (hclaimed : r.claimed = none) (hclaim : claimSlot optional r = .ok (entry.isSome, extension) r1)
    (hclaimed1 : r1.claimed = none) (he : Expects extension optional type entry r1)
    (hbody : (⟨optional, entry.map type.bits⟩ : Part).body extension <+: r1.view.toList) :
    ∃ r2, Descriptor.readEntry optional type r = .ok (Value.tidyOption entry) r2 ∧
      Moved r1 ((⟨optional, entry.map type.bits⟩ : Part).body extension).length r2 := by
  cases entry with
  | none =>
    cases optional with
    | false => exact absurd he.conforms Bool.false_ne_true
    | true =>
      rw [show Option.isSome (none : Option Value) = false from rfl] at hclaim
      have hm : Descriptor.readEntry true type r = .ok none r1 := by
        show opt type.read r = .ok none r1
        simp only [opt, run_bind, hclaim]
        rfl
      exact ⟨r1, hm, LawfulBitSource.moved_refl r1⟩
  | some value =>
    rw [show Option.isSome (some value) = true from rfl] at hclaim
    have hfield := ht value he.conforms
    cases optional with
    | false =>
      have henter : enterField r = .ok extension r1 := by
        simp only [enterField, run_bind, run_get, hclaimed, hclaim, if_true]
        rfl
      obtain ⟨r2, hm, hmoved⟩ :=
        hfield r r1 extension henter hclaimed1 he.depth (he.fits value rfl) (he.within value rfl) hbody
      refine ⟨r2, ?_, hmoved⟩
      show (some <$> type.read) r = _
      simp only [run_map, hm]
      rfl
    | true =>
      have henter := enterField_claimed hclaimed1 extension
      obtain ⟨r2, hm, hmoved⟩ :=
        hfield _ r1 extension henter hclaimed1 he.depth (he.fits value rfl) (he.within value rfl) hbody
      have hclaimed2 : r2.claimed = none := hmoved.1.claimed.trans hclaimed1
      refine ⟨r2, ?_, hmoved⟩
      show opt type.read r = _
      simp only [opt, run_bind, hclaim, if_true]
      simp only [run_modify, afterwards, run_map, hm]
      rw [← hclaimed2]
      rfl

/-- An entry is read in a stretch: its presence bit is looked at, its value taken from the bits ahead. Where the stretch begins
with the opening of the extension block, `r'` is the reader after that. -/
theorem reads_entry {r r' : Reader} {p : Presence} {extension optional : Bool} {type : Descriptor} {entry : Option Value}
    {marks : List Bool} {left : Nat} (ht : ReadBack type) (hreach : reachSlot optional r = visitSlot optional r')
    (hclaimed : r.claimed = none)
    (hs : Holds r' p ((⟨optional, entry.map type.bits⟩ : Part).mark extension ++ marks))
    (ha : p.Awaits extension (left + 1)) (he : Expects extension optional type entry r')
    (hbody : (⟨optional, entry.map type.bits⟩ : Part).body extension <+: r'.view.toList) :
    ∃ r2 p2, Descriptor.readEntry optional type r = .ok (Value.tidyOption entry) r2 ∧
      p.Passed 1 ((⟨optional, entry.map type.bits⟩ : Part).mark extension).length p2 ∧ Holds r2 p2 marks ∧
      r'.Advanced ((⟨optional, entry.map type.bits⟩ : Part).body extension).length r2 := by
  have hlen : ((⟨optional, entry.map type.bits⟩ : Part).mark extension).length = (extension || optional).toNat := by
    rw [Part.mark]
    cases extension || optional <;> rfl
  have hroom : (extension || optional) = true →
      p.ahead.start < p.ahead.stop ∧ r'.view.peek p.ahead.start = .ok entry.isSome := by
    intro hm
    have hmark : (⟨optional, entry.map type.bits⟩ : Part).mark extension = [entry.isSome] := by
      rw [Part.mark]
      simp only [hm, if_true, Option.isSome_map]
    rw [hmark] at hs
    exact hs.peek
  have hpresent : (extension || optional) = false → entry.isSome = true := by
    intro hm
    obtain ⟨rfl, rfl⟩ : extension = false ∧ optional = false := by simpa using hm
    cases entry with
    | none => exact absurd he.conforms Bool.false_ne_true
    | some value => rfl
  obtain ⟨p', hpass, hclaim⟩ := claimSlot_eq hreach hs.presence ha hroom hpresent
  rw [← hlen] at hpass
  have he1 : Expects extension optional type entry { r' with presence := some p' } :=
    ⟨he.conforms, he.depth, he.fits, he.within⟩
  obtain ⟨r2, hm, hmoved⟩ := reads_claimed ht hclaimed hclaim hs.claimed he1 hbody
  have hadv : r'.Advanced ((⟨optional, entry.map type.bits⟩ : Part).body extension).length r2 :=
    ⟨hmoved.1.view, hmoved.1.claimed, hmoved.1.marker, hmoved.1.depth, hmoved.1.settings, hmoved.1.steps⟩
  exact ⟨r2, p', hm, hpass, hs.next hpass hadv hmoved.2, hadv⟩

/-! ## Entries in a row -/

/-- What is needed for the entries of some fields to be read. -/
structure ExpectsAll (extension : Bool) (fields : List (Field Descriptor)) (entries : List (Option Value)) (r : Reader) :
    Prop where
  /-- The entries conform to the fields. -/
  conforms : Descriptor.fieldsConform fields entries = true
  /-- Their containers fit into the limit. -/
  depth : r.depth + Value.nestingList entries ≤ r.settings.maxDepth
  /-- Their strings and lists are no longer than the limit. -/
  lengths : Value.lengthsWithinList r.settings.maxLength.toNat entries = true
  /-- Nor are the contents of the open types in them. -/
  contents : ∀ content ∈ Descriptor.fieldsContents fields entries, OpenType.octetCount content ≤ r.settings.maxLength.toNat
  /-- Nor are they, as open types. -/
  within : extension = true → ∀ content ∈ (Descriptor.parts fields entries).filterMap (·.content),
    OpenType.octetCount content ≤ r.settings.maxLength.toNat

/-- What is needed does not depend on the place of reading. -/
theorem ExpectsAll.advanced {extension : Bool} {fields : List (Field Descriptor)} {entries : List (Option Value)}
    {r r' : Reader} {n : Nat} (h : ExpectsAll extension fields entries r) (ha : r.Advanced n r') :
    ExpectsAll extension fields entries r' := by
  obtain ⟨h1, h2, h3, h4, h5⟩ := h
  rw [← ha.depth, ← ha.settings] at h2
  rw [← ha.settings] at h3 h4 h5
  exact ⟨h1, h2, h3, h4, h5⟩

section Cons

variable {extension : Bool} {field : Field Descriptor} {fields : List (Field Descriptor)} {entry : Option Value}
  {entries : List (Option Value)} {r : Reader}

theorem ExpectsAll.head (h : ExpectsAll extension (field :: fields) (entry :: entries) r) :
    Expects extension field.optional field.type entry r := by
  obtain ⟨h1, h2, h3, h4, h5⟩ := h
  rw [Descriptor.fieldsConform_cons, Bool.and_eq_true] at h1
  rw [Value.nestingList] at h2
  rw [Value.lengthsWithinList, Bool.and_eq_true] at h3
  refine ⟨h1.1, by omega, ?_, ?_⟩
  · rintro value rfl
    refine ⟨h3.1, fun content hc => h4 content ?_⟩
    rw [Descriptor.fieldsContents]
    exact List.mem_append_left _ hc
  · rintro value rfl hext
    refine h5 hext _ ?_
    rw [Descriptor.parts, List.filterMap_cons]
    exact List.mem_cons_self ..

theorem ExpectsAll.tail (h : ExpectsAll extension (field :: fields) (entry :: entries) r) :
    ExpectsAll extension fields entries r := by
  obtain ⟨h1, h2, h3, h4, h5⟩ := h
  rw [Descriptor.fieldsConform_cons, Bool.and_eq_true] at h1
  rw [Value.nestingList] at h2
  rw [Value.lengthsWithinList, Bool.and_eq_true] at h3
  refine ⟨h1.2, by omega, h3.2, fun content hc => h4 content ?_, fun hext content hc => h5 hext content ?_⟩
  · rw [Descriptor.fieldsContents]
    exact List.mem_append_right _ hc
  · rw [Descriptor.parts, List.filterMap_cons]
    split
    · exact hc
    · exact List.mem_cons_of_mem _ hc

end Cons

/-- The entries of some fields are read from `r` on, `r'` being the reader once the extension block is open, if it has to be. The
presence bits behind theirs stay. -/
def ReadsEntries (extension : Bool) (fields : List (Field Descriptor)) (entries : List (Option Value)) (later : List Bool)
    (r r' : Reader) (p : Presence) : Prop :=
  ∃ r2 p2, Descriptor.readFields fields r = .ok (Value.tidyList entries) r2 ∧
    p.Passed fields.length (Part.marks extension (Descriptor.parts fields entries)).length p2 ∧ Holds r2 p2 later ∧
    r'.Advanced (Part.bodies extension (Descriptor.parts fields entries)).length r2

/-- One entry before the others. -/
theorem readsEntries_cons {extension : Bool} {field : Field Descriptor} {fields : List (Field Descriptor)}
    {entry : Option Value} {entries : List (Option Value)} {later : List Bool} {r r' : Reader} {p : Presence}
    (ht : ReadBack field.type) (hreach : reachSlot field.optional r = visitSlot field.optional r') (hclaimed : r.claimed = none)
    (hs : Holds r' p (Part.marks extension (Descriptor.parts (field :: fields) (entry :: entries)) ++ later))
    (ha : p.Awaits extension (fields.length + 1)) (he : ExpectsAll extension (field :: fields) (entry :: entries) r')
    (hbody : Part.bodies extension (Descriptor.parts (field :: fields) (entry :: entries)) <+: r'.view.toList)
    (hrest : ∀ r2 p2, p2.Awaits extension fields.length →
      Holds r2 p2 (Part.marks extension (Descriptor.parts fields entries) ++ later) → ExpectsAll extension fields entries r2 →
      Part.bodies extension (Descriptor.parts fields entries) <+: r2.view.toList →
      ReadsEntries extension fields entries later r2 r2 p2) :
    ReadsEntries extension (field :: fields) (entry :: entries) later r r' p := by
  obtain ⟨part, hpart⟩ : ∃ part : Part, part = ⟨field.optional, entry.map field.type.bits⟩ := ⟨_, rfl⟩
  have hmarks : Part.marks extension (Descriptor.parts (field :: fields) (entry :: entries)) =
      part.mark extension ++ Part.marks extension (Descriptor.parts fields entries) := by
    rw [hpart]
    rfl
  have hbodies : Part.bodies extension (Descriptor.parts (field :: fields) (entry :: entries)) =
      part.body extension ++ Part.bodies extension (Descriptor.parts fields entries) := by
    rw [hpart]
    rfl
  unfold ReadsEntries
  rw [hmarks] at hs ⊢
  rw [List.append_assoc] at hs
  rw [hbodies] at hbody ⊢
  have hentry := reads_entry ht hreach hclaimed (by rw [← hpart]; exact hs) ha he.head
    (by rw [← hpart]; exact Unpacker.prefix_left hbody)
  rw [← hpart] at hentry
  obtain ⟨r2, p2, hm2, hpass2, hs2, hadv2⟩ := hentry
  have ha2 : p2.Awaits extension fields.length := by
    rw [Nat.add_comm] at ha
    exact ha.passed hpass2
  have hbody2 : Part.bodies extension (Descriptor.parts fields entries) <+: r2.view.toList := by
    have hahead := LawfulBitSource.ahead_of_moved hadv2.view
    have hlist : r2.view.toList = r'.view.toList.drop (part.body extension).length := hahead
    rw [hlist]
    exact Unpacker.prefix_drop hbody
  obtain ⟨r3, p3, hm3, hpass3, hs3, hadv3⟩ := hrest r2 p2 ha2 hs2 (he.tail.advanced hadv2) hbody2
  refine ⟨r3, p3, ?_, ?_, hs3, ?_⟩
  · rw [Descriptor.readFields_cons]
    simp only [run_bind, hm2, hm3]
    rfl
  · rw [List.length_cons, Nat.add_comm fields.length 1, List.length_append]
    exact hpass2.trans hpass3
  · rw [List.length_append]
    exact hadv2.trans hadv3

/-- The entries of a stretch. -/
theorem readsEntries {extension : Bool} (fields : List (Field Descriptor)) (h : ∀ field ∈ fields, ReadBack field.type) :
    ∀ entries later r p, entries.length = fields.length → p.Awaits extension fields.length →
      Holds r p (Part.marks extension (Descriptor.parts fields entries) ++ later) → ExpectsAll extension fields entries r →
      Part.bodies extension (Descriptor.parts fields entries) <+: r.view.toList →
      ReadsEntries extension fields entries later r r p := by
  induction fields with
  | nil =>
    intro entries later r p hlen _ hs _ _
    obtain rfl : entries = [] := List.eq_nil_of_length_eq_zero hlen
    exact ⟨r, p, rfl, Presence.Passed.refl p, hs, Advanced.refl r⟩
  | cons field fields ih =>
    intro entries later r p hlen ha hs he hbody
    cases entries with
    | nil => cases hlen
    | cons entry entries =>
      have hroom : (extension || field.optional) = true → p.ahead.start < p.ahead.stop := by
        intro hm
        have hmark : Part.marks extension (Descriptor.parts (field :: fields) (entry :: entries)) ++ later =
            (entry.map field.type.bits).isSome :: (Part.marks extension (Descriptor.parts fields entries) ++ later) := by
          refine congrArg (· ++ Part.marks extension (Descriptor.parts fields entries) ++ later) (?_ : _ = [_])
          exact if_pos hm
        rw [hmark] at hs
        exact hs.peek.1
      refine readsEntries_cons (h field (List.mem_cons_self ..)) (reachSlot_eq hs.presence ha hroom) hs.claimed hs ha he hbody ?_
      intro r2 p2 ha2 hs2 he2 hbody2
      exact ih (fun f hf => h f (List.mem_cons_of_mem _ hf)) entries later r2 p2 (Nat.succ.inj hlen) ha2 hs2 he2 hbody2

end Reader

end UnalignedPer
