import Mathlib.Algebra.Group.Nat.Defs
import UnalignedPer.Proofs.Descriptor
import UnalignedPer.Proofs.Presence

/-!
# The slots of a whole sequence

`Presence.visitAll` visits the fields of a sequence one after the other and enters the extension block where it is called for.
Over the counts that the constraint of a type holds it never fails: `Presence.visitAll_sequence` says which bit each field
gets, where the block is called for, and what a field too many meets.
-/

namespace UnalignedPer

namespace Descriptor

/-- A marker past the last member stands where it would stand behind that member. -/
theorem take_rootCount {α : Type} (members : List α) (standard : Option Nat) :
    members.take (rootCount standard members.length) = members.take (standard.getD members.length) :=
  (List.take_eq_take_min).symm

/-- The members behind the marker are those behind the members in front of it. -/
theorem drop_rootCount {α : Type} (members : List α) (standard : Option Nat) :
    members.drop (rootCount standard members.length) = members.drop (standard.getD members.length) := by
  unfold rootCount
  rcases Nat.le_total (standard.getD members.length) members.length with h | h
  · rw [Nat.min_eq_left h]
  · rw [Nat.min_eq_right h, List.drop_length, List.drop_eq_nil_of_le h]

end Descriptor

namespace Presence

/-- What a field meets: the step it is given, behind the call for the extension block if that comes first. The block starts at
`header` and its presence bits are `run`. -/
def meet (header : Nat) (run : BitRange) (lenient : Bool) (p : Presence) (optional : Bool) :
    Except Fault (List SlotStep × Presence) :=
  match p.visit optional with
  | (.ok .openExtensions, p) =>
    match (p.enterExtensions header run lenient).visit optional with
    | (.ok step, p) => .ok ([.openExtensions, step], p)
    | (.error fault, _) => .error fault
  | (.ok step, p) => .ok ([step], p)
  | (.error fault, _) => .error fault

/-- Visits fields in order, given which of them are OPTIONAL: the steps they meet, and the presence bits after them. -/
def visitAll (header : Nat) (run : BitRange) (lenient : Bool) :
    Presence → List Bool → Except Fault (List SlotStep × Presence)
  | p, [] => .ok ([], p)
  | p, optional :: later => do
    let (met, p) ← p.meet header run lenient optional
    let (steps, last) ← visitAll header run lenient p later
    .ok (met ++ steps, last)

/-- The step of a field of a stretch where the next bit stands at `next`. -/
def slot (extension : Bool) (next : Nat) (optional : Bool) : SlotStep :=
  if extension || optional then .marked next extension else .unmarked

/-- The steps of the fields of a stretch: those that take a bit take the ones from `start` on in order. -/
def slots (extension : Bool) (start : Nat) (flags : List Bool) : List SlotStep :=
  flags.mapIdx fun i optional => slot extension (start + (flags.take i).countP (extension || ·)) optional

variable {header : Nat} {run : BitRange} {lenient : Bool}

/-! ## One field -/

/-- A field that is visited meets the step of the visit, if the extension block is not called for. -/
theorem meet_of_visit {p p' : Presence} {optional : Bool} {step : SlotStep} (h : p.visit optional = (.ok step, p'))
    (hne : step ≠ .openExtensions) : p.meet header run lenient optional = .ok ([step], p') := by
  unfold meet
  rw [h]
  cases step with
  | openExtensions => exact absurd rfl hne
  | unmarked => rfl
  | marked position openType => rfl
  | absent => rfl

/-- Within a stretch a field meets the one step that is its own. -/
theorem meet_slot (header : Nat) (run : BitRange) (lenient : Bool) {p : Presence} {extension optional : Bool} {left : Nat}
    (h : p.Awaits extension (left + 1)) (hroom : p.ahead.start + (extension || optional).toNat ≤ p.ahead.stop) :
    ∃ p', p.meet header run lenient optional = .ok ([slot extension p.ahead.start optional], p') ∧
      p.Passed 1 (extension || optional).toNat p' := by
  unfold slot
  cases hm : extension || optional with
  | false =>
    obtain ⟨p', hv, hp⟩ := visit_unmarked h hm
    exact ⟨p', meet_of_visit hv (by simp), hp⟩
  | true =>
    rw [hm] at hroom
    obtain ⟨p', hv, hp⟩ := visit_marked h hm hroom
    exact ⟨p', meet_of_visit hv (by simp), hp⟩

/-- The block comes once, in front of the step that its first field meets in it. -/
theorem meet_openExtensions {p p' : Presence} {optional : Bool} {step : SlotStep} (hr : p.rule = .standardFields)
    (hs : p.standardLeft = 0) (he : p.extensions ≠ 0)
    (h : (p.enterExtensions header run lenient).visit optional = (.ok step, p')) :
    p.meet header run lenient optional = .ok ([.openExtensions, step], p') := by
  unfold meet
  rw [visit_openExtensions optional hr hs he]
  simp only [h]

/-! ## Fields in a row -/

/-- The first field is met before the others. -/
theorem visitAll_cons {p q last : Presence} {optional : Bool} {later : List Bool} {met steps : List SlotStep}
    (h : p.meet header run lenient optional = .ok (met, q)) (hl : q.visitAll header run lenient later = .ok (steps, last)) :
    p.visitAll header run lenient (optional :: later) = .ok (met ++ steps, last) := by
  rw [visitAll, h]
  simp only [bind, Except.bind, hl]

/-- Fields that are met after others are met with them. -/
theorem visitAll_append {p q last : Presence} {flags later : List Bool} {met steps : List SlotStep}
    (h : p.visitAll header run lenient flags = .ok (met, q)) (hl : q.visitAll header run lenient later = .ok (steps, last)) :
    p.visitAll header run lenient (flags ++ later) = .ok (met ++ steps, last) := by
  induction flags generalizing p met with
  | nil =>
    cases h
    exact hl
  | cons optional flags ih =>
    rw [visitAll] at h
    cases hm : p.meet header run lenient optional with
    | error fault =>
      rw [hm] at h
      cases h
    | ok first =>
      obtain ⟨front, r⟩ := first
      rw [hm] at h
      simp only [bind, Except.bind] at h
      cases hv : r.visitAll header run lenient flags with
      | error fault =>
        rw [hv] at h
        cases h
      | ok rest =>
        rw [hv] at h
        cases h
        rw [List.cons_append, visitAll_cons hm (ih hv), List.append_assoc]

/-- The first field takes the first bit, if it takes one. -/
theorem slots_cons (extension optional : Bool) (start : Nat) (flags : List Bool) :
    slots extension start (optional :: flags) =
      slot extension start optional :: slots extension (start + (extension || optional).toNat) flags := by
  unfold slots
  rw [List.mapIdx_cons]
  refine congrArg _ (congrArg₂ _ (funext fun i => ?_) rfl)
  have hcount : ((optional :: flags).take (i + 1)).countP (extension || ·) =
      (extension || optional).toNat + (flags.take i).countP (extension || ·) := by
    rw [List.take_succ_cons, List.countP_cons, Nat.add_comm]
    cases extension || optional <;> rfl
  rw [hcount, Nat.add_assoc]

/-- In front of the marker as many bits are taken as there are optional fields. -/
theorem countP_standard (flags : List Bool) : flags.countP (false || ·) = flags.count true :=
  List.countP_congr fun flag _ => by cases flag <;> simp

/-- Behind the marker as many bits are taken as there are fields. -/
theorem countP_extension (flags : List Bool) : flags.countP (true || ·) = flags.length :=
  List.countP_eq_length.mpr fun _ _ => rfl

/-- Of the standard fields the OPTIONAL ones take a bit. -/
theorem slots_standard (start : Nat) (flags : List Bool) :
    slots false start flags =
      flags.mapIdx fun i optional => if optional then .marked (start + (flags.take i).count true) false else .unmarked := by
  unfold slots slot
  simp only [Bool.false_or, ← countP_standard]

/-- The extension fields take all bits in order. -/
theorem slots_extension (start : Nat) (flags : List Bool) :
    slots true start flags = (List.range flags.length).map fun j => .marked (start + j) true := by
  induction flags generalizing start with
  | nil => rfl
  | cons optional flags ih =>
    rw [slots_cons, ih, List.length_cons, List.range_succ_eq_map, List.map_cons, List.map_map]
    refine congrArg _ (List.map_congr_left fun j _ => ?_)
    rw [Function.comp_apply, Nat.succ_eq_one_add, ← Nat.add_assoc]
    rfl

/-- The fields of a stretch meet their slots, and no bit that was not theirs is taken. -/
theorem visitAll_slots (header : Nat) (run : BitRange) (lenient : Bool) {p : Presence} {extension : Bool}
    {flags : List Bool} (h : p.Awaits extension flags.length)
    (hroom : p.ahead.start + flags.countP (extension || ·) ≤ p.ahead.stop) :
    ∃ p', p.visitAll header run lenient flags = .ok (slots extension p.ahead.start flags, p') ∧
      p.Passed flags.length (flags.countP (extension || ·)) p' := by
  induction flags generalizing p with
  | nil => exact ⟨p, rfl, .refl p⟩
  | cons optional flags ih =>
    have hcount : (optional :: flags).countP (extension || ·) =
        (extension || optional).toNat + flags.countP (extension || ·) := by
      rw [List.countP_cons, Nat.add_comm]
      cases extension || optional <;> rfl
    rw [hcount] at hroom ⊢
    have hfirst : p.ahead.start + (extension || optional).toNat ≤ p.ahead.stop := by omega
    obtain ⟨q, hm, hq⟩ := meet_slot header run lenient h hfirst
    have hn : (optional :: flags).length = 1 + flags.length := Nat.add_comm _ _
    rw [hn] at h ⊢
    obtain ⟨last, hv, hlast⟩ := ih (h.passed hq) (by rw [hq.start, hq.stop]; omega)
    refine ⟨last, ?_, hq.trans hlast⟩
    rw [visitAll_cons hm hv, slots_cons, hq.start]
    rfl

/-- Behind the standard fields the block is called for once, and the fields in it take all bits of its run in order. -/
theorem visitAll_block {p : Presence} {flags : List Bool} (header start : Nat) (lenient : Bool)
    (hr : p.rule = .standardFields) (hs : p.standardLeft = 0) (he : p.extensions ≠ 0) (hne : flags ≠ []) :
    ∃ p', p.visitAll header ⟨start, start + flags.length⟩ lenient flags =
        .ok (.openExtensions :: slots true start flags, p') ∧
      p'.rule = .everyField ∧ p'.ahead = ⟨start + flags.length, start + flags.length⟩ ∧ p'.lenient = lenient := by
  obtain ⟨optional, later, rfl⟩ := List.exists_cons_of_ne_nil hne
  let run : BitRange := ⟨start, start + (optional :: later).length⟩
  let entered := p.enterExtensions header run lenient
  have hlen : run.stop = run.start + (1 + later.length) := by
    rw [Nat.add_comm 1]
    rfl
  -- In the block the field is visited again and takes the first bit of the run.
  have hfirst : entered.Awaits true (later.length + 1) := awaits_everyField rfl _
  obtain ⟨q, hv, hq⟩ := visit_marked hfirst (Bool.true_or optional) (by change run.start < run.stop; omega)
  have hqstart : q.ahead.start = run.start + 1 := hq.start
  have hqstop : q.ahead.stop = run.stop := hq.stop
  obtain ⟨last, hvisits, hlast⟩ := visitAll_slots header run lenient (awaits_everyField hq.rule later.length)
    (by rw [countP_extension]; omega)
  have hstart := hlast.start
  rw [countP_extension] at hstart
  refine ⟨last, ?_, hlast.rule.trans hq.rule, ?_, hlast.lenient.trans hq.lenient⟩
  · rw [visitAll_cons (meet_openExtensions hr hs he hv) hvisits, slots_cons, hqstart]
    rfl
  · have hstop := hlast.stop
    have hrun : start + (optional :: later).length = run.stop := rfl
    have hpast : last.ahead.start = run.stop := by omega
    have hend : last.ahead.stop = run.stop := by omega
    rw [hrun]
    exact congrArg₂ BitRange.mk hpast hend

/-! ## A field too many -/

/-- Behind the standard fields of a type without extensions there is no bit for an OPTIONAL field. -/
theorem visit_pastRoot {p : Presence} (hend : p.ahead.start = p.ahead.stop)
    (hr : p.rule = .optionalFields ∨ (p.rule = .standardFields ∧ p.standardLeft = 0 ∧ p.extensions = 0)) :
    (p.visit true).1 = .error .presenceExhausted := by
  have hempty : p.ahead.isEmpty = true := decide_eq_true (Nat.le_of_eq hend.symm)
  rcases hr with hr | ⟨hr, hs, he⟩
  · simp [visit, hr, visitStandard, hempty]
  · simp [visit, hr, hs, he]

/-- Behind the run of an extension block there is no bit for any field. -/
theorem visit_pastBlock {p : Presence} (optional : Bool) (hr : p.rule = .everyField) (hend : p.ahead.start = p.ahead.stop) :
    (p.visit optional).1 = if p.lenient then .ok .absent else .error .presenceExhausted := by
  have hempty : p.ahead.isEmpty = true := decide_eq_true (Nat.le_of_eq hend.symm)
  simp [visit, hr, visitExtension, hempty]

/-! ## A whole sequence -/

/-- The fields before the marker take the bits reserved for them. Then a type without extensions has no bit left, and any other
one has come to its extension block. -/
theorem visitAll_opening {name : String} {fields root added : List (Field Descriptor)} {standard : Option Nat}
    (hv : Descriptor.Halves name fields standard root added) (first header : Nat) (run : BitRange) (lenient : Bool) :
    ∃ p', (opening (Descriptor.sequence name fields standard).constraint first).visitAll header run lenient
          (root.map (·.optional)) = .ok (slots false first (root.map (·.optional)), p') ∧
      p'.ahead.start = p'.ahead.stop ∧
      ((standard = none ∧ p'.rule = .optionalFields) ∨
        (p'.rule = .standardFields ∧ p'.standardLeft = 0 ∧ p'.extensions = added.length)) := by
  have hcount : (root.map (·.optional)).count true = (Descriptor.sequence name fields standard).constraint.optionalFields := by
    rw [hv.optionalFields, List.count, List.countP_map]
    exact List.countP_congr fun field _ => by simp
  have hlength : (root.map (·.optional)).length = (Descriptor.sequence name fields standard).constraint.standardCount := by
    rw [List.length_map, hv.standardCount]
  have hawaits := awaits_opening (Descriptor.sequence name fields standard).constraint first
  rw [← hlength] at hawaits
  have hroom : (opening (Descriptor.sequence name fields standard).constraint first).ahead.start +
        (root.map (·.optional)).countP (false || ·) ≤
      (opening (Descriptor.sequence name fields standard).constraint first).ahead.stop :=
    Nat.le_of_eq (by rw [ahead_opening, countP_standard, hcount])
  obtain ⟨p', hvisit, hp⟩ := visitAll_slots header run lenient hawaits hroom
  have hstart := hp.start
  rw [countP_standard, hcount, ahead_opening] at hstart
  rw [ahead_opening] at hvisit
  refine ⟨p', hvisit, by rw [hstart, hp.stop, ahead_opening], ?_⟩
  cases standard with
  | none => exact Or.inl ⟨rfl, hp.rule⟩
  | some n =>
    have hleft : p'.standardLeft = (Descriptor.sequence name fields (some n)).constraint.standardCount - _ := hp.standardLeft rfl
    rw [hlength, Nat.sub_self] at hleft
    exact Or.inr ⟨hp.rule, hleft, hp.extensions.trans hv.extensionCount⟩

/-- For a matching schema the presence bits never run out. Of the fields of a sequence type, visited once in order on the
counts of its constraint, the OPTIONAL ones before the marker take the bits from `first` on, one each and in order, and the
other ones none; the extension block is called for once, at the first field behind the marker and only if there is one, and
the fields in it take the bits of its run in order, as open types. Then no bit is left, and an OPTIONAL field more is a fault,
or absent if an extension block was entered leniently. -/
theorem visitAll_sequence (name : String) (fields : List (Field Descriptor)) (standard : Option Nat)
    (first header start : Nat) (lenient : Bool) :
    let c := (Descriptor.sequence name fields standard).constraint
    let flags := fields.map (·.optional)
    let root := flags.take (standard.getD flags.length)
    let added := flags.drop (standard.getD flags.length)
    ∃ last,
      (opening c first).visitAll header ⟨start, start + c.extensionCount⟩ lenient flags =
        .ok ((root.mapIdx fun i optional =>
            if optional then .marked (first + (root.take i).count true) false else .unmarked) ++
          (if added = [] then []
            else .openExtensions :: (List.range added.length).map fun j => .marked (start + j) true), last) ∧
      last.ahead.isEmpty = true ∧
      (last.visit true).1 = if lenient ∧ added ≠ [] then .ok .absent else .error .presenceExhausted := by
  intro c flags root added
  have hv := Descriptor.halves name fields standard
  have hlen : flags.length = fields.length := List.length_map _
  have hroot : (fields.take (Descriptor.rootCount standard fields.length)).map (·.optional) = root := by
    rw [List.map_take, ← hlen, Descriptor.take_rootCount]
  have hadded : (fields.drop (Descriptor.rootCount standard fields.length)).map (·.optional) = added := by
    rw [List.map_drop, ← hlen, Descriptor.drop_rootCount]
  have hall : flags = root ++ added := (List.take_append_drop _ _).symm
  have hcount : c.extensionCount = added.length := by
    rw [hv.extensionCount, ← hadded, List.length_map]
  obtain ⟨p, hvisit, hend, hkind⟩ := visitAll_opening hv first header ⟨start, start + c.extensionCount⟩ lenient
  rw [hroot] at hvisit
  rw [← hv.extensionCount, hcount] at hkind
  rw [← slots_standard, ← slots_extension]
  -- Behind the standard fields comes nothing, or the extension block.
  by_cases hne : added = []
  · refine ⟨p, ?_, decide_eq_true (Nat.le_of_eq hend.symm), ?_⟩
    · rw [hall, hne, List.append_nil, if_pos rfl, List.append_nil]
      exact hvisit
    · rw [if_neg fun h => h.2 hne]
      refine visit_pastRoot hend (hkind.imp And.right fun ⟨hr, hs, he⟩ => ⟨hr, hs, ?_⟩)
      rw [he, hne]
      rfl
  · have hclosed : standard ≠ none := fun h => hne (by rw [← hadded, hv.closed h]; rfl)
    obtain ⟨hr, hs, he⟩ := hkind.resolve_left fun h => hclosed h.1
    have hsome : p.extensions ≠ 0 := by
      rw [he]
      exact mt List.eq_nil_of_length_eq_zero hne
    obtain ⟨last, hblock, hrule, hahead, hlenient⟩ := visitAll_block header start lenient hr hs hsome hne
    have hpast : last.ahead.start = last.ahead.stop := by rw [hahead]
    refine ⟨last, ?_, decide_eq_true (Nat.le_of_eq hpast.symm), ?_⟩
    · rw [hall, if_neg hne]
      rw [← hcount] at hblock
      exact visitAll_append hvisit hblock
    · rw [visit_pastBlock true hrule hpast, hlenient]
      simp [hne]

/-- Two standard fields and two extension fields, the second and the third OPTIONAL, and a marker between them. -/
example :
    (ofStandard ⟨1, 2⟩ 2 2).visitAll 10 ⟨17, 19⟩ false [false, true, true, false] =
      .ok ([.unmarked, .marked 1 false, .openExtensions, .marked 17 true, .marked 18 true],
        ⟨.everyField, ⟨19, 19⟩, 17, 0, 2, some 10, false⟩) := by
  rfl

end Presence

end UnalignedPer
