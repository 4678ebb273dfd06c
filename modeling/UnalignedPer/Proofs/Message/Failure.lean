import UnalignedPer.Proofs.Message.Calls
import UnalignedPer.Proofs.Message.WritingSequence

/-!
# Payloads that fail

The content of an open type is written to a buffer of its own. If it fails, however deep inside and after however many bits,
the message, the presence bits around and the number of open containers are what they were when it was started
(`Writer.Untouched`). So of a field or an alternative that fails in its open type nothing stays but what came in front of it:
the bits of the field's slot (`Writer.slotBits`) and the index of the alternative.
-/

namespace UnalignedPer

namespace Writer

open Packer (Wrote)

/-- The message, the presence bits around and the number of open containers are the same in `t` as in `w`. -/
structure Untouched (w t : Writer) : Prop where
  /-- The message holds the same bits, up to the same place. -/
  buffer : t.buffer = w.buffer
  /-- The presence bits of the sequence around are the same. -/
  presence : t.presence = w.presence
  /-- As many containers are open. -/
  depth : t.depth = w.depth

theorem Untouched.refl (w : Writer) : w.Untouched w :=
  ⟨rfl, rfl, rfl⟩

theorem Untouched.trans {w t u : Writer} (h : w.Untouched t) (h' : t.Untouched u) : w.Untouched u :=
  ⟨h'.buffer.trans h.buffer, h'.presence.trans h.presence, h'.depth.trans h.depth⟩

/-! ## Open types -/

variable {content : WriterM Unit} {w s t : Writer} {fault : Fault}

/-- An open type fails in its content, before anything of it reaches the message. -/
theorem untouched_inOpenType (h : Movable content) (hm : inOpenType content w = .error fault t) : w.Untouched t := by
  have hempty : Behind [] { w with buffer := .empty, presence := none } { w with buffer := .empty, presence := none } :=
    ⟨rfl, BitBuffer.clean_empty, BitBuffer.clean_empty, rfl, rfl, rfl, rfl⟩
  unfold inOpenType at hm
  rcases (h []).cases hempty with ⟨_, _, t', _, hrun, -, -, -, behind⟩ | ⟨fault', t', _, hrun, -, settles, -⟩
  · -- a content that succeeds is packed, and packing does not fail
    obtain ⟨_, hpack, -⟩ := writes_packContent { t' with buffer := w.buffer, presence := w.presence } behind.clean
    simp only [hrun, hpack] at hm
    cases hm
  · simp only [hrun] at hm
    cases hm
    exact ⟨rfl, rfl, settles.depth⟩

/-- What an action between two changes of the depth leaves untouched stays so. -/
theorem untouched_deeper {m : WriterM Unit} (h : ∀ t', m { s with depth := s.depth + 1 } = .error fault t' →
      Untouched { s with depth := s.depth + 1 } t')
    (hm : afterwards (fun w => { w with depth := w.depth - 1 }) m { s with depth := s.depth + 1 } = .error fault t) :
    s.Untouched t := by
  unfold afterwards at hm
  split at hm
  · cases hm
  · rename_i fault' t' hrun
    cases hm
    obtain ⟨hb, hp, hd⟩ := h t' hrun
    exact ⟨hb, hp, congrArg (· - 1) hd⟩

theorem untouched_field (h : Movable content) (hs : enterField w = .ok true s) (hm : field content w = .error fault t) :
    s.Untouched t := by
  have hrun : field content w = inOpenType content s := by
    simp only [field, run_bind, hs, withContent, if_true]
  exact untouched_inOpenType h (hrun.symm.trans hm)

theorem untouched_container (h : Movable content) (hs : enterField w = .ok true s)
    (hm : container content w = .error fault t) : s.Untouched t := by
  by_cases hd : s.depth ≥ s.settings.maxDepth
  · have hrun : container content w = .error (.unsupported .nestingLimit) s := by
      simp only [container, run_bind, hs, run_get, if_pos hd]
      rfl
    rw [hrun] at hm
    cases hm
    exact .refl s
  · have hrun : container content w = afterwards (fun w => { w with depth := w.depth - 1 }) (inOpenType content)
        { s with depth := s.depth + 1 } := by
      simp only [container, run_bind, hs, run_get, if_neg hd]
      rfl
    exact untouched_deeper (fun t' hm' => untouched_inOpenType h hm') (hrun.symm.trans hm)

/-! ## Calls -/

/-- The calls that write one field, their parts by scripts. -/
inductive FieldCall : WriterM Unit → Prop
  | null : FieldCall null
  | boolean (value : Bool) : FieldCall (boolean value)
  | integer (c : Constraint) (value : Int64) : FieldCall (integer c value)
  | enumerated (c : Constraint) (item : UInt64) : FieldCall (enumerated c item)
  | octetString (c : Constraint) (value : Octets) : FieldCall (octetString c value)
  | bitString (c : Constraint) (value : BitString) : FieldCall (bitString c value)
  | characterString (c : Constraint) (text : Octets) : FieldCall (characterString c text)
  | sequence (c : Constraint) {fields : WriterM Unit} (body : Scripted fields) : FieldCall (sequence c fields)
  | sequenceOf (c : Constraint) (count : Nat) {element : Nat → WriterM Unit} (body : ∀ index, Scripted (element index)) :
      FieldCall (sequenceOf c count element)
  | choice (c : Constraint) (alternative : UInt64) {payload : WriterM Unit} (body : Scripted payload) :
      FieldCall (choice c alternative payload)
  /-- Records the end of the call. -/
  | recorded (path : String) {call : WriterM Unit} (action : FieldCall call) : FieldCall (WriteStep.recorded path call)

theorem untouched_framed {call : WriterM Unit} (h : Framed call) (hs : enterField w = .ok true s)
    (hm : call w = .error fault t) : s.Untouched t := by
  obtain ⟨content, hc, rfl | rfl⟩ := h
  · exact untouched_field hc hs hm
  · exact untouched_container hc hs hm

/-- A call whose field is an open type leaves nothing behind when it fails. -/
theorem FieldCall.untouched {call : WriterM Unit} (h : FieldCall call) (hs : enterField w = .ok true s)
    (hm : call w = .error fault t) : s.Untouched t := by
  induction h generalizing t with
  | null => exact untouched_framed (framed_field (movable_pure ())) hs hm
  | boolean value => exact untouched_framed (framed_field (movable_bit value)) hs hm
  | integer c value => exact untouched_framed (framed_field (movable_packInteger _ _ _)) hs hm
  | enumerated c item => exact untouched_framed (framed_field (movable_index c item)) hs hm
  | octetString c value => exact untouched_framed (framed_field (movable_packOctets _ _ _)) hs hm
  | bitString c value => exact untouched_framed (framed_field (movable_packBits _ _ _)) hs hm
  | characterString c text => exact untouched_framed (framed_field (movable_packText _ _ _ _)) hs hm
  | sequence c body => exact untouched_framed (framed_sequence c (movable_of_scripted body)) hs hm
  | sequenceOf c count body =>
    exact untouched_framed (framed_sequenceOf c count fun index => movable_of_scripted (body index)) hs hm
  | choice c alternative body => exact untouched_framed (framed_choice c alternative (movable_of_scripted body)) hs hm
  | recorded path _ ih =>
    unfold WriteStep.recorded at hm
    split at hm
    · cases hm
    · rename_i fault' t' hrun
      cases hm
      obtain ⟨hb, hp, hd⟩ := ih hrun
      exact ⟨hb, hp, hd⟩

/-! ## The slot of a field -/

/-- The bits of a message once the slot of the next field is taken. The field's presence bit, if it has one, says whether the
field is there; if the extension block was still closed, the header of the block comes first, and a zero bit for every other
field of it follows. -/
def slotBits (optional present : Bool) (w : Writer) : List Bool :=
  match w.presence with
  | none => w.buffer.toList
  | some p =>
    match (p.visit optional).1 with
    | .ok (.marked position _) => w.buffer.toList.set position present
    | .ok .openExtensions =>
      w.buffer.toList ++ WholeNumber.smallForm (UInt64.ofNat (p.extensions - 1)).toNat ++
        present :: List.replicate (p.extensions - 1) false
    | _ => w.buffer.toList

/-- The bits of a message once the next field is entered: its slot is taken, unless that was done before. -/
def enteredBits (w : Writer) : List Bool :=
  match w.claimed with
  | some _ => w.buffer.toList
  | none => slotBits false true w

/-- A presence bit is set, and nothing else changes. -/
theorem toList_mark {position : Nat} {present openType openType' : Bool} (hc : w.buffer.Clean)
    (hm : (Packer.overwrite position present >>= fun _ => pure openType' : WriterM Bool) w = .ok openType s) :
    s.buffer.toList = w.buffer.toList.set position present ∧ s.depth = w.depth := by
  rw [run_bind] at hm
  unfold Packer.overwrite at hm
  split at hm
  · rename_i w' hput
    split at hput
    · cases hput
      cases hm
      exact ⟨BitBuffer.toList_put _ _ _ hc, rfl⟩
    · cases hput
  · cases hm

/-- The first field of an extension block takes the first bit behind the header. -/
theorem visitSlot_opened {p : Presence} {header start : Nat} (optional : Bool)
    (hp : w.presence = some (p.enterExtensions header ⟨start, start + p.extensions⟩ false)) (he : p.extensions ≠ 0) :
    ∃ q, visitSlot optional w = .ok (.marked start true) { w with presence := some q } := by
  have hawaits : (p.enterExtensions header ⟨start, start + p.extensions⟩ false).Awaits true 1 :=
    Presence.awaits_everyField rfl 1
  obtain ⟨q, hv, -⟩ := Presence.visit_marked hawaits (Bool.true_or optional)
    (Nat.lt_add_of_pos_right (Nat.pos_of_ne_zero he))
  refine ⟨q, ?_⟩
  simp only [visitSlot, hp, hv]
  rfl

/-- Taking the slot of a field writes the bits of the slot. -/
theorem toList_claimSlot {optional present openType : Bool} (hc : w.buffer.Clean)
    (hs : claimSlot optional present w = .ok openType s) :
    s.buffer.toList = slotBits optional present w ∧ s.depth = w.depth := by
  unfold claimSlot reachSlot at hs
  simp only [run_bind, visitSlot] at hs
  unfold slotBits
  cases hp : w.presence with
  | none =>
    simp only [hp, run_pure] at hs
    cases hs
    exact ⟨rfl, rfl⟩
  | some p =>
    rcases hv : p.visit optional with ⟨fault | step, p'⟩
    · simp only [hp, hv] at hs
      cases hs
    · simp only [hp, hv] at hs ⊢
      cases step with
      | unmarked =>
        cases hs
        exact ⟨rfl, rfl⟩
      | absent =>
        cases hs
        exact ⟨rfl, rfl⟩
      | marked position _ => exact toList_mark (w := { w with presence := some p' }) hc hs
      | openExtensions =>
        -- the field is visited again in the block, where it takes the first bit
        obtain ⟨rfl, -, -, he⟩ := Presence.of_visit_openExtensions hv
        obtain ⟨w', hopen, hk, hadds, hp'⟩ := openExtensions_run hp
        obtain ⟨q, hv'⟩ := visitSlot_opened optional hp' he
        have hw : { w with presence := some p' } = w := by rw [← hp]
        simp only [hw, run_bind, hopen] at hs
        rw [hv'] at hs
        obtain ⟨hl, hd⟩ := toList_mark (w := { w' with presence := some q }) (hadds.clean hc) hs
        refine ⟨hl.trans ?_, hd.trans hk.depth⟩
        have hzeros : List.replicate p'.extensions false = false :: List.replicate (p'.extensions - 1) false := by
          rw [← List.replicate_succ, Nat.sub_add_cancel (Nat.pos_of_ne_zero he)]
        rw [hadds.toList, ← List.append_assoc, hzeros, ← BitBuffer.length_toList, ← List.length_append,
          List.set_append_right _ _ (Nat.le_refl _), Nat.sub_self, List.set_cons_zero]

/-- Entering a field writes the bits of its slot, if it was not taken before. -/
theorem toList_enterField {openType : Bool} (hc : w.buffer.Clean) (hs : enterField w = .ok openType s) :
    s.buffer.toList = enteredBits w ∧ s.depth = w.depth := by
  unfold enterField at hs
  unfold enteredBits
  simp only [run_bind, run_get] at hs
  cases hclaimed : w.claimed with
  | none =>
    simp only [hclaimed] at hs
    exact toList_claimSlot hc hs
  | some _ =>
    simp only [hclaimed, run_bind, run_modify, run_pure] at hs
    cases hs
    exact ⟨rfl, rfl⟩

/-! ## Extension alternatives -/

/-- The index of an extension alternative is written. -/
theorem index_extension (w : Writer) {c : Constraint} {alternative : UInt64} (hext : c.standardCount ≤ alternative.toNat)
    (hlt : alternative.toNat < c.count) :
    ∃ u, index c alternative w = .ok () u ∧
      Wrote w (ChoiceIndex.form c.standardCount c.extensible alternative.toNat) u := by
  have he : c.extensible = true := by
    cases he : c.extensible with
    | true => rfl
    | false =>
      rw [Constraint.standardCount, he, if_neg Bool.false_ne_true] at hext
      omega
  have hbound : c.standardCount ≤ 2 ^ 64 := Nat.le_trans hext (Nat.le_of_lt alternative.toNat_lt)
  unfold index
  rw [if_neg (Nat.not_le.mpr hlt)]
  exact (ChoiceIndex.writesIf_pack w hbound c.extensible alternative).1 (Or.inl he)

/-- An extension alternative that fails in its open type leaves the index behind. -/
theorem choice_error {c : Constraint} {alternative : UInt64} {payload : WriterM Unit} (h : Movable payload)
    (hext : c.standardCount ≤ alternative.toNat) (hlt : alternative.toNat < c.count) (hs : enterField w = .ok false s)
    (hd : s.depth < s.settings.maxDepth) (hm : choice c alternative payload w = .error fault t) :
    t.buffer.toList = s.buffer.toList ++ ChoiceIndex.form c.standardCount c.extensible alternative.toNat ∧
      t.presence = s.presence ∧ t.depth = s.depth := by
  obtain ⟨u, hindex, hu⟩ := index_extension { s with depth := s.depth + 1 } hext hlt
  obtain ⟨v, hnote, hv⟩ := (writes_note u .basic fun () => "choice " ++ c.text ++ " alternative " ++ toString alternative)
  have hrun : choice c alternative payload w =
      afterwards (fun w => { w with depth := w.depth - 1 }) (withPresence none (inOpenType payload)) v := by
    simp only [choice, container, run_bind, hs, run_get, if_neg (Nat.not_le.mpr hd), run_modify, withContent,
      Bool.false_eq_true, if_false, afterwards, hindex, hnote, hext, decide_true, if_true]
  rw [hrun] at hm
  unfold afterwards at hm
  split at hm
  · cases hm
  · rename_i fault' t' hfail
    cases hm
    unfold withPresence afterwards at hfail
    split at hfail
    · cases hfail
    · rename_i fault'' t'' hpayload
      cases hfail
      obtain ⟨hb, -, hdepth⟩ := untouched_inOpenType h hpayload
      obtain ⟨hadds, hkeeps, hpresence⟩ := hu.trans hv
      refine ⟨?_, hpresence, ?_⟩
      · rw [List.append_nil] at hadds
        rw [hb]
        exact hadds.toList
      · show t''.depth - 1 = s.depth
        rw [hdepth, hkeeps.depth]
        rfl

/-! ## Failures -/

/-- A payload that fails in an open type leaves no trace in the message. From any state, an open type that fails leaves the
bits, the presence bits around and the depth as they were when its content was started. So a call whose field is an open type
leaves the bits of the field's slot and nothing else, be it called directly or for an OPTIONAL field, and a choice whose
extension alternative fails leaves the index of the alternative behind those of its own slot. -/
theorem untouched_of_failure {call payload : WriterM Unit} (hcall : FieldCall call) (hpayload : Scripted payload)
    (w t : Writer) (fault : Fault) :
    (inOpenType payload w = .error fault t → w.Untouched t) ∧
    (∀ s, enterField w = .ok true s → call w = .error fault t →
      s.Untouched t ∧ (w.buffer.Clean → t.buffer.toList = enteredBits w ∧ t.depth = w.depth)) ∧
    (∀ s, claimSlot true true w = .ok true s → opt true call w = .error fault t →
      s.Untouched t ∧ (w.buffer.Clean → t.buffer.toList = slotBits true true w ∧ t.depth = w.depth)) ∧
    (∀ s c alternative, c.standardCount ≤ alternative.toNat → alternative.toNat < c.count → enterField w = .ok false s →
      s.depth < s.settings.maxDepth → choice c alternative payload w = .error fault t →
      t.buffer.toList = s.buffer.toList ++ ChoiceIndex.form c.standardCount c.extensible alternative.toNat ∧
        t.presence = s.presence ∧ t.depth = s.depth ∧
        (w.buffer.Clean → s.buffer.toList = enteredBits w ∧ t.depth = w.depth)) := by
  refine ⟨untouched_inOpenType (movable_of_scripted hpayload), fun s hs hm => ?_, fun s hs hm => ?_, ?_⟩
  · have hst := hcall.untouched hs hm
    refine ⟨hst, fun hc => ?_⟩
    obtain ⟨hl, hd⟩ := toList_enterField hc hs
    exact ⟨hst.buffer ▸ hl, hst.depth.trans hd⟩
  · have hrun : opt true call w =
        afterwards (fun w => { w with claimed := none }) call { s with claimed := some true } := by
      simp only [opt, run_bind, hs, if_true, run_modify]
    rw [hrun] at hm
    unfold afterwards at hm
    split at hm
    · cases hm
    · rename_i fault' t' hfail
      cases hm
      -- the call finds its slot taken and goes on from there
      have henter : enterField { s with claimed := some true } = .ok true { s with claimed := none } := by
        simp only [enterField, run_bind, run_get, run_modify, run_pure]
      obtain ⟨hb, hp, hd⟩ := hcall.untouched henter hfail
      refine ⟨⟨hb, hp, hd⟩, fun hc => ?_⟩
      obtain ⟨hl, hds⟩ := toList_claimSlot hc hs
      exact ⟨(congrArg BitBuffer.toList hb).trans hl, hd.trans hds⟩
  · intro s c alternative hext hlt hs hd hm
    obtain ⟨hl, hp, hdepth⟩ := choice_error (movable_of_scripted hpayload) hext hlt hs hd hm
    refine ⟨hl, hp, hdepth, fun hc => ?_⟩
    obtain ⟨hls, hds⟩ := toList_enterField hc hs
    exact ⟨hls, hdepth.trans hds⟩

/-- A container that opened an extension block of its own and failed in it leaves the presence bits of two extension fields in
the sequence around, of which it was to be the first. -/
theorem untouched_of_failure_nested :
    let w : Writer := { ofSettings .standard with presence := some (.ofStandard ⟨0, 0⟩ 0 2) }
    ∃ s t, claimSlot true true w = .ok true s ∧ opt true (briefing (throw .endOfStream)) w = .error .endOfStream t ∧
      s.Untouched t ∧ t.buffer.toList = [false, false, false, false, false, false, true, true, false] := by
  intro w
  have hcall : FieldCall (briefing (throw .endOfStream)) :=
    .sequence _ (.next (.opt _ (.boolean _)) (.opt _ (.fail _)))
  have hslot : resultOf (claimSlot true true) w = some true := by decide +kernel
  have hfail : faultOf (opt true (briefing (throw .endOfStream))) w = some .endOfStream := by decide +kernel
  have hbits : slotBits true true w = [false, false, false, false, false, false, true, true, false] := by decide +kernel
  obtain ⟨s, hs⟩ := resultOf_eq_some.mp hslot
  obtain ⟨t, ht⟩ := faultOf_eq_some.mp hfail
  obtain ⟨hst, hleft⟩ := (untouched_of_failure hcall (.fail .endOfStream) w t .endOfStream).2.2.1 s hs ht
  exact ⟨s, t, hs, ht, hst, (hleft BitBuffer.clean_empty).1.trans hbits⟩

end Writer

end UnalignedPer
