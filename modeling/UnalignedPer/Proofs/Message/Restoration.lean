import UnalignedPer.Message.ReadScript
import UnalignedPer.Proofs.InStep

/-!
# What a read leaves behind

A read may fail in the middle of a sequence, of a list or of an open type, whose content may have been put together from fragments.
Whatever it was about then is put back: `Reader.Settles` says that a reader stands in the same message as before, at its place or
further on, and in no sequence, claim or container that it was not in before. `Reader.Settling` says of an action that it leaves
every reader settled, be it successful or not.

Contents are read from the bits ahead alone, so that they move the cursor and nothing else. The rest is done and undone around
them, and what is undone is undone by `afterwards` (`settling_between`).
-/

namespace UnalignedPer

/-- `v'` is `v` with the cursor at its place or further on. -/
structure BitView.Onward (v v' : BitView) : Prop where
  /-- The same octets are looked at. -/
  data : v'.data = v.data
  /-- The bits end where they ended. -/
  stop : v'.stop = v.stop
  /-- The cursor does not go back. -/
  position : v.position ≤ v'.position
  /-- The cursor does not leave the bits. -/
  within : v.position ≤ v.stop → v'.position ≤ v'.stop

namespace BitView

/-- A view stands where it stands. -/
theorem Onward.refl (v : BitView) : v.Onward v :=
  ⟨rfl, rfl, Nat.le_refl _, id⟩

/-- Onward twice is onward. -/
theorem Onward.trans {v v' v'' : BitView} (h : v.Onward v') (h' : v'.Onward v'') : v.Onward v'' :=
  ⟨h'.data.trans h.data, h'.stop.trans h.stop, Nat.le_trans h.position h'.position, fun hv => h'.within (h.within hv)⟩

/-- Moving over bits that are ahead. -/
theorem onward_move {v : BitView} {length : Nat} (h : length ≤ v.remaining) :
    v.Onward { v with position := v.position + length } := by
  refine ⟨rfl, rfl, Nat.le_add_right _ _, fun hv => ?_⟩
  show v.position + length ≤ v.stop
  simp only [remaining] at h
  omega

/-- A bit is read onward, or there is none and the cursor stays. -/
theorem onward_readBit (v : BitView) : v.Onward (outcome readBit v).2 := by
  unfold outcome readBit
  by_cases h : v.position < v.stop
  · rw [if_pos h]
    exact onward_move (by simp only [remaining]; omega)
  · rw [if_neg h]
    exact .refl v

/-- A run of bits is read onward, or there are too few and the cursor stays. -/
theorem onward_readInto (dst : Octets) (offset length : Nat) (v : BitView) :
    v.Onward (outcome (readInto dst offset length) v).2 := by
  unfold outcome readInto
  by_cases h : length > v.remaining
  · rw [if_pos h]
    exact .refl v
  · rw [if_neg h]
    exact onward_move (Nat.le_of_not_lt h)

/-- Bits that are skipped are passed. -/
theorem onward_skip {v v' : BitView} {length : Nat} (h : v.skip length = .ok v') : v.Onward v' := by
  unfold skip at h
  split at h
  · cases h
  · rename_i hl
    cases h
    exact onward_move (Nat.le_of_not_lt hl)

end BitView

namespace Reader

variable {α β : Type}

/-- `r'` stands in the message of `r`, at its place or further on, and in nothing that `r` did not stand in. -/
structure Settles (r r' : Reader) : Prop where
  /-- The cursor stands in the same bits, at its place or further on. -/
  view : r.view.Onward r'.view
  /-- Outside of a sequence it stays outside. -/
  presence : r.presence = none → r'.presence = none
  /-- No field stays claimed. -/
  claimed : r.claimed = none → r'.claimed = none
  /-- The extension marker is the same. -/
  marker : r'.marker = r.marker
  /-- As many containers lie around the place of reading. -/
  depth : r'.depth = r.depth

/-- An action leaves every reader settled, whatever it comes to. -/
def Settling (m : ReaderM α) : Prop :=
  ∀ r : Reader, r.Settles (outcome m r).2

/-- A reader is settled with respect to itself. -/
theorem Settles.refl (r : Reader) : r.Settles r :=
  ⟨.refl _, id, id, rfl, rfl⟩

/-- What is settled with respect to a settled reader is settled. -/
theorem Settles.trans {r r' r'' : Reader} (h : r.Settles r') (h' : r'.Settles r'') : r.Settles r'' :=
  ⟨h.view.trans h'.view, h'.presence ∘ h.presence, h'.claimed ∘ h.claimed, h'.marker.trans h.marker, h'.depth.trans h.depth⟩

/-- Only the cursor has moved. -/
theorem settles_of_view {r : Reader} {v : BitView} (h : r.view.Onward v) : r.Settles { r with view := v } :=
  ⟨h, id, id, rfl, rfl⟩

/-! ## How the statements chain -/

/-- An action that leaves readers settled is one that keeps those that are settled with respect to any reader. -/
theorem settling_iff {m : ReaderM α} : Settling m ↔ ∀ origin : Reader, InStep (fun r t => r = t ∧ origin.Settles r) m m := by
  constructor
  · exact fun h origin => inStep_self_iff.mpr fun r hr => hr.trans (h r)
  · exact fun h r => inStep_self_iff.mp (h r) r (.refl r)

/-- A result alone leaves the reader as it is. -/
theorem settling_pure (x : α) : Settling (pure x) :=
  settling_iff.mpr fun _ => inStep_pure x

/-- A failure leaves the reader as it is. -/
theorem settling_throw (fault : Fault) : Settling (throw fault : ReaderM α) :=
  settling_iff.mpr fun _ => inStep_throw fault

/-- Actions that leave readers settled leave them settled one after the other. -/
theorem Settling.bind {m : ReaderM α} {f : α → ReaderM β} (h : Settling m) (h' : ∀ x, Settling (f x)) : Settling (m >>= f) :=
  settling_iff.mpr fun origin => (settling_iff.mp h origin).bind fun x => settling_iff.mp (h' x) origin

/-- A function of the result is no other action. -/
theorem Settling.map {m : ReaderM α} (h : Settling m) (f : α → β) : Settling (f <$> m) :=
  settling_iff.mpr fun origin => (settling_iff.mp h origin).map f

/-- A choice between actions that leave readers settled leaves them settled. -/
theorem settling_ite {c : Prop} [Decidable c] {m n : ReaderM α} (h : Settling m) (h' : Settling n) :
    Settling (if c then m else n) :=
  settling_iff.mpr fun origin => inStep_ite (settling_iff.mp h origin) (settling_iff.mp h' origin)

/-- What follows the state may go by all of it. -/
theorem settling_get_bind {f : Reader → ReaderM β} (h : ∀ r, Settling (f r)) : Settling (get >>= f) :=
  fun r => h r r

/-- A change that leaves readers settled, as an action. -/
theorem settling_modify {change : Reader → Reader} (h : ∀ r : Reader, r.Settles (change r)) : Settling (modify change) :=
  h

/-- A change after an action is made whatever the action came to. -/
theorem outcome_afterwards (change : Reader → Reader) (m : ReaderM α) (r : Reader) :
    outcome (afterwards change m) r = ((outcome m r).1, change (outcome m r).2) := by
  simp only [outcome, afterwards]
  cases m r <;> rfl

/-- An action after a change of the state, and another change after it, be it successful or not. -/
theorem settling_between {m : ReaderM α} (enter : Reader → Reader) (leave : Reader → Reader → Reader) (h : Settling m)
    (hs : ∀ r r', (enter r).Settles r' → r.Settles (leave r r')) :
    Settling fun r => afterwards (leave r) m (enter r) := by
  intro r
  change r.Settles (outcome (afterwards (leave r) m) (enter r)).2
  rw [outcome_afterwards]
  exact hs r _ (h (enter r))

/-- An action that goes on from a failure. -/
theorem settling_tryCatch {m : ReaderM α} {handle : Fault → ReaderM α} (h : Settling m)
    (h' : ∀ fault, Settling (handle fault)) : Settling (tryCatch m handle) := by
  intro r
  have hm := h r
  change r.Settles (outcome (EStateM.tryCatch m handle) r).2
  unfold outcome EStateM.tryCatch at *
  cases hr : m r with
  | ok x r' =>
    rw [hr] at hm
    exact hm
  | error fault r' =>
    rw [hr] at hm
    exact hm.trans (h' fault r')

/-! ## Bits and contents -/

/-- A step of the view moves the cursor and nothing else. -/
theorem settling_onView {action : EStateM Fault BitView α} (h : ∀ v : BitView, v.Onward (outcome action v).2) :
    Settling (onView action) := by
  intro r
  have hv := h r.view
  unfold outcome onView at *
  cases hr : action r.view with
  | ok x v =>
    rw [hr] at hv
    exact settles_of_view hv
  | error fault v =>
    rw [hr] at hv
    exact settles_of_view hv

/-- The bits ahead of readers that are settled are read in step, as they are the same. -/
theorem linked_settles (origin : Reader) : Linked fun r t : Reader => r = t ∧ origin.Settles r where
  remaining := by
    rintro r _ ⟨rfl, -⟩
    rfl
  readBit := settling_iff.mp (settling_onView BitView.onward_readBit) origin
  readInto dst offset length := settling_iff.mp (settling_onView (BitView.onward_readInto dst offset length)) origin

/-- What is read from the bits ahead leaves readers settled. -/
theorem settling_of_linked {m : ReaderM α}
    (h : ∀ {R : Reader → Reader → Prop}, Linked R → InStep R m m) : Settling m :=
  settling_iff.mpr fun origin => h (linked_settles origin)

/-- A content of a bounded size, if its units leave readers settled. -/
theorem settling_sized {consume : α → Nat → ReaderM α} (h : ∀ sofar count, Settling (consume sofar count)) (size : Bounds Nat)
    (extensible : Bool) (unitBits : Nat) (limit : Option Nat) (start : α) :
    Settling (SizedContent.unpack size extensible unitBits limit start consume) :=
  settling_iff.mpr fun origin =>
    (linked_settles origin).unpackSized (fun sofar count => settling_iff.mp (h sofar count) origin) size extensible unitBits
      limit start

/-! ## Small steps -/

/-- Tracing touches the trace only. -/
theorem settles_noted (level : TraceLevel) (text : Unit → String) (r : Reader) : r.Settles (noted level text r) := by
  unfold noted
  split
  · exact ⟨.refl _, id, id, rfl, rfl⟩
  · exact .refl r

/-- A trace is no change of what counts. -/
theorem settling_note (level : TraceLevel) (text : Unit → String) : Settling (note level text) :=
  settling_modify (settles_noted level text)

/-- The place of reading is looked at, and nothing is changed. -/
theorem settling_position : Settling position :=
  .refl

/-- The greatest length is looked at, and nothing is changed. -/
theorem settling_maxLength : Settling maxLength :=
  .refl

/-- Bits are skipped onward. -/
theorem settling_skip (length : Nat) : Settling (skip length) := by
  intro r
  unfold outcome skip
  cases hv : r.view.skip length with
  | ok v => exact settles_of_view (BitView.onward_skip hv)
  | error fault => exact .refl r

/-- A bit further on is looked at, and nothing is changed. -/
theorem settling_peek (position : Nat) : Settling (peek position) := by
  intro r
  unfold outcome peek
  cases r.view.peek position <;> exact .refl r

/-! ## Presence bits -/

/-- A presence bit is taken in a sequence, and outside of one there is none. -/
theorem settling_visitSlot (optional : Bool) : Settling (visitSlot optional) := by
  intro r
  unfold outcome visitSlot
  cases hp : r.presence with
  | none => exact .refl r
  | some p =>
    have hs : ∀ p', r.Settles { r with presence := some p' } :=
      fun _ => ⟨.refl _, fun hnone => absurd hnone (by simp [hp]), id, rfl, rfl⟩
    rcases hv : p.visit optional with ⟨_ | step, p'⟩
    · simp only [hv]
      exact hs p'
    · simp only [hv]
      exact hs p'

/-- The presence bits behind the marker are taken over in a sequence only. -/
theorem settling_enterExtensions (header : Nat) (run : BitRange) : Settling (enterExtensions header run) :=
  settling_modify fun _ => ⟨.refl _, fun hnone => by rw [hnone]; rfl, id, rfl, rfl⟩

/-- The presence bits behind the marker are read, or refused, and the reader stays settled. -/
theorem settling_openExtensions : Settling openExtensions := by
  refine settling_position.bind fun header => settling_get_bind fun r => settling_ite ?_ ?_
  · refine (settling_of_linked fun h => h.unpackSmall).bind fun last => (settling_of_linked fun h => h.ahead).bind fun _ => ?_
    refine settling_ite ((settling_throw _).bind fun _ => ?_) ?_ <;>
    · refine settling_position.bind fun start => (settling_skip _).bind fun _ => (settling_enterExtensions _ _).bind fun _ => ?_
      exact settling_get_bind fun _ => settling_note _ _
  · exact (settling_enterExtensions _ _).bind fun _ => settling_note _ _

/-- The next presence bit is reached, behind the marker too, and the reader stays settled. -/
theorem settling_reachSlot (optional : Bool) : Settling (reachSlot optional) := by
  refine (settling_visitSlot optional).bind fun step => ?_
  cases step with
  | openExtensions => exact settling_openExtensions.bind fun _ => settling_visitSlot optional
  | _ => exact settling_pure _

/-- A place among the fields is claimed for the value to come, and not for the reader. -/
theorem settling_claimSlot (optional : Bool) : Settling (claimSlot optional) := by
  refine (settling_reachSlot optional).bind fun step => ?_
  cases step with
  | marked position openType => exact (settling_peek position).bind fun _ => settling_pure _
  | _ => exact settling_pure _

/-- A claim that is taken up is given up. -/
theorem settling_enterField : Settling enterField := by
  refine settling_get_bind fun r => ?_
  cases r.claimed with
  | some openType =>
    refine Settling.bind (settling_modify fun _ => ?_) fun _ => settling_pure openType
    exact ⟨.refl _, id, fun _ => rfl, rfl, rfl⟩
  | none => exact (settling_claimSlot false).bind fun _ => settling_ite (settling_pure _) (settling_throw _)

/-! ## What is put back -/

section Contents

variable {content : ReaderM α} (h : Settling content)

include h

/-- A content that is read from other bits leaves the cursor where it was. -/
theorem settling_withView (view : BitView) : Settling (withView view content) :=
  settling_between (fun r => { r with view := view }) (fun r r' => { r' with view := r.view }) h
    fun _ _ hs => ⟨.refl _, hs.presence, hs.claimed, hs.marker, hs.depth⟩

/-- A content in a single chunk is read within its bits, and behind them the message goes on. -/
theorem settling_inChunk (octets : Nat) : Settling (inChunk octets content) := by
  refine settling_get_bind fun r => ?_
  cases r.view.part (octets * 8) with
  | error fault => exact settling_throw fault
  | ok part => exact (settling_withView h part).bind fun x => (settling_skip _).bind fun _ => settling_pure x

/-- The fragments are read from the message, and the content from what they make up. -/
theorem settling_inFragments (first : LengthDeterminant.Chunk) : Settling (inFragments first content) := by
  refine (settling_of_linked fun hl => hl.ahead).bind fun ahead => settling_maxLength.bind fun limit => ?_
  exact (settling_of_linked fun hl => hl.unpackFrom hl.unpackOctetChunk .free 8 limit 0 #[] first (ahead + 1)).bind
    fun _ => settling_withView h _

/-- An open type is left again, be it in one chunk or in fragments. -/
theorem settling_inOpenType : Settling (inOpenType content) := by
  refine settling_between (fun r => { r with presence := none })
    (fun r r' => { r' with presence := r.presence, marker := r.marker })
    ((settling_of_linked fun hl => hl.unpackLengthFree).bind fun chunk => (settling_note _ _).bind fun _ => ?_)
    fun _ _ hs => ⟨hs.view, id, hs.claimed, rfl, hs.depth⟩
  exact settling_ite (settling_inFragments h chunk) (settling_inChunk h chunk.units)

/-- A content leaves readers settled, in an open type or outside one. -/
theorem settling_withContent (openType : Bool) : Settling (withContent openType content) :=
  settling_ite (settling_inOpenType h) h

/-- A field leaves readers settled if its content does. -/
theorem settling_field : Settling (field content) :=
  settling_enterField.bind fun openType => settling_withContent h openType

/-- The depth is counted up and down again, unless there is no room. -/
theorem settling_container : Settling (container content) := by
  refine settling_enterField.bind fun openType => settling_get_bind fun r => ?_
  have hinner : Settling fun r => afterwards (fun r => { r with depth := r.depth - 1 }) (withContent openType content)
      { r with depth := r.depth + 1 } :=
    settling_between (fun r => { r with depth := r.depth + 1 }) (fun _ r' => { r' with depth := r'.depth - 1 })
      (settling_withContent h openType)
      fun r _ hs => ⟨hs.view, hs.presence, hs.claimed, hs.marker, congrArg (· - 1) hs.depth⟩
  exact settling_ite ((settling_throw _).bind fun _ => hinner) hinner

/-- Presence bits that are put in place for an action are taken back. -/
theorem settling_withPresence (presence : Option Presence) : Settling (withPresence presence content) :=
  settling_between (fun r => { r with presence := presence }) (fun r r' => { r' with presence := r.presence }) h
    fun _ _ hs => ⟨hs.view, id, hs.claimed, hs.marker, hs.depth⟩

/-- A marker that is put in place for an action is taken back. -/
theorem settling_withMarker (marker : Bool) : Settling (withMarker marker content) :=
  settling_between (fun r => { r with marker := marker }) (fun r r' => { r' with marker := r.marker }) h
    fun _ _ hs => ⟨hs.view, hs.presence, hs.claimed, rfl, hs.depth⟩

end Contents

/-! ## Fields and containers -/

/-- A field whose content goes by the greatest length. -/
theorem settling_limited {content : Option Nat → ReaderM α} (h : ∀ limit, Settling (content limit)) :
    Settling (field do content (← maxLength)) :=
  settling_field (settling_maxLength.bind h)

/-- The index of an enumeration or of a choice moves the cursor only. -/
theorem settling_index (c : Constraint) : Settling (index c) :=
  (settling_of_linked fun h => h.unpackIndex c.standardCount c.extensible).bind fun _ =>
    settling_ite ((settling_throw _).bind fun _ => settling_pure _) (settling_pure _)

/-- The extension marker moves the cursor only. -/
theorem settling_readMarker (c : Constraint) : Settling (readMarker c) :=
  settling_ite ((settling_of_linked fun h => h.bit).bind fun _ =>
    settling_ite ((settling_throw _).bind fun _ => settling_pure _) (settling_pure _)) (settling_pure _)

/-- Room for the presence bits moves the cursor only. -/
theorem settling_reserve (c : Constraint) : Settling (reserve c) :=
  settling_position.bind fun _ => (settling_skip _).bind fun _ => settling_pure _

/-- Entries that are not known are skipped onward. -/
theorem settling_skipExtensions (position count : Nat) : Settling (skipExtensions position count) := by
  induction count generalizing position with
  | zero => exact settling_pure ()
  | succ count ih =>
    refine (settling_peek position).bind fun present => settling_ite ?_ (ih (position + 1))
    exact ((settling_note _ _).bind fun _ => settling_of_linked fun h => h.skipOpenType).bind fun _ => ih (position + 1)

/-- What is left of the entries behind the marker is skipped onward. -/
theorem settling_skipRest : Settling skipRest := by
  refine settling_get_bind fun r => ?_
  cases r.presence with
  | none => exact settling_pure ()
  | some p => exact settling_ite (settling_skipExtensions _ _) (settling_pure ())

/-- A sequence is closed with its presence bits still in place. -/
theorem settling_closeSequence : Settling closeSequence := by
  refine settling_get_bind fun r => ?_
  cases r.presence with
  | none => exact settling_pure ()
  | some p =>
    exact settling_ite
      (settling_ite (settling_openExtensions.bind fun _ => settling_skipRest) (settling_pure ())) settling_skipRest

/-- A sequence leaves readers settled if its fields do. -/
theorem settling_sequence (c : Constraint) {fields : ReaderM α} (h : Settling fields) : Settling (sequence c fields) := by
  refine settling_container ((settling_note _ _).bind fun _ => (settling_readMarker c).bind fun marker =>
    (settling_reserve c).bind fun presence => ?_)
  refine settling_between id (fun _ => noted .basic fun () => "leave " ++ c.text)
    (settling_withMarker (settling_withPresence ?_ (some presence)) marker) fun _ r' hs => hs.trans (settles_noted _ _ r')
  exact h.bind fun x => settling_closeSequence.bind fun _ => settling_pure x

/-- The elements of a list, from some index on, leave readers settled if each of them does. -/
theorem settling_elements {element : Nat → ReaderM α} (h : ∀ index, Settling (element index)) (sofar : Array α) (count : Nat) :
    Settling (elements element sofar count) := by
  induction count generalizing sofar with
  | zero => exact settling_pure sofar
  | succ count ih => exact (h sofar.size).bind fun next => ih (sofar.push next)

/-- A list leaves readers settled if its elements do. -/
theorem settling_sequenceOf (c : Constraint) {element : Nat → ReaderM α} (h : ∀ index, Settling (element index)) :
    Settling (sequenceOf c element) :=
  settling_container ((settling_note _ _).bind fun _ => settling_withPresence
    (settling_maxLength.bind fun limit => settling_sized (settling_elements h) c.size c.extensible 0 limit #[]) none)

/-- A choice leaves readers settled if its payloads do. -/
theorem settling_choice (c : Constraint) {payload : UInt64 → ReaderM α} (h : ∀ index, Settling (payload index)) :
    Settling (choice c payload) :=
  settling_container ((settling_index c).bind fun alternative => (settling_note _ _).bind fun _ =>
    (settling_withPresence (settling_withContent (h alternative) _) none).bind fun _ => settling_pure _)

/-- The claim on the presence bit is given up, whatever becomes of the value. -/
theorem settling_opt {value : ReaderM α} (h : Settling value) : Settling (opt value) := by
  refine (settling_claimSlot true).bind fun slot => settling_ite ?_ (settling_pure none)
  exact settling_between (fun r => { r with claimed := some slot.2 }) (fun _ r' => { r' with claimed := none })
    (h.map some) fun _ _ hs => ⟨hs.view, hs.presence, fun _ => rfl, hs.marker, hs.depth⟩

/-! ## Scripts -/

/-- What a message is read with: fields, containers and optional fields, in any order and inside each other. An action may fail
at any point, and what follows may depend on what was read, on the place of reading and on the fault. -/
inductive Scripted : {α : Type} → ReaderM α → Prop
  /-- Reads nothing. -/
  | done {α : Type} (x : α) : Scripted (pure x)
  /-- Fails. -/
  | fail {α : Type} (fault : Fault) : Scripted (throw fault : ReaderM α)
  /-- Goes on when the first part succeeds. -/
  | next {α β : Type} {m : ReaderM α} {f : α → ReaderM β} (first : Scripted m) (rest : ∀ x, Scripted (f x)) :
      Scripted (m >>= f)
  /-- Goes on from a failure. -/
  | recover {α : Type} {m : ReaderM α} {handle : Fault → ReaderM α} (action : Scripted m)
      (rest : ∀ fault, Scripted (handle fault)) : Scripted (tryCatch m handle)
  /-- Records the end of a step. -/
  | recorded {α : Type} (path : String) {m : ReaderM α} (action : Scripted m) : Scripted (ReadStep.recorded path m)
  | position : Scripted position
  | remaining : Scripted (Unpacker.remaining : ReaderM Nat)
  | null : Scripted null
  | boolean : Scripted boolean
  | integer (c : Constraint) : Scripted (integer c)
  | enumerated (c : Constraint) : Scripted (enumerated c)
  | octetString (c : Constraint) : Scripted (octetString c)
  | bitString (c : Constraint) : Scripted (bitString c)
  | characterString (c : Constraint) : Scripted (characterString c)
  | sequence {α : Type} (c : Constraint) {fields : ReaderM α} (body : Scripted fields) : Scripted (sequence c fields)
  | sequenceOf {α : Type} (c : Constraint) {element : Nat → ReaderM α} (body : ∀ index, Scripted (element index)) :
      Scripted (sequenceOf c element)
  | choice {α : Type} (c : Constraint) {payload : UInt64 → ReaderM α} (body : ∀ index, Scripted (payload index)) :
      Scripted (choice c payload)
  | opt {α : Type} {value : ReaderM α} (body : Scripted value) : Scripted (opt value)

/-- A function of what a script gives is a script. -/
theorem Scripted.map {m : ReaderM α} (h : Scripted m) (f : α → β) : Scripted (f <$> m) := by
  rw [map_eq_pure_bind]
  exact .next h fun x => .done (f x)

/-- What is recorded is not looked at. -/
theorem settling_recorded (path : String) {m : ReaderM α} (h : Settling m) : Settling (ReadStep.recorded path m) := by
  intro r
  have hm := h r
  unfold outcome ReadStep.recorded at *
  cases hr : m r with
  | ok x r' =>
    rw [hr] at hm
    exact ⟨hm.view, hm.presence, hm.claimed, hm.marker, hm.depth⟩
  | error fault r' =>
    rw [hr] at hm
    exact ⟨hm.view, hm.presence, hm.claimed, hm.marker, hm.depth⟩

/-- A scripted action leaves every reader settled. -/
theorem settling_of_scripted {m : ReaderM α} (h : Scripted m) : Settling m := by
  induction h with
  | done x => exact settling_pure x
  | fail fault => exact settling_throw fault
  | next _ _ ih ih' => exact ih.bind ih'
  | recover _ _ ih ih' => exact settling_tryCatch ih ih'
  | recorded path _ ih => exact settling_recorded path ih
  | position => exact settling_position
  | remaining => exact settling_of_linked fun h => h.ahead
  | null => exact settling_field (settling_pure ())
  | boolean => exact settling_field (settling_of_linked fun h => h.bit)
  | integer c => exact settling_field (settling_of_linked fun h => h.unpackInteger c.bounds c.extensible)
  | enumerated c => exact settling_field (settling_index c)
  | octetString c => exact settling_limited fun limit => settling_of_linked fun h => h.unpackOctets c.size c.extensible limit
  | bitString c => exact settling_limited fun limit => settling_of_linked fun h => h.unpackBits c.size c.extensible limit
  | characterString c =>
    exact settling_limited fun limit => settling_of_linked fun h => h.unpackText c.alphabet c.size c.extensible limit
  | sequence c _ ih => exact settling_sequence c ih
  | sequenceOf c _ ih => exact settling_sequenceOf c ih
  | choice c _ ih => exact settling_choice c ih
  | opt _ ih => exact settling_opt ih

end Reader

namespace ReadStep

open Reader (Scripted)

mutual

/-- The steps that are listed in a script are scripted. -/
theorem scripted_run (path : String) : ∀ step : ReadStep, Scripted (run path step)
  | .null => .recorded path (.next .null fun _ => .done _)
  | .boolean => .recorded path (Scripted.boolean.map _)
  | .integer c => .recorded path ((Scripted.integer c).map _)
  | .enumerated c => .recorded path ((Scripted.enumerated c).map _)
  | .octets c => .recorded path ((Scripted.octetString c).map _)
  | .bits c => .recorded path ((Scripted.bitString c).map _)
  | .text c => .recorded path ((Scripted.characterString c).map _)
  | .sequence c body => .recorded path ((Scripted.sequence c (scripted_runBody path 0 body)).map _)
  | .sequenceOf c body =>
    .recorded path (.next (.sequenceOf c fun index => scripted_runBody (elementPath path index) 0 body) fun _ => .done _)
  | .choice c bodies =>
    .recorded path (.next (.choice c fun index => scripted_runAlternative path index.toNat bodies) fun _ => .done _)
  | .opt body => .recorded path ((Scripted.opt (scripted_runBody path 0 body)).map _)
  | .fail reason => .recorded path (.fail (.unsupported reason))

/-- The steps of a body, from some index on, are a script. -/
theorem scripted_runBody (path : String) (index : Nat) : ∀ steps : List ReadStep, Scripted (runBody path index steps)
  | [] => .done _
  | step :: rest => .next (scripted_run _ step) fun _ => .next (scripted_runBody path (index + 1) rest) fun _ => .done _

/-- The body of the alternative that was found is a script. -/
theorem scripted_runAlternative (path : String) (index : Nat) :
    ∀ bodies : List (List ReadStep), Scripted (runAlternative path index bodies)
  | [] => .done _
  | body :: bodies =>
    match index with
    | 0 => scripted_runBody path 0 body
    | index + 1 => scripted_runAlternative path index bodies

end

end ReadStep

namespace Reader

/-! ## Calls in a row -/

/-- The reader after some calls in a row, whatever they came to. -/
def afterCalls (calls : List (ReaderM Unit)) (r : Reader) : Reader :=
  calls.foldl (fun r call => (outcome call r).2) r

/-- Between two calls: in no sequence, at no claimed field, in no container, and within the first `bits` bits of some octets. -/
structure Idle (octets : Octets) (bits : Nat) (r : Reader) : Prop where
  /-- No presence bits are in use. -/
  presence : r.presence = none
  /-- No field is claimed. -/
  claimed : r.claimed = none
  /-- The extension marker is not set. -/
  marker : r.marker = false
  /-- No container is open. -/
  depth : r.depth = 0
  /-- The octets themselves are read, and not a part of them that was put together. -/
  data : r.view.data = octets
  /-- The bits end where they ended. -/
  stop : r.view.stop = bits
  /-- The cursor stands within them. -/
  within : r.view.position ≤ bits

/-- A reader that was just made is idle. -/
theorem idle_ofView (data : Octets) (length : Nat) (settings : Settings) :
    (ofView (.ofOctets data length) settings).Idle data (min length (data.size * 8)) :=
  ⟨rfl, rfl, rfl, rfl, rfl, rfl, Nat.zero_le _⟩

/-- What leaves an idle reader settled leaves it idle. -/
theorem Idle.settles {octets : Octets} {bits : Nat} {r r' : Reader} (h : r.Idle octets bits) (hs : r.Settles r') :
    r'.Idle octets bits where
  presence := hs.presence h.presence
  claimed := hs.claimed h.claimed
  marker := hs.marker.trans h.marker
  depth := hs.depth.trans h.depth
  data := hs.view.data.trans h.data
  stop := hs.view.stop.trans h.stop
  within := by
    rw [← h.stop, ← hs.view.stop]
    exact hs.view.within (by rw [h.stop]; exact h.within)

/-- A reader is idle after any calls in a row, if it was idle before them. -/
theorem Idle.afterCalls {octets : Octets} {bits : Nat} {r : Reader} {calls : List (ReaderM Unit)} (h : r.Idle octets bits)
    (hcalls : ∀ call ∈ calls, Scripted call) : (afterCalls calls r).Idle octets bits := by
  induction calls generalizing r with
  | nil => exact h
  | cons call calls ih =>
    have hcall := settling_of_scripted (hcalls call (List.mem_cons_self ..))
    exact ih (h.settles (hcall r)) fun other hm => hcalls other (List.mem_cons_of_mem _ hm)

/-- Whatever calls came before, and whatever a call comes to: no sequence, claim, marker or container is left behind, the message
is again the one that the reader was made for, with the same end, and the cursor stands within it, where it stood or further on. -/
theorem call_restores (data : Octets) (length : Nat) (settings : Settings) {before : List (ReaderM Unit)} {call : ReaderM α}
    (hbefore : ∀ other ∈ before, Scripted other) (hcall : Scripted call) :
    let r := afterCalls before (ofView (.ofOctets data length) settings)
    let r' := (outcome call r).2
    r'.Idle data (min length (data.size * 8)) ∧ r.view.position ≤ r'.view.position := by
  have hidle := (idle_ofView data length settings).afterCalls hbefore
  have hsettles := settling_of_scripted hcall (Reader.afterCalls before (ofView (.ofOctets data length) settings))
  exact ⟨hidle.settles hsettles, hsettles.view.position⟩

/-- A sequence of a truth value and of an optional number of 16 bits, which is an extension. -/
def briefing : ReaderM (Option Int64) :=
  sequence ⟨.sequence ⟨2, some 1⟩ 0, true⟩ (boolean >>= fun _ => opt (integer ⟨.simple (.integer (.between 0 65535)), false⟩))

/-- The open type of the extension holds one octet, so that the number is not found in it. The cursor stays before that octet, and
the next call reads on from there, in the message and not in the open type. -/
theorem call_restores_failure :
    let message : Octets := #[0xC0, 0x40, 0x7F, 0xC0]
    let start := ofView (.ofOctets message 32) .standard
    let r := afterCalls [briefing >>= fun _ => pure ()] start
    let r' := (outcome boolean r).2
    (outcome briefing start).1.toOption = none ∧ r.view.position = 18 ∧ r'.view.position = 19 ∧ r'.Idle message 32 ∧
      r.view.position ≤ r'.view.position :=
  ⟨by decide +kernel, by decide +kernel, by decide +kernel, call_restores #[0xC0, 0x40, 0x7F, 0xC0] 32 .standard
    (fun other hm => List.mem_singleton.mp hm ▸
      .next (.sequence _ (.next .boolean fun _ => .opt (.integer _))) fun _ => .done ())
    .boolean⟩

end Reader

end UnalignedPer
