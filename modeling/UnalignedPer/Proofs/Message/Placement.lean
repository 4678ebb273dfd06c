import UnalignedPer.Proofs.Message.LocalityContainers
import UnalignedPer.Proofs.Message.Restoration
import UnalignedPer.Proofs.Message.Shifting

/-!
# Reading somewhere else

The same bits may stand at another place of other octets: in the middle of a message, in the part of it that is an open type, or
alone in octets that were put together from fragments. `Reader.Shifted` relates a reader to one that stands in the same bits, a
distance further back; its presence bits lie further back by as much. A read that does not ask for its place comes to the same
result or to the same fault on both (`Reader.Portable`). This goes for all that a message is read with except the place itself
(`Reader.Placeless`, `Reader.portable_of_placeless`), thus for every type and every script.

Only what is traced and recorded tells the two apart.
-/

namespace UnalignedPer

/-- `w` looks at the bits that `v` looks at, a distance further back. -/
structure BitView.Shifted (distance : Nat) (v w : BitView) : Prop where
  /-- The cursor stands further back. -/
  position : w.position = distance + v.position
  /-- The bits end further back. -/
  stop : w.stop = distance + v.stop
  /-- The cursor stands within the bits. -/
  within : v.position ≤ v.stop
  /-- The bits are the same, those behind the cursor as well. -/
  bits : ∀ q, q < v.stop → Octets.getBit w.data (distance + q) = Octets.getBit v.data q

namespace BitView

variable {distance : Nat} {v w : BitView}

/-- As many bits are ahead. -/
theorem Shifted.remaining (h : Shifted distance v w) : v.remaining = w.remaining := by
  simp only [BitView.remaining, h.position, h.stop]
  omega

/-- The same octets lie at no distance. -/
theorem shifted_ofOctets (data : Octets) (length : Nat) : Shifted 0 (ofOctets data length) (ofOctets data length) :=
  ⟨(Nat.zero_add _).symm, (Nat.zero_add _).symm, Nat.zero_le _, fun _ _ => by rw [Nat.zero_add]⟩

/-- Both cursors move. -/
theorem Shifted.move (h : Shifted distance v w) {length : Nat} (hl : length ≤ v.remaining) :
    Shifted distance { v with position := v.position + length } { w with position := w.position + length } where
  position := by
    show w.position + length = distance + (v.position + length)
    rw [h.position, Nat.add_assoc]
  stop := h.stop
  within := by
    have := h.within
    simp only [BitView.remaining] at hl
    show v.position + length ≤ v.stop
    omega
  bits := h.bits

/-- Both views are cut off. -/
theorem Shifted.part (h : Shifted distance v w) {length : Nat} (hl : length ≤ v.remaining) :
    Shifted distance { v with stop := v.position + length } { w with stop := w.position + length } where
  position := h.position
  stop := by
    show w.position + length = distance + (v.position + length)
    rw [h.position, Nat.add_assoc]
  within := Nat.le_add_right _ _
  bits q hq := by
    have hq' : q < v.position + length := hq
    have := h.within
    simp only [BitView.remaining] at hl
    exact h.bits q (by omega)

/-- The same bits are copied. -/
theorem Shifted.copyBits_eq (h : Shifted distance v w) (dst : Octets) (offset : Nat) {length : Nat} (hl : length ≤ v.remaining) :
    Octets.copyBits dst offset v.data v.position length = Octets.copyBits dst offset w.data w.position length := by
  have hw := h.within
  simp only [BitView.remaining] at hl
  apply Octets.ext_bits (by rw [Octets.size_copyBits, Octets.size_copyBits])
  intro q _
  rw [Octets.getBit_copyBits, Octets.getBit_copyBits]
  split
  · rw [h.position, Nat.add_assoc, h.bits _ (by omega)]
  · rfl

/-- A bit is read in step, wherever it stands. -/
theorem inStep_readBit : InStep (Shifted distance) readBit readBit := by
  intro v w h
  have hstop := h.stop
  have hposition := h.position
  by_cases hlt : v.position < v.stop
  · have hbit : Octets.getBit w.data w.position = Octets.getBit v.data v.position := by rw [hposition, h.bits _ hlt]
    exact inStep_ok (if_pos hlt) (by rw [readBit, if_pos (by omega), hbit]) (h.move (by simp only [BitView.remaining]; omega))
  · exact inStep_error (if_neg hlt) (if_neg (by omega)) h

/-- A run of bits is read in step, wherever it stands. -/
theorem inStep_readInto (dst : Octets) (offset length : Nat) :
    InStep (Shifted distance) (readInto dst offset length) (readInto dst offset length) := by
  intro v w h
  have hremaining := h.remaining
  by_cases hl : length > v.remaining
  · exact inStep_error (if_pos hl) (if_pos (by omega)) h
  · refine inStep_ok (if_neg hl) ?_ (h.move (by omega))
    rw [readInto, if_neg (by omega), h.copyBits_eq dst offset (by omega)]

end BitView

namespace Reader

/-- `t` stands where `r` stands, in bits that lie a distance further back. -/
structure Shifted (distance : Nat) (r t : Reader) : Prop where
  /-- The bits are the same. -/
  view : BitView.Shifted distance r.view t.view
  /-- The presence bits lie further back. -/
  presence : t.presence = r.presence.map (Presence.moved distance)
  /-- The same field is claimed, if one is. -/
  claimed : t.claimed = r.claimed
  /-- The extension marker is the same. -/
  marker : t.marker = r.marker
  /-- As many containers lie around the place of reading. -/
  depth : t.depth = r.depth
  /-- The settings are the same. -/
  settings : t.settings = r.settings

variable {α β : Type} {distance : Nat}

/-- An action comes to the same wherever its bits stand. -/
def Portable (m : ReaderM α) : Prop :=
  ∀ distance, InStep (Shifted distance) m m

namespace Shifted

variable {r t : Reader} (h : Shifted distance r t)

include h

/-- Only the cursors have moved. -/
theorem of_view {v w : BitView} (hv : BitView.Shifted distance v w) : Shifted distance { r with view := v } { t with view := w } :=
  ⟨hv, h.presence, h.claimed, h.marker, h.depth, h.settings⟩

/-- Other presence bits, which lie further back by as much. -/
theorem of_presence {p q : Option Presence} (hp : q = p.map (Presence.moved distance)) :
    Shifted distance { r with presence := p } { t with presence := q } :=
  ⟨h.view, hp, h.claimed, h.marker, h.depth, h.settings⟩

/-- Both readers claim the same field. -/
theorem of_claimed (claimed : Option Bool) : Shifted distance { r with claimed := claimed } { t with claimed := claimed } :=
  ⟨h.view, h.presence, rfl, h.marker, h.depth, h.settings⟩

/-- Both readers come under the same marker. -/
theorem of_marker {marker marker' : Bool} (hm : marker' = marker) :
    Shifted distance { r with marker := marker } { t with marker := marker' } :=
  ⟨h.view, h.presence, h.claimed, hm, h.depth, h.settings⟩

/-- Both readers come to another depth by the same change. -/
theorem of_depth (change : Nat → Nat) :
    Shifted distance { r with depth := change r.depth } { t with depth := change t.depth } :=
  ⟨h.view, h.presence, h.claimed, h.marker, congrArg change h.depth, h.settings⟩

/-- What was recorded does not count. -/
theorem of_steps (steps steps' : Array ReadRecord) : Shifted distance { r with steps := steps } { t with steps := steps' } :=
  ⟨h.view, h.presence, h.claimed, h.marker, h.depth, h.settings⟩

end Shifted

/-! ## How the statements chain -/

/-- Actions whose results differ in place, and what goes by the results. -/
theorem inStep_bind_map {σ τ : Type} {R : σ → τ → Prop} {m : EStateM Fault σ α} {m' : EStateM Fault τ α} {g : α → α}
    {f : α → EStateM Fault σ β} {f' : α → EStateM Fault τ β} (h : InStep R (g <$> m) m')
    (h' : ∀ x, InStep R (f x) (f' (g x))) : InStep R (m >>= f) (m' >>= f') := by
  intro s t hr
  have hm := h.cases hr
  simp only [run_map] at hm
  unfold outcome
  rw [run_bind, run_bind]
  cases hs : m s with
  | ok x s1 =>
    simp only [hs] at hm
    rcases hm with ⟨y, s', t', heq, ht, hr'⟩ | ⟨fault, s', t', heq, -⟩
    · cases heq
      rw [ht]
      exact h' x hr'
    · cases heq
  | error fault s1 =>
    simp only [hs] at hm
    rcases hm with ⟨y, s', t', heq, -⟩ | ⟨fault', s', t', heq, ht, hr'⟩
    · cases heq
    · cases heq
      rw [ht]
      exact ⟨rfl, hr'⟩

/-- What follows the states may go by all of them. -/
theorem inStep_get_bind {R : Reader → Reader → Prop} {f f' : Reader → ReaderM β} (h : ∀ r t, R r t → InStep R (f r) (f' t)) :
    InStep R (get >>= f) (get >>= f') :=
  fun r t hr => h r t hr hr

/-- A change that both readers bear keeps them in step. -/
theorem inStep_modify {change change' : Reader → Reader}
    (h : ∀ r t, Shifted distance r t → Shifted distance (change r) (change' t)) :
    InStep (Shifted distance) (modify change : ReaderM Unit) (modify change') :=
  fun r t hr => ⟨rfl, h r t hr⟩

/-- A look at what does not depend on the place. -/
theorem inStep_look {look : Reader → α} (h : ∀ r t, Shifted distance r t → look r = look t) :
    InStep (Shifted distance) (look <$> get : ReaderM α) (look <$> get) :=
  fun r t hr => ⟨congrArg Except.ok (h r t hr), hr⟩

/-- From states that belong together in one way the actions come to the same and leave states that belong together in another. -/
def LeadsTo (R S : Reader → Reader → Prop) (m m' : ReaderM α) : Prop :=
  ∀ ⦃r t⦄, R r t → (outcome m r).1 = (outcome m' t).1 ∧ S (outcome m r).2 (outcome m' t).2

variable {P Q R S T : Reader → Reader → Prop}

/-- One action after another leads on from where the first one leads, and the first one's failures have to lead there as
well. -/
theorem LeadsTo.bind {m m' : ReaderM α} {f f' : α → ReaderM β} (h : LeadsTo R S m m') (hs : ∀ r t, S r t → T r t)
    (h' : ∀ x, LeadsTo S T (f x) (f' x)) : LeadsTo R T (m >>= f) (m' >>= f') := by
  intro r t hr
  obtain ⟨hresult, hrel⟩ := h hr
  rcases cases_of_outcome hresult with ⟨x, hm, hm'⟩ | ⟨fault, hm, hm'⟩
  · have hrest := h' x hrel
    unfold outcome at hrest ⊢
    rw [run_bind, run_bind, hm, hm']
    exact hrest
  · have hfail : (m >>= f) r = .error fault (outcome m r).2 := by rw [run_bind, hm]
    have hfail' : (m' >>= f') t = .error fault (outcome m' t).2 := by rw [run_bind, hm']
    rw [outcome_error hfail, outcome_error hfail']
    exact ⟨rfl, hs _ _ hrel⟩

/-- A choice between actions that lead to the same. -/
theorem leadsTo_ite {c : Prop} [Decidable c] {m m' n n' : ReaderM α} (h : LeadsTo R S m m') (h' : LeadsTo R S n n') :
    LeadsTo R S (if c then m else n) (if c then m' else n') := by
  split
  · exact h
  · exact h'

/-- Actions after a change of the states, and another change after them, be they successful or not. -/
theorem leadsTo_between {m m' : ReaderM α} (enter enter' : Reader → Reader) (leave leave' : Reader → Reader → Reader)
    (h : LeadsTo P Q m m') (he : ∀ r t, R r t → P (enter r) (enter' t))
    (hl : ∀ r t r' t', R r t → Q r' t' → S (leave r r') (leave' t t')) :
    LeadsTo R S (fun r => afterwards (leave r) m (enter r)) (fun t => afterwards (leave' t) m' (enter' t)) := by
  intro r t hr
  have hm := h (he r t hr)
  change (outcome (afterwards (leave r) m) (enter r)).1 = (outcome (afterwards (leave' t) m') (enter' t)).1
    ∧ S (outcome (afterwards (leave r) m) (enter r)).2 (outcome (afterwards (leave' t) m') (enter' t)).2
  rw [outcome_afterwards, outcome_afterwards]
  exact ⟨hm.1, hl r t _ _ hr hm.2⟩

/-- Actions that go on from the same failure. -/
theorem inStep_tryCatch {m : ReaderM α} {handle : Fault → ReaderM α} (h : InStep R m m)
    (h' : ∀ fault, InStep R (handle fault) (handle fault)) : InStep R (tryCatch m handle) (tryCatch m handle) := by
  intro r t hr
  change (outcome (EStateM.tryCatch m handle) r).1 = (outcome (EStateM.tryCatch m handle) t).1
    ∧ R (outcome (EStateM.tryCatch m handle) r).2 (outcome (EStateM.tryCatch m handle) t).2
  rcases h.cases hr with ⟨x, r', t', hm, hm', hr'⟩ | ⟨fault, r', t', hm, hm', hr'⟩
  · exact inStep_ok (x := x) (by simp only [EStateM.tryCatch, hm]) (by simp only [EStateM.tryCatch, hm']) hr'
  · have hhandle := h' fault hr'
    unfold outcome EStateM.tryCatch at *
    rw [hm, hm']
    exact hhandle

/-! ## Bits and contents -/

/-- Readers that belong together by their bits, and by what does not depend on them. -/
structure ByView (distance : Nat) (R : Reader → Reader → Prop) : Prop where
  /-- The bits are the same. -/
  view : ∀ r t, R r t → BitView.Shifted distance r.view t.view
  /-- Other bits will do. -/
  of_view : ∀ r t v w, R r t → BitView.Shifted distance v w → R { r with view := v } { t with view := w }

/-- Readers in the same bits belong together by their bits. -/
theorem byView_shifted : ByView distance (Shifted distance) :=
  ⟨fun _ _ h => h.view, fun _ _ _ _ h hv => h.of_view hv⟩

/-- A step of the view. -/
theorem ByView.onView (h : ByView distance R) {action : EStateM Fault BitView α}
    (ha : InStep (BitView.Shifted distance) action action) : InStep R (onView action) (onView action) := by
  intro r t hr
  rcases ha.cases (h.view r t hr) with ⟨x, v, w, hm, hm', hv⟩ | ⟨fault, v, w, hm, hm', hv⟩
  · exact inStep_ok (x := x) (by simp only [Reader.onView, hm]) (by simp only [Reader.onView, hm']) (h.of_view r t v w hr hv)
  · have hfail : Reader.onView action r = .error fault { r with view := v } := by simp only [Reader.onView, hm]
    have hfail' : Reader.onView action t = .error fault { t with view := w } := by simp only [Reader.onView, hm']
    exact inStep_error hfail hfail' (h.of_view r t v w hr hv)

/-- The bits ahead are read in step. -/
theorem ByView.linked (h : ByView distance R) : Linked R where
  remaining r t hr := (h.view r t hr).remaining
  readBit := h.onView BitView.inStep_readBit
  readInto dst offset length := h.onView (BitView.inStep_readInto dst offset length)

/-- Bits are skipped in step, or there are too few on both sides. -/
theorem ByView.skip (h : ByView distance R) (length : Nat) : InStep R (skip length) (skip length) := by
  intro r t hr
  have hv := h.view r t hr
  have hremaining := hv.remaining
  by_cases hl : length > r.view.remaining
  · have hfail : Reader.skip length r = .error .endOfStream r := by simp only [Reader.skip, BitView.skip, if_pos hl]
    have hfail' : Reader.skip length t = .error .endOfStream t := by
      simp only [Reader.skip, BitView.skip, if_pos (show length > t.view.remaining by omega)]
    exact inStep_error hfail hfail' hr
  · have hmove : Reader.skip length r = .ok () { r with view := { r.view with position := r.view.position + length } } := by
      simp only [Reader.skip, BitView.skip, if_neg hl]
    have hmove' : Reader.skip length t = .ok () { t with view := { t.view with position := t.view.position + length } } := by
      simp only [Reader.skip, BitView.skip, if_neg (show ¬length > t.view.remaining by omega)]
    exact inStep_ok hmove hmove' (h.of_view r t _ _ hr (hv.move (Nat.le_of_not_lt hl)))

/-- What is read from the bits ahead alone. -/
theorem portable_of_linked {m : ReaderM α} (h : ∀ {R : Reader → Reader → Prop}, Linked R → InStep R m m) : Portable m :=
  fun _ => h byView_shifted.linked

/-! ## Small steps -/

/-- A result alone comes to the same anywhere. -/
theorem portable_pure (x : α) : Portable (pure x) :=
  fun _ => inStep_pure x

/-- A failure comes to the same anywhere. -/
theorem portable_throw (fault : Fault) : Portable (throw fault : ReaderM α) :=
  fun _ => inStep_throw fault

/-- Actions that come to the same anywhere do so one after the other. -/
theorem Portable.bind {m : ReaderM α} {f : α → ReaderM β} (h : Portable m) (h' : ∀ x, Portable (f x)) : Portable (m >>= f) :=
  fun distance => (h distance).bind fun x => h' x distance

/-- A function of a result that is the same anywhere. -/
theorem Portable.map {m : ReaderM α} (h : Portable m) (f : α → β) : Portable (f <$> m) :=
  fun distance => (h distance).map f

/-- A choice between actions that come to the same anywhere. -/
theorem portable_ite {c : Prop} [Decidable c] {m n : ReaderM α} (h : Portable m) (h' : Portable n) :
    Portable (if c then m else n) :=
  fun distance => inStep_ite (h distance) (h' distance)

/-- What is traced does not count. -/
theorem Shifted.noted {r t : Reader} (h : Shifted distance r t) (level : TraceLevel) (text text' : Unit → String) :
    Shifted distance (noted level text r) (noted level text' t) := by
  obtain ⟨trace, hr⟩ := noted_eq level text r
  obtain ⟨trace', ht⟩ := noted_eq level text' t
  rw [hr, ht]
  exact ⟨h.view, h.presence, h.claimed, h.marker, h.depth, h.settings⟩

/-- Traces may differ, as nothing goes by them. -/
theorem inStep_note (level : TraceLevel) (text text' : Unit → String) :
    InStep (Shifted distance) (note level text) (note level text') :=
  inStep_modify fun _ _ h => h.noted level text text'

/-- A trace is written anywhere. -/
theorem portable_note (level : TraceLevel) (text : Unit → String) : Portable (note level text) :=
  fun _ => inStep_note level text text

/-- The greatest length is the same anywhere. -/
theorem portable_maxLength : Portable maxLength :=
  fun _ => inStep_look fun _ _ h => congrArg (fun s : Settings => some s.maxLength.toNat) h.settings.symm

/-- The place lies further back. -/
theorem inStep_position : InStep (Shifted distance) ((distance + ·) <$> position) position :=
  fun _ _ h => ⟨congrArg Except.ok h.view.position.symm, h⟩

/-- A bit that lies further back. -/
theorem inStep_peek (place : Nat) : InStep (Shifted distance) (peek place) (peek (distance + place)) := by
  intro r t h
  have hstop := h.view.stop
  by_cases hlt : place < r.view.stop
  · have hbit : peek place r = .ok (Octets.getBit r.view.data place) r := by simp only [peek, BitView.peek, if_pos hlt]
    have hbit' : peek (distance + place) t = .ok (Octets.getBit r.view.data place) t := by
      simp only [peek, BitView.peek, if_pos (show distance + place < t.view.stop by omega), h.view.bits place hlt]
    exact inStep_ok hbit hbit' h
  · have hfail : peek place r = .error .endOfStream r := by simp only [peek, BitView.peek, if_neg hlt]
    have hfail' : peek (distance + place) t = .error .endOfStream t := by
      simp only [peek, BitView.peek, if_neg (show ¬distance + place < t.view.stop by omega)]
    exact inStep_error hfail hfail' h

/-! ## Presence bits -/

/-- A field is visited in the same way, and its bit lies further back. -/
theorem inStep_visitSlot (optional : Bool) :
    InStep (Shifted distance) (SlotStep.moved distance <$> visitSlot optional) (visitSlot optional) := by
  intro r t h
  have hp := h.presence
  have hset : ∀ p : Presence, Shifted distance { r with presence := some p } { t with presence := some (p.moved distance) } :=
    fun _ => h.of_presence rfl
  unfold outcome
  rw [run_map]
  unfold visitSlot
  cases hr : r.presence with
  | none =>
    rw [hr] at hp
    simp only [hp, Option.map_none]
    exact ⟨rfl, h⟩
  | some p =>
    rw [hr] at hp
    simp only [hp, Option.map_some, Presence.visit_moved]
    rcases p.visit optional with ⟨_ | step, p'⟩
    · exact ⟨rfl, hset p'⟩
    · exact ⟨rfl, hset p'⟩

/-- The presence bits behind the marker are taken over at their place, which is further back for the second reader. -/
theorem inStep_enterExtensions (header : Nat) (run : BitRange) :
    InStep (Shifted distance) (enterExtensions header run)
      (enterExtensions (distance + header) ⟨distance + run.start, distance + run.stop⟩) := by
  refine inStep_modify fun r t h => { h with presence := ?_ }
  change t.presence.map _ = (r.presence.map _).map _
  rw [h.presence, Option.map_map, Option.map_map]
  rfl

/-- The presence bits behind the marker are read, or refused, the same anywhere. -/
theorem portable_openExtensions : Portable openExtensions := by
  intro distance
  refine inStep_bind_map inStep_position fun header => inStep_get_bind fun r t h => ?_
  rw [h.marker]
  refine inStep_ite ?_ ((inStep_enterExtensions header ⟨header, header⟩).bind fun _ => inStep_note _ _ _)
  refine (byView_shifted.linked.unpackSmall).bind fun last => byView_shifted.linked.ahead.bind fun _ => ?_
  refine inStep_ite ((inStep_throw _).bind fun _ => ?_) ?_ <;>
  · refine inStep_bind_map inStep_position fun start => (byView_shifted.skip _).bind fun _ => ?_
    -- The block ends as much further back as it starts.
    rw [Nat.add_assoc]
    exact (inStep_enterExtensions header _).bind fun _ => inStep_get_bind fun _ _ _ => inStep_note _ _ _

/-- The next presence bit is reached in step, with its position further back for the second reader. -/
theorem inStep_reachSlot (optional : Bool) :
    InStep (Shifted distance) (SlotStep.moved distance <$> reachSlot optional) (reachSlot optional) := by
  unfold reachSlot
  rw [map_bind]
  refine inStep_bind_map (inStep_visitSlot optional) fun step => ?_
  cases step with
  | openExtensions =>
    rw [map_bind]
    exact (portable_openExtensions distance).bind fun _ => inStep_visitSlot optional
  | _ => exact inStep_pure _

/-- A place among the fields is claimed the same anywhere. -/
theorem portable_claimSlot (optional : Bool) : Portable (claimSlot optional) := by
  refine fun distance => inStep_bind_map (inStep_reachSlot optional) fun step => ?_
  cases step with
  | marked position openType => exact (inStep_peek position).bind fun _ => inStep_pure _
  | _ => exact inStep_pure _

/-- A field is entered the same anywhere, claimed or not. -/
theorem portable_enterField : Portable enterField := by
  refine fun distance => inStep_get_bind fun r t h => ?_
  rw [h.claimed]
  cases r.claimed with
  | some openType =>
    have hgive : InStep (Shifted distance) (modify fun r : Reader => { r with claimed := none } : ReaderM Unit)
        (modify fun t => { t with claimed := none }) :=
      inStep_modify fun _ _ h => h.of_claimed none
    exact hgive.bind fun _ => inStep_pure openType
  | none => exact (portable_claimSlot false distance).bind fun _ => inStep_ite (inStep_pure _) (inStep_throw _)

/-! ## Open types -/

/-- The readers stand in no sequence. -/
def Alone (distance : Nat) (r t : Reader) : Prop :=
  Shifted distance r t ∧ r.presence = none

/-- The presence bits do not count. -/
structure Beside (distance : Nat) (r t : Reader) : Prop where
  /-- The bits are the same. -/
  view : BitView.Shifted distance r.view t.view
  /-- The same field is claimed, if one is. -/
  claimed : t.claimed = r.claimed
  /-- As many containers lie around the place of reading. -/
  depth : t.depth = r.depth
  /-- The settings are the same. -/
  settings : t.settings = r.settings

/-- Readers in the same bits are so without a look at presence bits and marker. -/
theorem Shifted.beside {r t : Reader} (h : Shifted distance r t) : Beside distance r t :=
  ⟨h.view, h.claimed, h.depth, h.settings⟩

/-- Readers that leave their sequences for a while. -/
theorem Shifted.alone {r t : Reader} (h : Shifted distance r t) : Alone distance { r with presence := none } { t with presence := none } :=
  ⟨h.of_presence rfl, rfl⟩

/-- Readers that come back to their sequences. -/
theorem Shifted.back {r t r' t' : Reader} (h : Shifted distance r t) (h' : Beside distance r' t') :
    Shifted distance { r' with presence := r.presence, marker := r.marker } { t' with presence := t.presence, marker := t.marker } :=
  ⟨h'.view, h.presence, h'.claimed, h.marker, h'.depth, h'.settings⟩

/-- In the same octets the readers stand at no distance, and there are no presence bits yet. -/
theorem Alone.of_octets {r t : Reader} (h : Alone distance r t) (data : Octets) (length : Nat) :
    Shifted 0 { r with view := .ofOctets data length } { t with view := .ofOctets data length } where
  view := BitView.shifted_ofOctets data length
  presence := by
    show t.presence = r.presence.map _
    rw [h.1.presence, h.2]
    rfl
  claimed := h.1.claimed
  marker := h.1.marker
  depth := h.1.depth
  settings := h.1.settings

/-- Readers that come back from other octets. -/
theorem Shifted.out {r t r' t' : Reader} {n : Nat} (h : Shifted distance r t) (h' : Shifted n r' t') :
    Beside distance { r' with view := r.view } { t' with view := t.view } :=
  ⟨h.view, h'.claimed, h'.depth, h'.settings⟩

/-- Readers outside of sequences belong together by their bits. -/
theorem byView_alone : ByView distance (Alone distance) :=
  ⟨fun _ _ h => h.1.view, fun _ _ _ _ h hv => ⟨h.1.of_view hv, h.2⟩⟩

/-- A trace leaves readers outside of sequences. -/
theorem inStep_note_alone (level : TraceLevel) (text : Unit → String) :
    InStep (Alone distance) (note level text) (note level text) := by
  refine fun r t h => ⟨rfl, h.1.noted level text text, ?_⟩
  obtain ⟨trace, hr⟩ := noted_eq level text r
  change (noted level text r).presence = none
  rw [hr]
  exact h.2

section Contents

variable {content : ReaderM α} (h : Portable content)

include h

/-- A content in a single chunk comes to the same anywhere. -/
theorem portable_inChunk (octets : Nat) : Portable (inChunk octets content) := by
  intro distance r t hr
  have hview := hr.view
  have hremaining := hview.remaining
  unfold outcome
  rw [inChunk_run, inChunk_run]
  by_cases hl : octets * 8 > r.view.remaining
  · rw [if_pos hl, if_pos (show octets * 8 > t.view.remaining by omega)]
    exact ⟨rfl, hr⟩
  · rw [if_neg hl, if_neg (show ¬octets * 8 > t.view.remaining by omega)]
    have hmoved := hview.move (Nat.le_of_not_lt hl)
    rcases (h distance).cases (hr.of_view (hview.part (Nat.le_of_not_lt hl))) with
      ⟨x, r', t', hm, hm', hr'⟩ | ⟨fault, r', t', hm, hm', hr'⟩
    · rw [hm, hm']
      exact ⟨rfl, hr'.of_view hmoved⟩
    · rw [hm, hm']
      exact ⟨rfl, hr'.of_view hview⟩

/-- What the fragments make up is the same octets, which start at their first bit on both sides. -/
theorem leadsTo_inFragments (first : LengthDeterminant.Chunk) :
    LeadsTo (Alone distance) (Beside distance) (inFragments first content) (inFragments first content) := by
  have hl : Linked (Alone distance) := byView_alone.linked
  have hbeside : ∀ r t, Alone distance r t → Beside distance r t := fun _ _ h => h.1.beside
  have hlimit : InStep (Alone distance) maxLength maxLength :=
    fun r t hr => ⟨(portable_maxLength distance hr.1).1, hr⟩
  refine LeadsTo.bind hl.ahead hbeside fun ahead => LeadsTo.bind hlimit hbeside fun limit =>
    LeadsTo.bind (hl.unpackFrom hl.unpackOctetChunk .free 8 limit 0 #[] first (ahead + 1)) hbeside fun found => ?_
  exact leadsTo_between (fun r => { r with view := .ofOctets found.2 (found.2.size * 8) })
    (fun t => { t with view := .ofOctets found.2 (found.2.size * 8) }) (fun r r' => { r' with view := r.view })
    (fun t t' => { t' with view := t.view }) (h 0) (fun _ _ hr => hr.of_octets _ _) fun _ _ _ _ hr hr' => hr.1.out hr'

/-- An open type comes to the same anywhere, be it in one chunk or in fragments. -/
theorem portable_inOpenType : Portable (inOpenType content) := by
  intro distance
  have hbeside : ∀ r t, Alone distance r t → Beside distance r t := fun _ _ h => h.1.beside
  refine leadsTo_between (P := Alone distance) (Q := Beside distance) (fun r => { r with presence := none })
    (fun t => { t with presence := none }) (fun r r' => { r' with presence := r.presence, marker := r.marker })
    (fun t t' => { t' with presence := t.presence, marker := t.marker }) ?_ (fun _ _ hr => hr.alone) fun _ _ _ _ hr hr' => hr.back hr'
  refine LeadsTo.bind byView_alone.linked.unpackLengthFree hbeside fun chunk =>
    LeadsTo.bind (inStep_note_alone _ _) hbeside fun _ => leadsTo_ite (leadsTo_inFragments h chunk) ?_
  intro r t hr
  have hboth := portable_inChunk h chunk.units distance hr.1
  exact ⟨hboth.1, hboth.2.beside⟩

/-- A content comes to the same anywhere, in an open type or outside one. -/
theorem portable_withContent (openType : Bool) : Portable (withContent openType content) :=
  portable_ite (portable_inOpenType h) h

/-- A field comes to the same anywhere if its content does. -/
theorem portable_field : Portable (field content) :=
  portable_enterField.bind fun openType => portable_withContent h openType

/-- A container comes to the same anywhere if its content does. -/
theorem portable_container : Portable (container content) := by
  refine portable_enterField.bind fun openType distance => inStep_get_bind fun r t hr => ?_
  rw [hr.depth, hr.settings]
  have hinner : InStep (Shifted distance)
      (fun r => afterwards (fun r => { r with depth := r.depth - 1 }) (withContent openType content)
        { r with depth := r.depth + 1 })
      (fun r => afterwards (fun r => { r with depth := r.depth - 1 }) (withContent openType content)
        { r with depth := r.depth + 1 }) :=
    leadsTo_between (fun r => { r with depth := r.depth + 1 }) (fun t => { t with depth := t.depth + 1 })
      (fun _ r' => { r' with depth := r'.depth - 1 }) (fun _ t' => { t' with depth := t'.depth - 1 })
      (portable_withContent h openType distance) (fun _ _ hr => hr.of_depth (· + 1)) fun _ _ _ _ _ hr => hr.of_depth (· - 1)
  exact inStep_ite ((inStep_throw _).bind fun _ => hinner) hinner

/-- Presence bits are exchanged for others that lie further back. -/
theorem inStep_withPresence (presence : Option Presence) :
    InStep (Shifted distance) (withPresence presence content) (withPresence (presence.map (Presence.moved distance)) content) :=
  leadsTo_between (fun r => { r with presence := presence })
    (fun t => { t with presence := presence.map (Presence.moved distance) }) (fun r r' => { r' with presence := r.presence })
    (fun t t' => { t' with presence := t.presence }) (h distance) (fun _ _ hr => hr.of_presence rfl)
    fun _ _ _ _ hr hr' => hr'.of_presence hr.presence

end Contents

/-- A marker that is put in place for actions in step, and taken back, keeps them in step. -/
theorem inStep_withMarker {m m' : ReaderM α} (h : InStep (Shifted distance) m m') (marker : Bool) :
    InStep (Shifted distance) (withMarker marker m) (withMarker marker m') :=
  leadsTo_between (fun r => { r with marker := marker }) (fun t => { t with marker := marker })
    (fun r r' => { r' with marker := r.marker }) (fun t t' => { t' with marker := t.marker }) h
    (fun _ _ hr => hr.of_marker rfl) fun _ _ _ _ hr hr' => hr'.of_marker hr.marker

/-! ## Fields and containers -/

/-- The index of an enumeration or of a choice is the same anywhere. -/
theorem portable_index (c : Constraint) : Portable (index c) :=
  (portable_of_linked fun h => h.unpackIndex c.standardCount c.extensible).bind fun _ =>
    portable_ite ((portable_throw _).bind fun _ => portable_pure _) (portable_pure _)

/-- The extension marker is the same anywhere. -/
theorem portable_readMarker (c : Constraint) : Portable (readMarker c) :=
  portable_ite ((portable_of_linked fun h => h.bit).bind fun _ =>
    portable_ite ((portable_throw _).bind fun _ => portable_pure _) (portable_pure _)) (portable_pure _)

/-- The presence bits that are moved past lie further back. -/
theorem inStep_reserve (c : Constraint) :
    InStep (Shifted distance) (Presence.moved distance <$> reserve c) (reserve c) := by
  unfold reserve
  rw [map_bind]
  refine inStep_bind_map inStep_position fun start => ?_
  rw [map_bind]
  refine (byView_shifted.skip _).bind fun _ => ?_
  rw [map_pure]
  have hmoved := Presence.opening_moved distance start c
  unfold Presence.opening at hmoved
  rw [← hmoved]
  exact inStep_pure _

/-- Entries that are not known are skipped in step, from their presence bits further back for the second reader. -/
theorem inStep_skipExtensions (place count : Nat) :
    InStep (Shifted distance) (skipExtensions place count) (skipExtensions (distance + place) count) := by
  induction count generalizing place with
  | zero => exact inStep_pure ()
  | succ count ih =>
    refine (inStep_peek place).bind fun present => inStep_ite ?_ (ih (place + 1))
    exact ((inStep_note _ _ _).bind fun _ => byView_shifted.linked.skipOpenType).bind fun _ => ih (place + 1)

/-- What is left of the entries behind the marker is skipped the same anywhere. -/
theorem portable_skipRest : Portable skipRest := by
  refine fun distance => inStep_get_bind fun r t h => ?_
  rw [h.presence]
  cases r.presence with
  | none => exact inStep_pure ()
  | some p =>
    simp only [Option.map_some, Presence.moved, Option.isSome_map, Nat.add_sub_add_left]
    exact inStep_ite (inStep_skipExtensions _ _) (inStep_pure ())

/-- A sequence is closed the same anywhere. -/
theorem portable_closeSequence : Portable closeSequence := by
  refine fun distance => inStep_get_bind fun r t h => ?_
  rw [h.presence, h.marker]
  cases r.presence with
  | none => exact inStep_pure ()
  | some p =>
    exact inStep_ite
      (inStep_ite ((portable_openExtensions distance).bind fun _ => portable_skipRest distance) (inStep_pure ()))
      (portable_skipRest distance)

/-- A sequence comes to the same anywhere if its fields do. -/
theorem portable_sequence (c : Constraint) {fields : ReaderM α} (h : Portable fields) : Portable (sequence c fields) := by
  refine portable_container ((portable_note _ _).bind fun _ => (portable_readMarker c).bind fun marker distance => ?_)
  refine inStep_bind_map (inStep_reserve c) fun presence => ?_
  have hbody : Portable (fields >>= fun x => closeSequence >>= fun _ => pure x) :=
    h.bind fun x => portable_closeSequence.bind fun _ => portable_pure x
  exact leadsTo_between id id (fun _ => noted .basic fun () => "leave " ++ c.text)
    (fun _ => noted .basic fun () => "leave " ++ c.text)
    (inStep_withMarker (inStep_withPresence hbody (some presence)) marker) (fun _ _ hr => hr)
    fun _ _ _ _ _ hr => hr.noted _ _ _

/-- The elements of a list, from some index on, come to the same anywhere if each of them does. -/
theorem portable_elements {element : Nat → ReaderM α} (h : ∀ index, Portable (element index)) (sofar : Array α) (count : Nat) :
    Portable (elements element sofar count) := by
  induction count generalizing sofar with
  | zero => exact portable_pure sofar
  | succ count ih => exact (h sofar.size).bind fun next => ih (sofar.push next)

/-- A list comes to the same anywhere if its elements do. -/
theorem portable_sequenceOf (c : Constraint) {element : Nat → ReaderM α} (h : ∀ index, Portable (element index)) :
    Portable (sequenceOf c element) := by
  have hsized : ∀ limit, Portable (SizedContent.unpack c.size c.extensible 0 limit #[] (elements element)) :=
    fun limit distance =>
      byView_shifted.linked.unpackSized (fun sofar count => portable_elements h sofar count distance) c.size c.extensible 0
        limit #[]
  exact portable_container ((portable_note _ _).bind fun _ distance =>
    inStep_withPresence (portable_maxLength.bind hsized) none)

/-- A choice comes to the same anywhere if its payloads do. -/
theorem portable_choice (c : Constraint) {payload : UInt64 → ReaderM α} (h : ∀ index, Portable (payload index)) :
    Portable (choice c payload) :=
  portable_container ((portable_index c).bind fun alternative => (portable_note _ _).bind fun _ =>
    Portable.bind (fun _ => inStep_withPresence (portable_withContent (h alternative) _) none) fun _ => portable_pure _)

/-- An optional value comes to the same anywhere if the value does. -/
theorem portable_opt {value : ReaderM α} (h : Portable value) : Portable (opt value) := by
  refine (portable_claimSlot true).bind fun slot => portable_ite (fun distance => ?_) (portable_pure none)
  exact leadsTo_between (fun r => { r with claimed := some slot.2 }) (fun t => { t with claimed := some slot.2 })
    (fun _ r' => { r' with claimed := none }) (fun _ t' => { t' with claimed := none }) (h.map some distance)
    (fun _ _ hr => hr.of_claimed _) fun _ _ _ _ _ hr => hr.of_claimed none

/-- What is recorded is not looked at. -/
theorem portable_recorded (path : String) {m : ReaderM α} (h : Portable m) : Portable (ReadStep.recorded path m) := by
  intro distance r t hr
  rcases (h distance).cases hr with ⟨x, r', t', hm, hm', hr'⟩ | ⟨fault, r', t', hm, hm', hr'⟩
  · unfold outcome ReadStep.recorded
    rw [hm, hm']
    exact ⟨rfl, hr'.of_steps _ _⟩
  · unfold outcome ReadStep.recorded
    rw [hm, hm']
    exact ⟨rfl, hr'.of_steps _ _⟩

/-! ## What does not ask for its place -/

/-- What a message is read with, except that nothing goes by the place of reading: fields and containers whose contents come from
the bits ahead. An action may fail at any point, and what follows may depend on what was read and on the fault. -/
inductive Placeless : {α : Type} → ReaderM α → Prop
  /-- Reads nothing. -/
  | done {α : Type} (x : α) : Placeless (pure x)
  /-- Fails. -/
  | fail {α : Type} (fault : Fault) : Placeless (throw fault : ReaderM α)
  /-- Goes on when the first part succeeds. -/
  | next {α β : Type} {m : ReaderM α} {f : α → ReaderM β} (first : Placeless m) (rest : ∀ x, Placeless (f x)) :
      Placeless (m >>= f)
  /-- Goes on from a failure. -/
  | recover {α : Type} {m : ReaderM α} {handle : Fault → ReaderM α} (action : Placeless m)
      (rest : ∀ fault, Placeless (handle fault)) : Placeless (tryCatch m handle)
  /-- Records the end of a step. -/
  | recorded {α : Type} (path : String) {m : ReaderM α} (action : Placeless m) : Placeless (ReadStep.recorded path m)
  | maxLength : Placeless maxLength
  /-- Reads from the bits ahead, and goes by nothing else. -/
  | source {α : Type} {m : ReaderM α} (h : ∀ {R : Reader → Reader → Prop}, Linked R → InStep R m m) : Placeless m
  | field {α : Type} {content : ReaderM α} (body : Placeless content) : Placeless (field content)
  | sequence {α : Type} (c : Constraint) {fields : ReaderM α} (body : Placeless fields) : Placeless (sequence c fields)
  | sequenceOf {α : Type} (c : Constraint) {element : Nat → ReaderM α} (body : ∀ index, Placeless (element index)) :
      Placeless (sequenceOf c element)
  | choice {α : Type} (c : Constraint) {payload : UInt64 → ReaderM α} (body : ∀ index, Placeless (payload index)) :
      Placeless (choice c payload)
  | opt {α : Type} {value : ReaderM α} (body : Placeless value) : Placeless (opt value)

/-- What does not ask for its place comes to the same wherever its bits stand. -/
theorem portable_of_placeless {m : ReaderM α} (h : Placeless m) : Portable m := by
  induction h with
  | done x => exact portable_pure x
  | fail fault => exact portable_throw fault
  | next _ _ ih ih' => exact ih.bind ih'
  | recover _ _ ih ih' => exact fun distance => inStep_tryCatch (ih distance) fun fault => ih' fault distance
  | recorded path _ ih => exact portable_recorded path ih
  | maxLength => exact portable_maxLength
  | source h => exact portable_of_linked h
  | field _ ih => exact portable_field ih
  | sequence c _ ih => exact portable_sequence c ih
  | sequenceOf c _ ih => exact portable_sequenceOf c ih
  | choice c _ ih => exact portable_choice c ih
  | opt _ ih => exact portable_opt ih

namespace Placeless

/-- A function of the result asks for the place no more than the action does. -/
theorem map {m : ReaderM α} (h : Placeless m) (f : α → β) : Placeless (f <$> m) := by
  rw [map_eq_pure_bind]
  exact .next h fun x => .done (f x)

/-- Nothing is read of a null value. -/
theorem null : Placeless null :=
  .field (.done ())

/-- A truth value is a bit ahead. -/
theorem boolean : Placeless boolean :=
  .field (.source fun h => h.bit)

/-- An integer comes from the bits ahead. -/
theorem integer (c : Constraint) : Placeless (integer c) :=
  .field (.source fun h => h.unpackInteger c.bounds c.extensible)

/-- The index of an enumeration comes from the bits ahead, and has to be one of those declared. -/
theorem enumerated (c : Constraint) : Placeless (enumerated c) :=
  .field (.source fun h => (h.unpackIndex c.standardCount c.extensible).bind fun _ =>
    inStep_ite ((inStep_throw _).bind fun _ => inStep_pure _) (inStep_pure _))

/-- An octet string comes from the bits ahead, under the greatest length. -/
theorem octetString (c : Constraint) : Placeless (octetString c) :=
  .field (.next .maxLength fun limit => .source fun h => h.unpackOctets c.size c.extensible limit)

/-- A bit string comes from the bits ahead, under the greatest length. -/
theorem bitString (c : Constraint) : Placeless (bitString c) :=
  .field (.next .maxLength fun limit => .source fun h => h.unpackBits c.size c.extensible limit)

/-- A character string comes from the bits ahead, under the greatest length. -/
theorem characterString (c : Constraint) : Placeless (characterString c) :=
  .field (.next .maxLength fun limit => .source fun h => h.unpackText c.alphabet c.size c.extensible limit)

end Placeless

end Reader

/-! ## Types and scripts -/

open Reader (Placeless)

namespace Descriptor

/-- A value without parts does not ask for its place. -/
theorem placeless_readSimple (type : Descriptor) (plain : SimpleType) : Placeless (type.readSimple plain) := by
  cases plain with
  | null => exact .next .null fun _ => .done _
  | boolean => exact Placeless.boolean.map _
  | integer => exact (Placeless.integer _).map _
  | octetString => exact (Placeless.octetString _).map _
  | bitString => exact (Placeless.bitString _).map _
  | text => exact (Placeless.characterString _).map _

mutual

/-- A value of any type is read wherever its bits stand. -/
theorem placeless_read : ∀ type : Descriptor, Placeless type.read
  | .simple .. => placeless_readSimple _ _
  | .enumerated .. => .next (.enumerated _) fun _ => .done _
  | .sequence _ fields _ => .next (.sequence _ (placeless_readFields fields)) fun _ => .done _
  | .sequenceOf _ element _ _ => .next (.sequenceOf _ fun _ => (placeless_read element).map some) fun _ => .done _
  | .choice _ alternatives _ => .next (.choice _ fun index => placeless_readAlternative alternatives index.toNat) fun _ => .done _

/-- Fields do not ask for their place. -/
theorem placeless_readFields : ∀ fields : List (Field Descriptor), Placeless (readFields fields)
  | [] => .done _
  | ⟨_, true, type⟩ :: fields =>
    .next (.opt (placeless_read type)) fun _ => .next (placeless_readFields fields) fun _ => .done _
  | ⟨_, false, type⟩ :: fields =>
    .next ((placeless_read type).map some) fun _ => .next (placeless_readFields fields) fun _ => .done _

/-- The payload of an alternative does not ask for its place. -/
theorem placeless_readAlternative : ∀ (alternatives : List (String × Descriptor)) (index : Nat),
    Placeless (readAlternative alternatives index)
  | (_, type) :: _, 0 => (placeless_read type).map some
  | _ :: alternatives, index + 1 => placeless_readAlternative alternatives index
  | [], _ => .done _

end

end Descriptor

namespace ReadStep

mutual

/-- What a script reads it reads wherever the bits stand. -/
theorem placeless_run (path : String) : ∀ step : ReadStep, Placeless (run path step)
  | .null => .recorded path (.next .null fun _ => .done _)
  | .boolean => .recorded path (Placeless.boolean.map _)
  | .integer c => .recorded path ((Placeless.integer c).map _)
  | .enumerated c => .recorded path ((Placeless.enumerated c).map _)
  | .octets c => .recorded path ((Placeless.octetString c).map _)
  | .bits c => .recorded path ((Placeless.bitString c).map _)
  | .text c => .recorded path ((Placeless.characterString c).map _)
  | .sequence c body => .recorded path ((Placeless.sequence c (placeless_runBody path 0 body)).map _)
  | .sequenceOf c body =>
    .recorded path (.next (.sequenceOf c fun index => placeless_runBody (elementPath path index) 0 body) fun _ => .done _)
  | .choice c bodies =>
    .recorded path (.next (.choice c fun index => placeless_runAlternative path index.toNat bodies) fun _ => .done _)
  | .opt body => .recorded path ((Placeless.opt (placeless_runBody path 0 body)).map _)
  | .fail reason => .recorded path (.fail (.unsupported reason))

/-- The steps of a body, from some index on, do not ask for their place. -/
theorem placeless_runBody (path : String) (index : Nat) : ∀ steps : List ReadStep, Placeless (runBody path index steps)
  | [] => .done _
  | step :: rest => .next (placeless_run _ step) fun _ => .next (placeless_runBody path (index + 1) rest) fun _ => .done _

/-- The body of the alternative that was found does not ask for its place. -/
theorem placeless_runAlternative (path : String) (index : Nat) :
    ∀ bodies : List (List ReadStep), Placeless (runAlternative path index bodies)
  | [] => .done _
  | body :: bodies =>
    match index with
    | 0 => placeless_runBody path 0 body
    | index + 1 => placeless_runAlternative path index bodies

end

end ReadStep

end UnalignedPer
