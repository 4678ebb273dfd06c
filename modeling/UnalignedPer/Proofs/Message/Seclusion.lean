import UnalignedPer.Proofs.Message.Placement

/-!
# Reading out of sight of the rest

Two messages may have the same bits from a position on, up to the end of what a reader may look at, and different ones before it and
behind the end. Readers that stand in them (`Reader.Screened`) stand where a third one stands that has those bits alone. So whatever
does not ask for its place comes to the same on both (`Reader.secluded_of_portable`). The place is the same as well, and a script that
asks for it finds the same: `Reader.secluded_of_scripted` says that no script tells the two messages apart.

Presence bits are looked at behind the cursor. They are bits that were passed since the position where the two messages begin to
agree, which is what the reader with those bits alone stands for.
-/

namespace UnalignedPer

namespace Reader

variable {α β : Type} {first : Nat} {r t : Reader}

/-- A third reader belongs to both. -/
def Fork (R : Reader → Reader → Prop) (r t : Reader) : Prop :=
  ∃ origin, R origin r ∧ R origin t

/-- What `r` and `t` may look at is the same from position `first` on. -/
def Screened (first : Nat) (r t : Reader) : Prop :=
  Fork (Shifted first) r t

/-- An action does not tell apart what is the same from some position on. -/
def Secluded (m : ReaderM α) : Prop :=
  ∀ first, InStep (Screened first) m m

variable {R : Reader → Reader → Prop}

/-- A third reader that belongs to both in one way belongs to both in a weaker way. -/
theorem Fork.weaken {S : Reader → Reader → Prop} (h : Fork R r t) (h' : ∀ origin s, R origin s → S origin s) : Fork S r t := by
  obtain ⟨origin, hr, ht⟩ := h
  exact ⟨origin, h' origin r hr, h' origin t ht⟩

/-- Readers to which a third one belongs in a linked way are linked. -/
theorem linked_fork (h : Linked R) : Linked (Fork R) :=
  h.fork h

/-- What is in step with an action of the third reader is in step with itself on the two. -/
theorem inStep_fork {m m' : ReaderM α} (h : InStep R m' m) : InStep (Fork R) m m :=
  h.fork h

/-- What comes to the same wherever its bits stand. -/
theorem secluded_of_portable {m : ReaderM α} (h : Portable m) : Secluded m :=
  fun first => inStep_fork (h first)

/-- The place is the same. -/
theorem secluded_position : Secluded position :=
  fun _ => inStep_fork inStep_position

/-- What follows an action that tells nothing apart tells nothing apart. -/
theorem Secluded.bind {m : ReaderM α} {f : α → ReaderM β} (h : Secluded m) (h' : ∀ x, Secluded (f x)) : Secluded (m >>= f) :=
  fun first => (h first).bind fun x => h' x first

/-- A function of the result tells nothing more apart. -/
theorem Secluded.map {m : ReaderM α} (h : Secluded m) (f : α → β) : Secluded (f <$> m) :=
  fun first => (h first).map f

/-- A choice between actions that tell nothing apart. -/
theorem secluded_ite {c : Prop} [Decidable c] {m n : ReaderM α} (h : Secluded m) (h' : Secluded n) :
    Secluded (if c then m else n) :=
  fun first => inStep_ite (h first) (h' first)

/-- What goes by a result that lies further back than the position. -/
theorem inStep_screened_bind {m : ReaderM α} {f : α → ReaderM β} {g : α → α} (h : InStep (Shifted first) (g <$> m) m)
    (h' : ∀ x, InStep (Screened first) (f (g x)) (f (g x))) : InStep (Screened first) (m >>= f) (m >>= f) := by
  rintro r t ⟨origin, hr, ht⟩
  have hfirst := h.cases hr
  have hsecond := h.cases ht
  simp only [run_map] at hfirst hsecond
  unfold outcome
  rw [run_bind, run_bind]
  cases ho : m origin with
  | ok x origin' =>
    simp only [ho] at hfirst hsecond
    obtain ⟨_, _, r', heq, hm, hr'⟩ | ⟨_, _, _, heq, -⟩ := hfirst
    · cases heq
      obtain ⟨_, _, t', heq, hm', ht'⟩ | ⟨_, _, _, heq, -⟩ := hsecond
      · cases heq
        rw [hm, hm']
        exact h' x ⟨origin', hr', ht'⟩
      · cases heq
    · cases heq
  | error fault origin' =>
    simp only [ho] at hfirst hsecond
    obtain ⟨_, _, _, heq, -⟩ | ⟨_, _, r', heq, hm, hr'⟩ := hfirst
    · cases heq
    · cases heq
      obtain ⟨_, _, _, heq, -⟩ | ⟨_, _, t', heq, hm', ht'⟩ := hsecond
      · cases heq
      · cases heq
        rw [hm, hm']
        exact ⟨rfl, origin', hr', ht'⟩

/-! ## Open types and fields -/

section Contents

variable {content : ReaderM α} (h : Secluded content)

include h

/-- A content in a single chunk tells nothing apart. -/
theorem secluded_inChunk (octets : Nat) : Secluded (inChunk octets content) := by
  rintro first r t ⟨origin, hr, ht⟩
  have hremaining := hr.view.remaining
  have hremaining' := ht.view.remaining
  unfold outcome
  rw [inChunk_run, inChunk_run]
  by_cases hl : octets * 8 > origin.view.remaining
  · rw [if_pos (show octets * 8 > r.view.remaining by omega), if_pos (show octets * 8 > t.view.remaining by omega)]
    exact ⟨rfl, origin, hr, ht⟩
  · rw [if_neg (show ¬octets * 8 > r.view.remaining by omega), if_neg (show ¬octets * 8 > t.view.remaining by omega)]
    have hle := Nat.le_of_not_lt hl
    rcases (h first).cases ⟨_, hr.of_view (hr.view.part hle), ht.of_view (ht.view.part hle)⟩ with
      ⟨x, r', t', hm, hm', origin', hr', ht'⟩ | ⟨fault, r', t', hm, hm', origin', hr', ht'⟩
    · rw [hm, hm']
      exact ⟨rfl, _, hr'.of_view (hr.view.move hle), ht'.of_view (ht.view.move hle)⟩
    · rw [hm, hm']
      exact ⟨rfl, _, hr'.of_view hr.view, ht'.of_view ht.view⟩

/-- The fragments make up the same octets, and there is nothing around these. -/
theorem leadsTo_inFragments_fork (first : Nat) (chunk : LengthDeterminant.Chunk) :
    LeadsTo (Fork (Alone first)) (Fork (Beside first)) (inFragments chunk content) (inFragments chunk content) := by
  have hl : Linked (Fork (Alone first)) := linked_fork byView_alone.linked
  have hbeside : ∀ r t, Fork (Alone first) r t → Fork (Beside first) r t :=
    fun _ _ hrt => hrt.weaken fun _ _ h => h.1.beside
  have hlimit : InStep (Fork (Alone first)) maxLength maxLength := fun _ _ ⟨origin, hr, ht⟩ =>
    ⟨(portable_maxLength first hr.1).1.symm.trans (portable_maxLength first ht.1).1, origin, hr, ht⟩
  refine LeadsTo.bind hl.ahead hbeside fun ahead => LeadsTo.bind hlimit hbeside fun limit =>
    LeadsTo.bind (hl.unpackFrom hl.unpackOctetChunk .free 8 limit 0 #[] chunk (ahead + 1)) hbeside fun found => ?_
  exact leadsTo_between (fun r => { r with view := .ofOctets found.2 (found.2.size * 8) })
    (fun t => { t with view := .ofOctets found.2 (found.2.size * 8) }) (fun r r' => { r' with view := r.view })
    (fun t t' => { t' with view := t.view }) (h 0)
    (fun _ _ ⟨_, hr, ht⟩ => ⟨_, hr.of_octets _ _, ht.of_octets _ _⟩)
    fun _ _ _ _ ⟨_, hr, ht⟩ ⟨_, hr', ht'⟩ => ⟨_, hr.1.out hr', ht.1.out ht'⟩

/-- An open type tells nothing apart if its content does not. -/
theorem secluded_inOpenType : Secluded (inOpenType content) := by
  intro first
  have hl : Linked (Fork (Alone first)) := linked_fork byView_alone.linked
  have hbeside : ∀ r t, Fork (Alone first) r t → Fork (Beside first) r t :=
    fun _ _ hrt => hrt.weaken fun _ _ h => h.1.beside
  refine leadsTo_between (P := Fork (Alone first)) (Q := Fork (Beside first)) (fun r => { r with presence := none })
    (fun t => { t with presence := none }) (fun r r' => { r' with presence := r.presence, marker := r.marker })
    (fun t t' => { t' with presence := t.presence, marker := t.marker }) ?_
    (fun _ _ ⟨_, hr, ht⟩ => ⟨_, hr.alone, ht.alone⟩) fun _ _ _ _ ⟨_, hr, ht⟩ ⟨_, hr', ht'⟩ => ⟨_, hr.back hr', ht.back ht'⟩
  refine LeadsTo.bind hl.unpackLengthFree hbeside fun chunk =>
    LeadsTo.bind (inStep_fork (inStep_note_alone _ _)) hbeside fun _ =>
      leadsTo_ite (leadsTo_inFragments_fork h first chunk) ?_
  intro r t hrt
  have hboth := secluded_inChunk h chunk.units first (hrt.weaken fun _ _ h => h.1)
  exact ⟨hboth.1, hboth.2.weaken fun _ _ h => h.beside⟩

/-- A content tells nothing apart, in an open type or outside one. -/
theorem secluded_withContent (openType : Bool) : Secluded (withContent openType content) :=
  secluded_ite (secluded_inOpenType h) h

/-- A container tells nothing apart if its content does not. -/
theorem secluded_container : Secluded (container content) := by
  refine (secluded_of_portable portable_enterField).bind fun openType first => inStep_get_bind fun r t hrt => ?_
  obtain ⟨origin, hr, ht⟩ := hrt
  rw [hr.depth, hr.settings, ht.depth, ht.settings]
  have hinner : InStep (Screened first)
      (fun r => afterwards (fun r => { r with depth := r.depth - 1 }) (withContent openType content)
        { r with depth := r.depth + 1 })
      (fun r => afterwards (fun r => { r with depth := r.depth - 1 }) (withContent openType content)
        { r with depth := r.depth + 1 }) :=
    leadsTo_between (fun r => { r with depth := r.depth + 1 }) (fun t => { t with depth := t.depth + 1 })
      (fun _ r' => { r' with depth := r'.depth - 1 }) (fun _ t' => { t' with depth := t'.depth - 1 })
      (secluded_withContent h openType first)
      (fun _ _ ⟨_, hr, ht⟩ => ⟨_, hr.of_depth (· + 1), ht.of_depth (· + 1)⟩)
      fun _ _ _ _ _ ⟨_, hr, ht⟩ => ⟨_, hr.of_depth (· - 1), ht.of_depth (· - 1)⟩
  exact inStep_ite ((inStep_throw _).bind fun _ => hinner) hinner

/-- Presence bits that lie behind the position. -/
theorem secluded_withPresence (presence : Option Presence) :
    InStep (Screened first) (withPresence (presence.map (Presence.moved first)) content)
      (withPresence (presence.map (Presence.moved first)) content) :=
  leadsTo_between (fun r => { r with presence := presence.map (Presence.moved first) })
    (fun t => { t with presence := presence.map (Presence.moved first) }) (fun r r' => { r' with presence := r.presence })
    (fun t t' => { t' with presence := t.presence }) (h first)
    (fun _ _ ⟨_, hr, ht⟩ => ⟨_, hr.of_presence rfl, ht.of_presence rfl⟩)
    fun _ _ _ _ ⟨_, hr, ht⟩ ⟨_, hr', ht'⟩ => ⟨_, hr'.of_presence hr.presence, ht'.of_presence ht.presence⟩

end Contents

/-- A marker that is put in place for an action and taken back does not disturb the step. -/
theorem inStep_screened_withMarker {m : ReaderM α} (h : InStep (Screened first) m m) (marker : Bool) :
    InStep (Screened first) (withMarker marker m) (withMarker marker m) :=
  leadsTo_between (fun r => { r with marker := marker }) (fun t => { t with marker := marker })
    (fun r r' => { r' with marker := r.marker }) (fun t t' => { t' with marker := t.marker }) h
    (fun _ _ ⟨_, hr, ht⟩ => ⟨_, hr.of_marker rfl, ht.of_marker rfl⟩)
    fun _ _ _ _ ⟨_, hr, ht⟩ ⟨_, hr', ht'⟩ => ⟨_, hr'.of_marker hr.marker, ht'.of_marker ht.marker⟩

/-! ## Containers -/

/-- A sequence tells nothing apart if its fields do not. -/
theorem secluded_sequence (c : Constraint) {fields : ReaderM α} (h : Secluded fields) : Secluded (sequence c fields) := by
  refine secluded_container ((secluded_of_portable (portable_note _ _)).bind fun _ =>
    (secluded_of_portable (portable_readMarker c)).bind fun marker first => ?_)
  refine inStep_screened_bind (inStep_reserve c) fun presence => ?_
  have hbody : Secluded (fields >>= fun x => closeSequence >>= fun _ => pure x) :=
    h.bind fun x => (secluded_of_portable portable_closeSequence).bind fun _ => secluded_of_portable (portable_pure x)
  exact leadsTo_between id id (fun _ => noted .basic fun () => "leave " ++ c.text)
    (fun _ => noted .basic fun () => "leave " ++ c.text)
    (inStep_screened_withMarker (secluded_withPresence hbody (some presence)) marker) (fun _ _ hr => hr)
    fun _ _ _ _ _ ⟨origin, hr, ht⟩ => ⟨noted .basic (fun () => "leave " ++ c.text) origin, hr.noted _ _ _, ht.noted _ _ _⟩

/-- The elements of a list, from some index on, tell nothing apart if each of them does not. -/
theorem secluded_elements {element : Nat → ReaderM α} (h : ∀ index, Secluded (element index)) (sofar : Array α) (count : Nat) :
    Secluded (elements element sofar count) := by
  induction count generalizing sofar with
  | zero => exact secluded_of_portable (portable_pure sofar)
  | succ count ih => exact (h sofar.size).bind fun next => ih (sofar.push next)

/-- A list tells nothing apart if its elements do not. -/
theorem secluded_sequenceOf (c : Constraint) {element : Nat → ReaderM α} (h : ∀ index, Secluded (element index)) :
    Secluded (sequenceOf c element) := by
  have hsized : ∀ limit, Secluded (SizedContent.unpack c.size c.extensible 0 limit #[] (elements element)) :=
    fun limit first =>
      (linked_fork byView_shifted.linked).unpackSized (fun sofar count => secluded_elements h sofar count first) c.size c.extensible 0 limit #[]
  exact secluded_container ((secluded_of_portable (portable_note _ _)).bind fun _ _ =>
    secluded_withPresence ((secluded_of_portable portable_maxLength).bind hsized) none)

/-- A choice tells nothing apart if no payload does. -/
theorem secluded_choice (c : Constraint) {payload : UInt64 → ReaderM α} (h : ∀ index, Secluded (payload index)) :
    Secluded (choice c payload) :=
  secluded_container ((secluded_of_portable (portable_index c)).bind fun alternative =>
    (secluded_of_portable (portable_note _ _)).bind fun _ =>
      Secluded.bind (fun _ => secluded_withPresence (secluded_withContent (h alternative) _) none) fun _ =>
        secluded_of_portable (portable_pure _))

/-- An optional value tells nothing apart if the value does not. -/
theorem secluded_opt {value : ReaderM α} (h : Secluded value) : Secluded (opt value) := by
  refine (secluded_of_portable (portable_claimSlot true)).bind fun slot =>
    secluded_ite (fun first => ?_) (secluded_of_portable (portable_pure none))
  exact leadsTo_between (fun r => { r with claimed := some slot.2 }) (fun t => { t with claimed := some slot.2 })
    (fun _ r' => { r' with claimed := none }) (fun _ t' => { t' with claimed := none }) (h.map some first)
    (fun _ _ ⟨_, hr, ht⟩ => ⟨_, hr.of_claimed _, ht.of_claimed _⟩)
    fun _ _ _ _ _ ⟨_, hr, ht⟩ => ⟨_, hr.of_claimed none, ht.of_claimed none⟩

/-- A step of a script tells nothing apart if what it calls does not. -/
theorem secluded_recorded (path : String) {m : ReaderM α} (h : Secluded m) : Secluded (ReadStep.recorded path m) := by
  intro first r t hr
  rcases (h first).cases hr with ⟨x, r', t', hm, hm', origin, hr', ht'⟩ | ⟨fault, r', t', hm, hm', origin, hr', ht'⟩
  · unfold outcome ReadStep.recorded
    rw [hm, hm']
    exact ⟨rfl, _, hr'.of_steps origin.steps _, ht'.of_steps origin.steps _⟩
  · unfold outcome ReadStep.recorded
    rw [hm, hm']
    exact ⟨rfl, _, hr'.of_steps origin.steps _, ht'.of_steps origin.steps _⟩

/-- A script does not tell apart what is the same from some position on. -/
theorem secluded_of_scripted {m : ReaderM α} (h : Scripted m) : Secluded m := by
  induction h with
  | done x => exact secluded_of_portable (portable_pure x)
  | fail fault => exact secluded_of_portable (portable_throw fault)
  | next _ _ ih ih' => exact ih.bind ih'
  | recover _ _ ih ih' => exact fun first => inStep_tryCatch (ih first) fun fault => ih' fault first
  | recorded path _ ih => exact secluded_recorded path ih
  | position => exact secluded_position
  | remaining => exact secluded_of_portable (portable_of_linked fun h => h.ahead)
  | null => exact secluded_of_portable (portable_of_placeless .null)
  | boolean => exact secluded_of_portable (portable_of_placeless .boolean)
  | integer c => exact secluded_of_portable (portable_of_placeless (.integer c))
  | enumerated c => exact secluded_of_portable (portable_of_placeless (.enumerated c))
  | octetString c => exact secluded_of_portable (portable_of_placeless (.octetString c))
  | bitString c => exact secluded_of_portable (portable_of_placeless (.bitString c))
  | characterString c => exact secluded_of_portable (portable_of_placeless (.characterString c))
  | sequence c _ ih => exact secluded_sequence c ih
  | sequenceOf c _ ih => exact secluded_sequenceOf c ih
  | choice c _ ih => exact secluded_choice c ih
  | opt _ ih => exact secluded_opt ih

end Reader

end UnalignedPer
