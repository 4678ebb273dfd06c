import UnalignedPer.Message.WriteScript
import UnalignedPer.Proofs.Message.Shifting

/-!
# One message after another

A writer is given one call after another, and each of them may fail at any point. `Writer.Scripted` are the actions that such
calls are made of: fields, containers and optional fields, one inside or after the other, with failures that may be recovered
from.

Scripted actions come to the same behind any bits (`Writer.movable_of_scripted`), and between two calls a writer is idle. So no call
sees what the ones before it did (`Writer.attempt_independent`).
-/

namespace UnalignedPer

namespace Writer

variable {front : List Bool} {α : Type}

/-! ## Fields -/

/-- Tracing touches the trace only. -/
theorem noted_eq (level : TraceLevel) (text : Unit → String) (w : Writer) :
    ∃ trace, noted level text w = { w with trace := trace } := by
  unfold noted
  split
  · exact ⟨_, rfl⟩
  · exact ⟨w.trace, rfl⟩

/-- What is traced makes no difference. -/
theorem Behind.noted {t w : Writer} (h : Behind front t w) (level : TraceLevel) (text text' : Unit → String) :
    Behind front (noted level text t) (noted level text' w) := by
  obtain ⟨_, ht⟩ := noted_eq level text t
  obtain ⟨_, hw⟩ := noted_eq level text' w
  rw [ht, hw]
  exact { h with }

/-- A trace leaves a writer where it stands. -/
theorem settles_noted (level : TraceLevel) (text : Unit → String) (t : Writer) : t.Settles (noted level text t) := by
  obtain ⟨_, ht⟩ := noted_eq level text t
  rw [ht]
  exact ⟨id, id, rfl, rfl⟩

/-- Traces may differ, as nothing goes by them. -/
theorem parallel_note (level : TraceLevel) (text text' : Unit → String) :
    Parallel front Eq (note level text) (note level text') :=
  parallel_modify fun t _ hb => ⟨settles_noted level text t, hb.noted level text text'⟩

/-- A trace is written behind any bits. -/
theorem movable_note (level : TraceLevel) (text : Unit → String) : Movable (note level text) :=
  fun _ => parallel_note level text text

/-- The next field takes the bit further back. -/
theorem parallel_visitSlot (optional : Bool) :
    Parallel front (fun x y => y = x.moved front.length) (visitSlot optional) (visitSlot optional) := by
  intro t w hb
  have hpresence := hb.presence
  unfold visitSlot
  cases hp : t.presence with
  | none =>
    rw [hp] at hpresence
    rw [hpresence]
    exact .ok rfl (.refl t) hb
  | some p =>
    have hs : ∀ p', t.Settles { t with presence := some p' } := fun p' => ⟨fun h => by simp [hp] at h, id, rfl, rfl⟩
    rw [hp] at hpresence
    rw [hpresence]
    simp only [Option.map_some, Presence.visit_moved]
    rcases p.visit optional with ⟨fault | step, p'⟩
    · exact .error (hs p') { hb with presence := rfl }
    · exact .ok rfl (hs p') { hb with presence := rfl }

/-- The extension block is opened further back. -/
theorem movable_openExtensions : Movable openExtensions := by
  intro front
  refine parallel_position.bind ?_
  rintro header _ rfl
  refine parallel_get_bind fun t w hb => ?_
  have hcount : w.presence.map (·.extensions) = t.presence.map (·.extensions) := by
    rw [hb.presence, Option.map_map]
    rfl
  rw [hcount]
  refine (movable_packSmall _ front).bind fun _ _ _ => parallel_position.bind ?_
  rintro start _ rfl
  refine (movable_zeros _ front).bind fun _ _ _ => Parallel.bind (parallel_modify fun t w hb => ?_) fun _ _ _ =>
    movable_note _ _ front
  refine ⟨⟨fun hn => by simp only [hn, Option.map_none], id, rfl, rfl⟩, { hb with presence := ?_ }⟩
  rw [hb.presence, Option.map_map, Option.map_map]
  refine Option.map_congr fun p _ => ?_
  simp only [Function.comp_apply, Presence.enterExtensions, Presence.moved, Option.map_some, Nat.add_assoc]

/-- The next presence bit is reached behind any bits, with its position further back. -/
theorem parallel_reachSlot (optional : Bool) :
    Parallel front (fun x y => y = x.moved front.length) (reachSlot optional) (reachSlot optional) := by
  refine (parallel_visitSlot optional).bind ?_
  rintro step _ rfl
  cases step with
  | openExtensions => exact (movable_openExtensions front).bind fun _ _ _ => parallel_visitSlot optional
  | _ => exact parallel_pure rfl

/-- A place among the fields is claimed behind any bits. -/
theorem movable_claimSlot (optional present : Bool) : Movable (claimSlot optional present) := by
  intro front
  refine (parallel_reachSlot optional).bind ?_
  rintro step _ rfl
  cases step with
  | marked position openType => exact (parallel_overwrite position present).bind fun _ _ _ => parallel_pure rfl
  | _ => exact parallel_pure rfl

/-- A field is entered behind any bits, claimed or not. -/
theorem movable_enterField : Movable enterField := by
  refine fun front => parallel_get_bind fun t w hb => ?_
  rw [hb.claimed]
  split
  · refine Parallel.bind (parallel_modify fun t w hb => ?_) fun _ _ _ => parallel_pure rfl
    exact ⟨⟨id, fun _ => rfl, rfl, rfl⟩, { hb with claimed := rfl }⟩
  · exact movable_claimSlot false true front

/-! ## Contents -/

/-- Buffers with the same bits make the same open type. -/
theorem parallel_packContent {a b : BitBuffer} (ha : a.Clean) (hb : b.Clean) (h : a.toList = b.toList) :
    Parallel front Eq (packContent a) (packContent b) := by
  have hlength : a.writePosition = b.writePosition := by rw [← a.length_toList, ← b.length_toList, h]
  unfold packContent
  rw [hlength, BitBuffer.content_congr ha hb h]
  exact (parallel_note _ _ _).bind fun _ _ _ => movable_packOctets _ _ _ front

/-- A content has no bits in front in a buffer of its own. -/
theorem movable_inOpenType {content : WriterM Unit} (h : Movable content) : Movable (inOpenType content) := by
  intro front t w hb
  have hin : Behind [] { t with buffer := .empty, presence := none } { w with buffer := .empty, presence := none } :=
    { hb with
      bits := rfl
      clean := BitBuffer.clean_empty
      clean_longer := BitBuffer.clean_empty
      presence := rfl }
  -- what either run puts back in front of its content or its failure
  have hout : ∀ t' w', Writer.Settles { t with buffer := .empty, presence := none } t' → Behind [] t' w' →
      t.Settles { t' with buffer := t.buffer, presence := t.presence } ∧
        Behind front { t' with buffer := t.buffer, presence := t.presence }
          { w' with buffer := w.buffer, presence := w.presence } :=
    fun t' w' hs hb' => ⟨⟨id, hs.claimed, hs.depth, hs.settings⟩,
      { hb' with bits := hb.bits, clean := hb.clean, clean_longer := hb.clean_longer, presence := hb.presence }⟩
  unfold inOpenType
  rcases (h []).cases hin with ⟨_, _, t', w', hm, hm', -, settles, behind⟩ | ⟨fault, t', w', hm, hm', settles, behind⟩
  · obtain ⟨hs, hb'⟩ := hout t' w' settles behind
    simp only [hm, hm']
    exact (parallel_packContent behind.clean behind.clean_longer behind.bits.symm _ _ hb').of_settles hs
  · obtain ⟨hs, hb'⟩ := hout t' w' settles behind
    simp only [hm, hm']
    exact .error hs hb'

/-- A content is written behind any bits, in an open type or outside one. -/
theorem movable_withContent (openType : Bool) {content : WriterM Unit} (h : Movable content) :
    Movable (withContent openType content) :=
  movable_ite (movable_inOpenType h) h

/-- A field is written behind any bits if its content is. -/
theorem movable_field {content : WriterM Unit} (h : Movable content) : Movable (field content) :=
  movable_enterField.bind fun openType => movable_withContent openType h

/-- The depth is counted down again, whatever becomes of the content. -/
theorem movable_container {content : WriterM Unit} (h : Movable content) : Movable (container content) := by
  refine movable_enterField.bind fun openType front => parallel_get_bind fun t w hb => ?_
  have hinside := Parallel.between (fun t => { t with depth := t.depth + 1 }) (fun w => { w with depth := w.depth + 1 })
    (fun _ t => { t with depth := t.depth - 1 }) (fun _ w => { w with depth := w.depth - 1 })
    (movable_withContent openType h front) (fun _ _ hb => { hb with depth := congrArg (· + 1) hb.depth })
    fun _ _ _ _ _ hs hb' => ⟨⟨hs.presence, hs.claimed, congrArg (· - 1) hs.depth, hs.settings⟩,
      { hb' with depth := congrArg (· - 1) hb'.depth }⟩
  rw [hb.depth, hb.settings]
  split
  · exact (movable_throw _ front).bind fun _ _ _ => hinside
  · exact hinside

/-- An action writes one field: it enters the field and writes its content, with or without a container around it. -/
def Framed (m : WriterM Unit) : Prop :=
  ∃ content, Movable content ∧ (m = field content ∨ m = container content)

/-- What `field` writes is one field, if its content is written behind any bits. -/
theorem framed_field {content : WriterM Unit} (h : Movable content) : Framed (field content) :=
  ⟨content, h, .inl rfl⟩

/-- A container is one field, if its content is written behind any bits. -/
theorem framed_container {content : WriterM Unit} (h : Movable content) : Framed (container content) :=
  ⟨content, h, .inr rfl⟩

/-- What writes one field writes it behind any bits. -/
theorem Framed.movable {m : WriterM Unit} (h : Framed m) : Movable m := by
  obtain ⟨content, hc, rfl | rfl⟩ := h
  · exact movable_field hc
  · exact movable_container hc

/-- The presence bits of the sequence around are put back, whatever becomes of the action. -/
theorem parallel_withPresence {m m' : WriterM Unit} (presence : Option Presence) (h : Parallel front Eq m m') :
    Parallel front Eq (withPresence presence m) (withPresence (presence.map (Presence.moved front.length)) m') :=
  Parallel.between (fun t => { t with presence := presence }) _ (fun t t' => { t' with presence := t.presence }) _ h
    (fun _ _ hb => { hb with presence := rfl })
    fun _ _ hb _ _ hs hb' => ⟨⟨id, hs.claimed, hs.depth, hs.settings⟩, { hb' with presence := hb.presence }⟩

/-! ## Containers -/

/-- The bits of a sequence are reserved further back. -/
theorem parallel_reserve (c : Constraint) :
    Parallel front (fun x y => y = (x.1.map (front.length + ·), x.2.moved front.length)) (reserve c) (reserve c) := by
  -- what follows the extension marker
  have hrun : ∀ marker : Option Nat, Parallel front (fun x y => y = (x.1.map (front.length + ·), x.2.moved front.length))
      (do
        let start ← Packer.position
        Packer.zeros c.optionalFields
        pure (marker, Presence.opening c start) : WriterM (Option Nat × Presence))
      (do
        let start ← Packer.position
        Packer.zeros c.optionalFields
        pure (marker.map (front.length + ·), Presence.opening c start)) := by
    intro marker
    refine parallel_position.bind ?_
    rintro start _ rfl
    exact (movable_zeros _ front).bind fun _ _ _ => parallel_pure (by rw [Presence.opening_moved])
  refine parallel_ite (parallel_position.bind ?_) ?_
  · rintro position _ rfl
    exact (movable_bit false front).bind fun _ _ _ => hrun (some position)
  · exact hrun none

/-- The marker is set, or the extension block dropped, further back. -/
theorem parallel_closeSequence (marker : Option Nat) :
    Parallel front Eq (closeSequence marker) (closeSequence (marker.map (front.length + ·))) := by
  refine parallel_get_bind fun t w hb => ?_
  rw [hb.presence]
  cases marker with
  | none => exact parallel_pure rfl
  | some marker =>
    cases t.presence with
    | none => exact parallel_pure rfl
    | some p =>
      have hany : Octets.anyBit w.buffer.storage (p.moved front.length).reserved.start
            ((p.moved front.length).reserved.stop - (p.moved front.length).reserved.start) =
          Octets.anyBit t.buffer.storage p.reserved.start (p.reserved.stop - p.reserved.start) := by
        simp only [Presence.reserved, Presence.moved]
        rw [Octets.anyBit_eq, Octets.anyBit_eq, Nat.add_sub_add_left]
        refine congrArg (List.any · id) (Octets.bitsFrom_congr fun i _ => ?_)
        rw [Nat.add_assoc]
        exact hb.getBit (p.first + i)
      have hheader : (p.moved front.length).header = p.header.map (front.length + ·) := rfl
      simp only [Option.map_some]
      rw [hany, hheader]
      cases p.header with
      | none => exact parallel_pure rfl
      | some header =>
        exact parallel_ite (parallel_overwrite marker true)
          ((parallel_truncate header).bind fun _ _ _ => movable_note _ _ front)

/-- A sequence is one field, if its own fields are written behind any bits. -/
theorem framed_sequence (c : Constraint) {fields : WriterM Unit} (h : Movable fields) : Framed (sequence c fields) := by
  refine framed_container ((movable_note _ _).bind fun _ front => (parallel_reserve c).bind ?_)
  rintro ⟨marker, presence⟩ _ rfl
  refine Parallel.between id id (fun _ => noted .basic fun () => "leave " ++ c.text)
    (fun _ => noted .basic fun () => "leave " ++ c.text)
    (parallel_withPresence (some presence) ((h front).bind fun _ _ _ => parallel_closeSequence marker)) (fun _ _ hb => hb) ?_
  exact fun _ _ _ t' _ hs hb' => ⟨hs.trans (settles_noted _ _ t'), hb'.noted _ _ _⟩

/-- The elements of a list, from some index on, are written behind any bits if each of them is. -/
theorem movable_elements {element : Nat → WriterM Unit} (h : ∀ index, Movable (element index)) (index count : Nat) :
    Movable (elements element index count) := by
  induction count generalizing index with
  | zero => exact movable_pure ()
  | succ count ih => exact (h index).bind fun _ => ih (index + 1)

/-- A list is one field, if its elements are written behind any bits. -/
theorem framed_sequenceOf (c : Constraint) (count : Nat) {element : Nat → WriterM Unit}
    (h : ∀ index, Movable (element index)) : Framed (sequenceOf c count element) :=
  framed_container ((movable_note _ _).bind fun _ front =>
    parallel_withPresence none (movable_packSized (movable_elements h) _ _ _ front))

/-- The index of an enumeration or of a choice is written behind any bits. -/
theorem movable_index (c : Constraint) (alternative : UInt64) : Movable (index c alternative) :=
  movable_ite (movable_throw _) (movable_packIndex _ _ _)

/-- A choice is one field, if its payload is written behind any bits. -/
theorem framed_choice (c : Constraint) (alternative : UInt64) {payload : WriterM Unit} (h : Movable payload) :
    Framed (choice c alternative payload) :=
  framed_container ((movable_index c alternative).bind fun _ => (movable_note _ _).bind fun _ front =>
    parallel_withPresence none (movable_withContent _ h front))

/-- The claim on the presence bit is given up, whatever becomes of the value. -/
theorem movable_opt (present : Bool) {value : WriterM Unit} (h : Movable value) : Movable (opt present value) := by
  refine (movable_claimSlot true present).bind fun openType => movable_ite (fun front => ?_) (movable_pure ())
  exact Parallel.between _ _ _ _ (h front) (fun _ _ hb => { hb with claimed := rfl })
    fun _ _ _ _ _ hs hb' => ⟨⟨hs.presence, fun _ => rfl, hs.depth, hs.settings⟩, { hb' with claimed := rfl }⟩

/-! ## Scripts -/

/-- What a message is written with: fields, containers and optional fields, in any order and inside each other. An action may
fail at any point, and what follows a failure may depend on the fault. -/
inductive Scripted : WriterM Unit → Prop
  /-- Writes nothing. -/
  | done : Scripted (pure ())
  /-- Fails. -/
  | fail (fault : Fault) : Scripted (throw fault)
  /-- Goes on when the first part succeeds. -/
  | next {m n : WriterM Unit} (first : Scripted m) (second : Scripted n) : Scripted (m >>= fun _ => n)
  /-- Goes on from a failure. -/
  | recover {m : WriterM Unit} {handle : Fault → WriterM Unit} (action : Scripted m) (rest : ∀ fault, Scripted (handle fault)) :
      Scripted (tryCatch m handle)
  /-- Records the end of a step. -/
  | recorded (path : String) {m : WriterM Unit} (action : Scripted m) : Scripted (WriteStep.recorded path m)
  | null : Scripted null
  | boolean (value : Bool) : Scripted (boolean value)
  | integer (c : Constraint) (value : Int64) : Scripted (integer c value)
  | enumerated (c : Constraint) (item : UInt64) : Scripted (enumerated c item)
  | octetString (c : Constraint) (value : Octets) : Scripted (octetString c value)
  | bitString (c : Constraint) (value : BitString) : Scripted (bitString c value)
  | characterString (c : Constraint) (text : Octets) : Scripted (characterString c text)
  | sequence (c : Constraint) {fields : WriterM Unit} (body : Scripted fields) : Scripted (sequence c fields)
  | sequenceOf (c : Constraint) (count : Nat) {element : Nat → WriterM Unit} (body : ∀ index, Scripted (element index)) :
      Scripted (sequenceOf c count element)
  | choice (c : Constraint) (alternative : UInt64) {payload : WriterM Unit} (body : Scripted payload) :
      Scripted (choice c alternative payload)
  | opt (present : Bool) {value : WriterM Unit} (body : Scripted value) : Scripted (opt present value)

/-- A failure is handled where it left the writer. -/
theorem run_tryCatch (m : WriterM Unit) (handle : Fault → WriterM Unit) (w : Writer) :
    tryCatch m handle w =
      match m w with
      | .ok x w' => .ok x w'
      | .error fault w' => handle fault w' := by
  change EStateM.tryCatch m handle w = _
  unfold EStateM.tryCatch
  cases m w <;> rfl

/-- What goes on from a failure is written behind any bits, if both actions are. -/
theorem movable_tryCatch {m : WriterM Unit} {handle : Fault → WriterM Unit} (h : Movable m) (h' : ∀ fault, Movable (handle fault)) :
    Movable (tryCatch m handle) := by
  intro front t w hb
  rw [run_tryCatch, run_tryCatch]
  rcases (h front).cases hb with ⟨x, y, t', w', hm, hm', result, settles, behind⟩ | ⟨fault, t', w', hm, hm', settles, behind⟩
  · rw [hm, hm']
    exact .ok result settles behind
  · rw [hm, hm']
    exact (h' fault front t' w' behind).of_settles settles

/-- What is recorded is not looked at. -/
theorem movable_recorded (path : String) {m : WriterM Unit} (h : Movable m) : Movable (WriteStep.recorded path m) := by
  intro front t w hb
  unfold WriteStep.recorded
  rcases (h front).cases hb with ⟨x, y, t', w', hm, hm', -, settles, behind⟩ | ⟨fault, t', w', hm, hm', settles, behind⟩
  · simp only [hm, hm']
    exact .ok rfl ⟨settles.presence, settles.claimed, settles.depth, settles.settings⟩ { behind with }
  · simp only [hm, hm']
    exact .error ⟨settles.presence, settles.claimed, settles.depth, settles.settings⟩ { behind with }

/-- A scripted action comes to the same behind any bits. -/
theorem movable_of_scripted {m : WriterM Unit} (h : Scripted m) : Movable m := by
  induction h with
  | done => exact movable_pure ()
  | fail fault => exact movable_throw fault
  | next _ _ ih ih' => exact ih.bind fun _ => ih'
  | recover _ _ ih ih' => exact movable_tryCatch ih ih'
  | recorded path _ ih => exact movable_recorded path ih
  | null => exact movable_field (movable_pure ())
  | boolean value => exact movable_field (movable_bit value)
  | integer c value => exact movable_field (movable_packInteger c.bounds c.extensible value)
  | enumerated c item => exact movable_field (movable_index c item)
  | octetString c value => exact movable_field (movable_packOctets c.size c.extensible value)
  | bitString c value => exact movable_field (movable_packBits c.size c.extensible value)
  | characterString c text => exact movable_field (movable_packText c.alphabet c.size c.extensible text)
  | sequence c _ ih => exact (framed_sequence c ih).movable
  | sequenceOf c count _ ih => exact (framed_sequenceOf c count ih).movable
  | choice c alternative _ ih => exact (framed_choice c alternative ih).movable
  | opt present _ ih => exact movable_opt present ih

end Writer

namespace WriteStep

open Writer (Scripted)

mutual

/-- The steps that are listed in a script are scripted. -/
theorem scripted_run (path : String) : ∀ step : WriteStep, Scripted (run path step)
  | .null => .recorded path .null
  | .boolean value => .recorded path (.boolean value)
  | .integer c value => .recorded path (.integer c value)
  | .enumerated c item => .recorded path (.enumerated c item)
  | .octets c data => .recorded path (.octetString c data)
  | .bits c value => .recorded path (.bitString c value)
  | .text c data => .recorded path (.characterString c data)
  | .sequence c body => .recorded path (.sequence c (scripted_runBody path 0 body))
  | .sequenceOf c count body => .recorded path (.sequenceOf c count fun index => scripted_runBody (elementPath path index) 0 body)
  | .choice c alternative body => .recorded path (.choice c alternative (scripted_runBody path 0 body))
  | .opt present body => .recorded path (.opt present (scripted_runBody path 0 body))
  | .fail reason => .recorded path (.fail (.unsupported reason))

/-- The steps of a body, from some index on, are a script. -/
theorem scripted_runBody (path : String) (index : Nat) : ∀ steps : List WriteStep, Scripted (runBody path index steps)
  | [] => .done
  | step :: rest => .next (scripted_run _ step) (scripted_runBody path (index + 1) rest)

end

end WriteStep

namespace Writer

/-! ## Calls in a row -/

/-- What a call comes to, and the writer after it. -/
def attempt (call : WriterM Unit) (w : Writer) : Except Fault Unit × Writer :=
  match call w with
  | .ok () w => (.ok (), w)
  | .error fault w => (.error fault, w)

/-- The writer after some calls in a row, whatever they came to. -/
def afterCalls (calls : List (WriterM Unit)) (w : Writer) : Writer :=
  calls.foldl (fun w call => (attempt call w).2) w

/-- Between two messages: no sequence is being written, no field is claimed and no container is open. -/
structure Idle (settings : Settings) (w : Writer) : Prop where
  /-- Nothing is set past the written bits. -/
  clean : w.buffer.Clean
  /-- No presence bits are in use. -/
  presence : w.presence = none
  /-- No field is claimed. -/
  claimed : w.claimed = none
  /-- No container is open. -/
  depth : w.depth = 0
  /-- The settings are those it was made with. -/
  settings : w.settings = settings

/-- A writer that was just made is idle. -/
theorem idle_ofSettings (settings : Settings) : (ofSettings settings).Idle settings :=
  ⟨BitBuffer.clean_empty, rfl, rfl, rfl, rfl⟩

/-- An idle writer differs from a new one in its bits. -/
theorem Idle.behind {settings : Settings} {w : Writer} (h : w.Idle settings) :
    Behind w.buffer.toList (ofSettings settings) w where
  bits := (List.append_nil _).symm
  clean := BitBuffer.clean_empty
  clean_longer := h.clean
  presence := h.presence
  claimed := h.claimed
  depth := h.depth
  settings := h.settings

/-- A call on an idle writer does what it does on a new one, and leaves the writer idle. -/
theorem Idle.attempt {settings : Settings} {w : Writer} {call : WriterM Unit} (h : w.Idle settings) (hc : Movable call) :
    (attempt call w).2.Idle settings ∧ (attempt call w).1 = (attempt call (ofSettings settings)).1 ∧
      (attempt call w).2.buffer.toList = w.buffer.toList ++ (attempt call (ofSettings settings)).2.buffer.toList := by
  have hidle : ∀ t' w', (ofSettings settings).Settles t' → Behind w.buffer.toList t' w' → w'.Idle settings :=
    fun t' w' hs hb => {
      clean := hb.clean_longer
      presence := by rw [hb.presence, hs.presence rfl, Option.map_none]
      claimed := hb.claimed.trans (hs.claimed rfl)
      depth := hb.depth.trans hs.depth
      settings := hb.settings.trans hs.settings }
  unfold Writer.attempt
  rcases (hc w.buffer.toList).cases h.behind with
    ⟨_, _, t', w', hm, hm', -, settles, behind⟩ | ⟨fault, t', w', hm, hm', settles, behind⟩
  · rw [hm, hm']
    exact ⟨hidle t' w' settles behind, rfl, behind.bits⟩
  · rw [hm, hm']
    exact ⟨hidle t' w' settles behind, rfl, behind.bits⟩

/-- Between calls a writer is idle. -/
theorem Idle.afterCalls {settings : Settings} {w : Writer} {calls : List (WriterM Unit)} (h : w.Idle settings)
    (hcalls : ∀ call ∈ calls, Scripted call) : (afterCalls calls w).Idle settings := by
  induction calls generalizing w with
  | nil => exact h
  | cons call calls ih =>
    have hcall := movable_of_scripted (hcalls call (List.mem_cons_self ..))
    exact ih (h.attempt hcall).1 fun other hm => hcalls other (List.mem_cons_of_mem _ hm)

/-- Whatever calls came before, and whether or not they failed: a call comes to what it comes to on a new writer, it appends the
same bits to those that are there, and it leaves no sequence, claim or container behind. -/
theorem attempt_independent (settings : Settings) {before : List (WriterM Unit)} {call : WriterM Unit}
    (hbefore : ∀ other ∈ before, Scripted other) (hcall : Scripted call) :
    let w := afterCalls before (ofSettings settings)
    let fresh := attempt call (ofSettings settings)
    (attempt call w).2.Idle settings ∧ (attempt call w).1 = fresh.1 ∧
      (attempt call w).2.buffer.toList = w.buffer.toList ++ fresh.2.buffer.toList :=
  ((idle_ofSettings settings).afterCalls hbefore).attempt (movable_of_scripted hcall)

/-- A sequence of an optional field and an optional extension field. -/
def briefing (note : WriterM Unit) : WriterM Unit :=
  sequence ⟨.sequence ⟨2, some 1⟩ 1, true⟩ (opt true (boolean true) >>= fun _ => opt true note)

/-- A sequence that fails in its extension field leaves bits behind, and the next one is written as if there were none. -/
theorem attempt_independent_failure :
    let w := afterCalls [briefing (throw .endOfStream)] (ofSettings .standard)
    let fresh := attempt (briefing (boolean false)) (ofSettings .standard)
    w.buffer.writePosition = 11 ∧ (attempt (briefing (boolean false)) w).2.Idle .standard ∧
      (attempt (briefing (boolean false)) w).1 = fresh.1 ∧
      (attempt (briefing (boolean false)) w).2.buffer.toList = w.buffer.toList ++ fresh.2.buffer.toList :=
  ⟨by decide +kernel, attempt_independent .standard
    (fun other hm => List.mem_singleton.mp hm ▸ .sequence _ (.next (.opt _ (.boolean _)) (.opt _ (.fail _))))
    (.sequence _ (.next (.opt _ (.boolean _)) (.opt _ (.boolean _))))⟩

end Writer

end UnalignedPer
