import Mathlib.Data.List.Forall2
import UnalignedPer.BitString
import UnalignedPer.ChoiceIndex
import UnalignedPer.Proofs.OctetString
import UnalignedPer.Proofs.Running
import UnalignedPer.Text.CharacterString

/-!
# Actions in step

Two actions on two kinds of state are in step (`InStep`) when, from states that belong together, they come to the same result or
to the same fault and leave states that belong together again. Nothing is said of success: what a failed action leaves behind
belongs together as well, so that what follows a failure is in step too.

Reads of a source are made of single steps, of the bits ahead and of nothing else. Sources of which the single steps are in step
(`Linked`) are therefore read in step, whatever is read from them. An action that keeps a property of its state is in step with
itself, on the states that have the property (`inStep_self_iff`).
-/

namespace UnalignedPer

variable {ε σ τ α β : Type}

/-- What an action comes to, and the state that it leaves. -/
def outcome (action : EStateM ε σ α) (s : σ) : Except ε α × σ :=
  match action s with
  | .ok result s' => (.ok result, s')
  | .error fault s' => (.error fault, s')

/-- What some actions in a row come to, whether or not those before them failed, and the state that each of them leaves. -/
def outcomes : List (EStateM ε σ α) → σ → List (Except ε α × σ)
  | [], _ => []
  | action :: rest, s => outcome action s :: outcomes rest (outcome action s).2

/-- From states that belong together the actions come to the same and leave states that belong together. -/
def InStep (R : σ → τ → Prop) (m : EStateM ε σ α) (m' : EStateM ε τ α) : Prop :=
  ∀ ⦃s t⦄, R s t → (outcome m s).1 = (outcome m' t).1 ∧ R (outcome m s).2 (outcome m' t).2

variable {R : σ → τ → Prop}

/-- A success is its result, with the state that it leaves. -/
theorem outcome_ok {m : EStateM ε σ α} {s s' : σ} {x : α} (h : m s = .ok x s') : outcome m s = (.ok x, s') := by
  simp only [outcome, h]

/-- A failure is its fault, with the state that it leaves. -/
theorem outcome_error {m : EStateM ε σ α} {s s' : σ} {fault : ε} (h : m s = .error fault s') :
    outcome m s = (.error fault, s') := by
  simp only [outcome, h]

/-! ## How the statements chain -/

/-- Actions that come to the same both succeed or both fail. -/
theorem cases_of_outcome {m : EStateM ε σ α} {m' : EStateM ε τ α} {s : σ} {t : τ} (h : (outcome m s).1 = (outcome m' t).1) :
    (∃ x, m s = .ok x (outcome m s).2 ∧ m' t = .ok x (outcome m' t).2) ∨
      ∃ fault, m s = .error fault (outcome m s).2 ∧ m' t = .error fault (outcome m' t).2 := by
  unfold outcome at *
  cases hm : m s with
  | ok x s' =>
    cases hm' : m' t with
    | ok y t' =>
      rw [hm, hm'] at h
      cases h
      exact .inl ⟨x, rfl, rfl⟩
    | error fault t' =>
      rw [hm, hm'] at h
      cases h
  | error fault s' =>
    cases hm' : m' t with
    | ok y t' =>
      rw [hm, hm'] at h
      cases h
    | error fault' t' =>
      rw [hm, hm'] at h
      cases h
      exact .inr ⟨fault, rfl, rfl⟩

/-- Both actions succeed or both fail. -/
theorem InStep.cases {m : EStateM ε σ α} {m' : EStateM ε τ α} (h : InStep R m m') {s : σ} {t : τ} (hr : R s t) :
    (∃ x s' t', m s = .ok x s' ∧ m' t = .ok x t' ∧ R s' t') ∨
      ∃ fault s' t', m s = .error fault s' ∧ m' t = .error fault t' ∧ R s' t' := by
  obtain ⟨heq, hrel⟩ := h hr
  rcases cases_of_outcome heq with ⟨x, hm, hm'⟩ | ⟨fault, hm, hm'⟩
  · exact .inl ⟨x, _, _, hm, hm', hrel⟩
  · exact .inr ⟨fault, _, _, hm, hm', hrel⟩

/-- Two successes with the same result. -/
theorem inStep_ok {m : EStateM ε σ α} {m' : EStateM ε τ α} {s s' : σ} {t t' : τ} {x : α} (hm : m s = .ok x s')
    (hm' : m' t = .ok x t') (hr : R s' t') : (outcome m s).1 = (outcome m' t).1 ∧ R (outcome m s).2 (outcome m' t).2 := by
  rw [outcome_ok hm, outcome_ok hm']
  exact ⟨rfl, hr⟩

/-- Two failures with the same fault. -/
theorem inStep_error {m : EStateM ε σ α} {m' : EStateM ε τ α} {s s' : σ} {t t' : τ} {fault : ε} (hm : m s = .error fault s')
    (hm' : m' t = .error fault t') (hr : R s' t') :
    (outcome m s).1 = (outcome m' t).1 ∧ R (outcome m s).2 (outcome m' t).2 := by
  rw [outcome_error hm, outcome_error hm']
  exact ⟨rfl, hr⟩

/-- A result alone is in step with itself. -/
theorem inStep_pure (x : α) : InStep R (pure x : EStateM ε σ α) (pure x) :=
  fun _ _ hr => ⟨rfl, hr⟩

/-- A failure is in step with the same failure. -/
theorem inStep_throw (fault : ε) : InStep R (throw fault : EStateM ε σ α) (throw fault) :=
  fun _ _ hr => ⟨rfl, hr⟩

/-- Actions in step followed by actions in step are in step, and so are the failures that cut them short. -/
theorem InStep.bind {m : EStateM ε σ α} {m' : EStateM ε τ α} {f : α → EStateM ε σ β} {f' : α → EStateM ε τ β}
    (h : InStep R m m') (h' : ∀ x, InStep R (f x) (f' x)) : InStep R (m >>= f) (m' >>= f') := by
  intro s t hr
  unfold outcome
  rw [run_bind, run_bind]
  rcases h.cases hr with ⟨x, s', t', hm, hm', hr'⟩ | ⟨fault, s', t', hm, hm', hr'⟩
  · rw [hm, hm']
    exact h' x hr'
  · rw [hm, hm']
    exact ⟨rfl, hr'⟩

/-- A function of results in step is in step. -/
theorem InStep.map {m : EStateM ε σ α} {m' : EStateM ε τ α} (h : InStep R m m') (f : α → β) :
    InStep R (f <$> m) (f <$> m') := by
  rw [map_eq_pure_bind, map_eq_pure_bind]
  exact h.bind fun x => inStep_pure (f x)

/-- A choice between actions in step is in step. -/
theorem inStep_ite {c : Prop} [Decidable c] {m n : EStateM ε σ α} {m' n' : EStateM ε τ α} (h : InStep R m m')
    (h' : InStep R n n') : InStep R (if c then m else n) (if c then m' else n') := by
  split
  · exact h
  · exact h'

/-- Two actions that go in step with a third one go in step with each other. -/
theorem InStep.through {υ : Type} {S : υ → τ → Prop} {m : EStateM ε σ α} {n : EStateM ε υ α} {m' : EStateM ε τ α}
    (h : InStep R m m') (h' : InStep S n m') : InStep (fun s u => ∃ t, R s t ∧ S u t) m n := by
  rintro s u ⟨t, hr, hs⟩
  exact ⟨(h hr).1.trans (h' hs).1.symm, _, (h hr).2, (h' hs).2⟩

/-- Two actions that a third one goes in step with go in step with each other. -/
theorem InStep.fork {υ : Type} {S : σ → υ → Prop} {m : EStateM ε σ α} {m' : EStateM ε τ α} {n : EStateM ε υ α}
    (h : InStep R m m') (h' : InStep S m n) : InStep (fun t u => ∃ s, R s t ∧ S s u) m' n := by
  rintro t u ⟨s, hr, hs⟩
  exact ⟨(h hr).1.symm.trans (h' hs).1, _, (h hr).2, (h' hs).2⟩

/-- Actions in a row go in step if each of them does. -/
theorem InStep.outcomes {γ : Type} {run : γ → EStateM ε σ α} {run' : γ → EStateM ε τ α} {steps : List γ}
    (h : ∀ step ∈ steps, InStep R (run step) (run' step)) {s : σ} {t : τ} (hr : R s t) :
    List.Forall₂ (fun x y => x.1 = y.1 ∧ R x.2 y.2) (outcomes (steps.map run) s) (outcomes (steps.map run') t) := by
  induction steps generalizing s t with
  | nil => exact .nil
  | cons step rest ih =>
    have hstep := h step (List.mem_cons_self ..) hr
    exact .cons hstep (ih (fun other hm => h other (List.mem_cons_of_mem _ hm)) hstep.2)

/-- An action is in step with itself on the states of a kind exactly when it leaves a state of the kind, whatever it comes to. -/
theorem inStep_self_iff {I : σ → Prop} {m : EStateM ε σ α} :
    InStep (fun s t => s = t ∧ I s) m m ↔ ∀ s, I s → I (outcome m s).2 := by
  constructor
  · exact fun h s hs => (h ⟨rfl, hs⟩).2.2
  · rintro h s _ ⟨rfl, hs⟩
    exact ⟨rfl, rfl, h s hs⟩

/-! ## Sources -/

variable [BitSource σ] [BitSource τ]

/-- Sources that belong together have as many bits ahead, and their single steps go in step. -/
structure Linked (R : σ → τ → Prop) : Prop where
  /-- As many bits are ahead. -/
  remaining : ∀ ⦃s t⦄, R s t → BitSource.remaining s = BitSource.remaining t
  /-- The next bit is read in step. -/
  readBit : InStep R (BitSource.readBit : Unpacker σ Bool) BitSource.readBit
  /-- Runs of bits are read in step. -/
  readInto : ∀ dst offset length,
    InStep R (BitSource.readInto dst offset length : Unpacker σ Octets) (BitSource.readInto dst offset length)

/-- Sources that are linked with the same source are linked with each other. -/
theorem Linked.fork {υ : Type} [BitSource υ] {S : σ → υ → Prop} (h : Linked R) (h' : Linked S) :
    Linked fun t u => ∃ s, R s t ∧ S s u where
  remaining := by
    rintro t u ⟨s, hr, hs⟩
    exact (h.remaining hr).symm.trans (h'.remaining hs)
  readBit := h.readBit.fork h'.readBit
  readInto dst offset length := (h.readInto dst offset length).fork (h'.readInto dst offset length)

namespace Linked

variable (h : Linked R)

include h

/-- The number of bits ahead is the same. -/
theorem ahead : InStep R (Unpacker.remaining : Unpacker σ Nat) Unpacker.remaining :=
  fun _ _ hr => ⟨congrArg Except.ok (h.remaining hr), hr⟩

/-- A bit is read in step. -/
theorem bit : InStep R (Unpacker.bit : Unpacker σ Bool) Unpacker.bit :=
  h.readBit

/-- A run of bits is read in step. -/
theorem run (dst : Octets) (offset length : Nat) :
    InStep R (Unpacker.run dst offset length : Unpacker σ Octets) (Unpacker.run dst offset length) :=
  h.readInto dst offset length

/-- Bits below a greatest value are read in step, as they are read one by one. -/
theorem bitsBelow (high : UInt64) (width : Nat) :
    InStep R (Unpacker.bitsBelow high width : Unpacker σ UInt64) (Unpacker.bitsBelow high width) := by
  induction width generalizing high with
  | zero => exact inStep_pure high
  | succ width ih => exact h.bit.bind fun _ => ih _

/-- A word is read in step. -/
theorem word (width : Nat) : InStep R (Unpacker.word width : Unpacker σ UInt64) (Unpacker.word width) := by
  have hbits : InStep R
      (do
        let ahead ← Unpacker.remaining
        if width > ahead then throw .endOfStream
        Unpacker.bitsBelow 0 width : Unpacker σ UInt64)
      (do
        let ahead ← Unpacker.remaining
        if width > ahead then throw .endOfStream
        Unpacker.bitsBelow 0 width) :=
    h.ahead.bind fun _ => inStep_ite ((inStep_throw _).bind fun _ => h.bitsBelow 0 width) (h.bitsBelow 0 width)
  exact inStep_ite ((inStep_throw _).bind fun _ => hbits) hbits

/-! ## Lengths and contents of a bounded size -/

/-- A length of a fixed width is read in step. -/
theorem unpackWidth (width : Nat) :
    InStep R (LengthDeterminant.unpackWidth width : Unpacker σ Nat) (LengthDeterminant.unpackWidth width) :=
  (h.word width).map _

/-- A length without bounds is read in step. -/
theorem unpackLengthFree :
    InStep R (LengthDeterminant.unpackFree : Unpacker σ LengthDeterminant.Chunk) LengthDeterminant.unpackFree := by
  refine h.bit.bind fun isLong => inStep_ite ((h.unpackWidth 7).bind fun _ => inStep_pure _) ?_
  refine h.bit.bind fun isFragment => inStep_ite ((h.unpackWidth 14).bind fun _ => inStep_pure _) ?_
  exact (h.unpackWidth 6).bind fun _ => inStep_ite ((inStep_throw _).bind fun _ => inStep_pure _) (inStep_pure _)

/-- A length is read in step. -/
theorem unpackLength (bounds : Bounds Nat) :
    InStep R (LengthDeterminant.unpack bounds : Unpacker σ LengthDeterminant.Chunk) (LengthDeterminant.unpack bounds) := by
  unfold LengthDeterminant.unpack
  split
  · refine inStep_ite (inStep_throw _) ((h.unpackWidth _).bind fun _ => ?_)
    exact inStep_ite ((inStep_throw _).bind fun _ => inStep_pure _) (inStep_pure _)
  · exact h.unpackLengthFree

/-- A chunk passes the check on both sides, or fails it with the same fault. -/
theorem checkChunk (unitBits : Nat) (limit : Option Nat) (total units : Nat) :
    InStep R (SizedContent.checkChunk unitBits limit total units : Unpacker σ Unit)
      (SizedContent.checkChunk unitBits limit total units) := by
  have hbits : InStep R
      (do
        let ahead ← Unpacker.remaining
        if unitBits ≠ 0 ∧ units * unitBits % UInt64.size > ahead then throw .endOfStream : Unpacker σ Unit)
      (do
        let ahead ← Unpacker.remaining
        if unitBits ≠ 0 ∧ units * unitBits % UInt64.size > ahead then throw .endOfStream) :=
    h.ahead.bind fun _ => inStep_ite (inStep_throw _) (inStep_pure ())
  exact inStep_ite ((inStep_throw _).bind fun _ => hbits) hbits

section Sized

variable {consume : α → Nat → Unpacker σ α} {consume' : α → Nat → Unpacker τ α}
  (hc : ∀ sofar count, InStep R (consume sofar count) (consume' sofar count))

include hc

/-- Chunks are read in step if their units are. -/
theorem unpackFrom (bounds : Bounds Nat) (unitBits : Nat) (limit : Option Nat) (total : Nat) (sofar : α)
    (chunk : LengthDeterminant.Chunk) (fuel : Nat) :
    InStep R (SizedContent.unpackFrom bounds unitBits limit consume total sofar chunk fuel)
      (SizedContent.unpackFrom bounds unitBits limit consume' total sofar chunk fuel) := by
  induction fuel generalizing total sofar chunk with
  | zero => exact inStep_throw _
  | succ fuel ih =>
    refine (h.checkChunk unitBits limit _ _).bind fun _ => (hc sofar chunk.units).bind fun next => ?_
    exact inStep_ite ((h.unpackLength bounds).bind fun chunk' => ih _ next chunk') (inStep_pure _)

/-- Counted units are read in step if the units of a chunk are. -/
theorem unpackCounted (size : Bounds Nat) (unitBits : Nat) (limit : Option Nat) (start : α) :
    InStep R (SizedContent.unpackCounted size unitBits limit start consume)
      (SizedContent.unpackCounted size unitBits limit start consume') := by
  refine h.ahead.bind fun ahead => (h.unpackLength _).bind fun chunk => ?_
  refine (h.unpackFrom hc _ unitBits limit 0 start chunk (ahead + 1)).bind fun found => ?_
  exact inStep_ite (inStep_pure _) (inStep_throw _)

/-- A content of a bounded size is read in step if its units are. -/
theorem unpackSizedRoot (size : Bounds Nat) (unitBits : Nat) (limit : Option Nat) (start : α) :
    InStep R (SizedContent.unpackRoot size unitBits limit start consume)
      (SizedContent.unpackRoot size unitBits limit start consume') := by
  refine inStep_ite (inStep_pure _) ?_
  split
  · exact (h.checkChunk unitBits limit _ _).bind fun _ => hc start _
  · exact h.unpackCounted hc size unitBits limit start

/-- A content is read in step if its units are. -/
theorem unpackSized (size : Bounds Nat) (extensible : Bool) (unitBits : Nat) (limit : Option Nat) (start : α) :
    InStep R (SizedContent.unpack size extensible unitBits limit start consume)
      (SizedContent.unpack size extensible unitBits limit start consume') := by
  refine inStep_ite (h.bit.bind fun _ => ?_) (h.unpackSizedRoot hc size unitBits limit start)
  exact inStep_ite (h.unpackCounted hc .free unitBits limit start) (h.unpackSizedRoot hc size unitBits limit start)

end Sized

/-! ## Strings -/

/-- The octets of a chunk are read in step. -/
theorem unpackOctetChunk (sofar : Octets) (count : Nat) :
    InStep R (OctetString.unpackChunk sofar count : Unpacker σ Octets) (OctetString.unpackChunk sofar count) :=
  h.run _ _ _

/-- An octet string is read in step. -/
theorem unpackOctets (size : Bounds Nat) (extensible : Bool) (limit : Option Nat) :
    InStep R (OctetString.unpack size extensible limit : Unpacker σ Octets) (OctetString.unpack size extensible limit) :=
  h.unpackSized h.unpackOctetChunk size extensible 8 limit #[]

/-- Octets are skipped in step. -/
theorem skipOctets (count : Nat) :
    InStep R (OpenType.skipOctets count : Unpacker σ Unit) (OpenType.skipOctets count) := by
  induction count using OpenType.stepwise with
  | zero =>
    rw [OpenType.skipOctets_zero, OpenType.skipOctets_zero]
    exact inStep_pure ()
  | step count more ih =>
    rw [OpenType.skipOctets_pos more, OpenType.skipOctets_pos more]
    exact (h.run _ _ _).bind fun _ => ih

/-- An open type is skipped in step. -/
theorem skipOpenType : InStep R (OpenType.skip : Unpacker σ Unit) OpenType.skip :=
  h.unpackSized (fun _ count => h.skipOctets count) .free false 8 none ()

/-- A bit string is read in step. -/
theorem unpackBits (size : Bounds Nat) (extensible : Bool) (limit : Option Nat) :
    InStep R (BitString.unpack size extensible limit : Unpacker σ BitString) (BitString.unpack size extensible limit) := by
  refine (h.unpackSized (fun sofar count => ?_) size extensible 1 limit (#[], 0)).bind fun _ => inStep_pure _
  exact (h.run _ _ _).bind fun _ => inStep_pure _

/-- A character is read in step. -/
theorem unpackCharacter (alphabet : Alphabet) (index : Nat) :
    InStep R (CharacterString.unpackCharacter alphabet index : Unpacker σ UInt8)
      (CharacterString.unpackCharacter alphabet index) := by
  refine (h.bitsBelow 0 _).bind fun code => ?_
  split
  · exact inStep_throw _
  · exact inStep_ite (inStep_pure _) (inStep_throw _)

/-- Some characters are read in step. -/
theorem unpackCharacters (alphabet : Alphabet) (text : Octets) (count : Nat) :
    InStep R (CharacterString.unpackCharacters alphabet text count : Unpacker σ Octets)
      (CharacterString.unpackCharacters alphabet text count) := by
  induction count generalizing text with
  | zero => exact inStep_pure text
  | succ count ih => exact (h.unpackCharacter alphabet text.size).bind fun octet => ih (text.push octet)

/-- A character string is read in step. -/
theorem unpackText (alphabet : Alphabet) (size : Bounds Nat) (extensible : Bool) (limit : Option Nat) :
    InStep R (CharacterString.unpack alphabet size extensible limit : Unpacker σ Octets)
      (CharacterString.unpack alphabet size extensible limit) := by
  unfold CharacterString.unpack
  split
  · exact (h.unpackOctets .free false limit).bind fun _ => inStep_ite (inStep_pure _) (inStep_throw _)
  · exact h.unpackSized (h.unpackCharacters alphabet) size extensible alphabet.bitsPerCharacter limit #[]

/-! ## Whole numbers and indices -/

/-- A number between two words is read in step. -/
theorem unpackWithin (lower upper : UInt64) :
    InStep R (WholeNumber.unpackWithin lower upper : Unpacker σ UInt64) (WholeNumber.unpackWithin lower upper) :=
  (h.word _).bind fun _ => inStep_ite ((inStep_throw _).bind fun _ => inStep_pure _) (inStep_pure _)

/-- The number of octets of a number is read in step. -/
theorem unpackOctetCount : InStep R (WholeNumber.unpackOctetCount : Unpacker σ Nat) WholeNumber.unpackOctetCount := by
  refine h.unpackLengthFree.bind fun chunk => ?_
  have hcount : InStep R (if chunk.units = 0 then throw (.unsupported .emptyInteger) else pure chunk.units : Unpacker σ Nat)
      (if chunk.units = 0 then throw (.unsupported .emptyInteger) else pure chunk.units) :=
    inStep_ite (inStep_throw _) (inStep_pure _)
  exact inStep_ite ((inStep_throw _).bind fun _ => hcount) hcount

/-- The magnitude of a number is read in step. -/
theorem unpackMagnitude : InStep R (WholeNumber.unpackMagnitude : Unpacker σ UInt64) WholeNumber.unpackMagnitude :=
  h.unpackOctetCount.bind fun _ => h.word _

/-- A number without bounds is read in step. -/
theorem unpackNumberFree : InStep R (WholeNumber.unpackFree : Unpacker σ Int64) WholeNumber.unpackFree :=
  h.unpackOctetCount.bind fun _ => (h.word _).bind fun _ => inStep_pure _

/-- A number that is normally small is read in step. -/
theorem unpackSmall : InStep R (WholeNumber.unpackSmall : Unpacker σ UInt64) WholeNumber.unpackSmall :=
  h.bit.bind fun _ => inStep_ite h.unpackMagnitude (h.word 6)

/-- A number between the bounds of a type is read in step. -/
theorem unpackNumber (bounds : Bounds Int64) :
    InStep R (WholeNumber.unpackRoot bounds : Unpacker σ Int64) (WholeNumber.unpackRoot bounds) := by
  unfold WholeNumber.unpackRoot
  split
  · refine inStep_ite (inStep_throw _) ((h.word _).bind fun _ => ?_)
    exact inStep_ite ((inStep_throw _).bind fun _ => inStep_pure _) (inStep_pure _)
  · exact h.unpackMagnitude.bind fun _ => inStep_ite ((inStep_throw _).bind fun _ => inStep_pure _) (inStep_pure _)
  · exact h.unpackNumberFree

/-- An integer is read in step. -/
theorem unpackInteger (bounds : Bounds Int64) (extensible : Bool) :
    InStep R (WholeNumber.unpackInteger bounds extensible : Unpacker σ Int64)
      (WholeNumber.unpackInteger bounds extensible) :=
  inStep_ite (h.bit.bind fun _ => inStep_ite h.unpackNumberFree (h.unpackNumber bounds)) (h.unpackNumber bounds)

/-- A number that is out of range gets a fault of its own, on both sides. -/
theorem unpackRootIndex (standard : Nat) :
    InStep R (ChoiceIndex.unpackRoot standard : Unpacker σ UInt64) (ChoiceIndex.unpackRoot standard) := by
  refine inStep_ite (inStep_throw _) fun s t hr => ?_
  rcases (h.unpackWithin 0 (ChoiceIndex.lastRoot standard)).cases hr with
    ⟨x, s', t', hs, ht, hr'⟩ | ⟨fault, s', t', hs, ht, hr'⟩
  · simp only [outcome, hs, ht]
    exact ⟨trivial, hr'⟩
  · simp only [outcome, hs, ht]
    cases fault <;> exact ⟨rfl, hr'⟩

/-- The index of an alternative is read in step. -/
theorem unpackIndex (standard : Nat) (extensible : Bool) :
    InStep R (ChoiceIndex.unpack standard extensible : Unpacker σ UInt64) (ChoiceIndex.unpack standard extensible) := by
  refine inStep_ite (h.bit.bind fun _ => inStep_ite (h.unpackSmall.bind fun offset => ?_) (h.unpackRootIndex standard))
    (h.unpackRootIndex standard)
  exact inStep_ite ((inStep_throw _).bind fun _ => inStep_pure _) (inStep_pure _)

end Linked

end UnalignedPer
