import UnalignedPer.Proofs.Message.Reading

/-!
# Reading under greater limits

The settings limit how long a content may be and how deep containers may nest. `Reader.Eases` compares two readers of the same
bits, of which the second may have greater limits: what the first one reads the second one reads as well, and it has a property,
such as to keep within the limits of the first one.

Most contents do not ask for the settings. Those of a bounded size count their units and check the sum before each chunk.
-/

namespace UnalignedPer

/-- Both limits of `settings` are at most those of `settings'`. -/
structure Settings.Within (settings settings' : Settings) : Prop where
  /-- Containers may nest as deep. -/
  depth : settings.maxDepth ≤ settings'.maxDepth
  /-- Contents may be as long. -/
  length : settings.maxLength ≤ settings'.maxLength

namespace Reader

variable {α β : Type} {depth : Nat} {settings : Settings}

/-- `t` stands where `r` stands, at a depth and under some settings, but it may have greater limits. -/
structure Eased (depth : Nat) (settings : Settings) (r t : Reader) : Prop where
  /-- The second one may have greater limits. -/
  within : settings.Within t.settings
  /-- The first one is under the settings. -/
  under : r.settings = settings
  /-- The first one is at the depth. -/
  at_depth : r.depth = depth
  /-- The second one is at the depth. -/
  at_depth_greater : t.depth = depth
  /-- The same bits are ahead. -/
  view : t.view = r.view
  /-- The same presence bits are in sight. -/
  presence : t.presence = r.presence
  /-- The same field is claimed. -/
  claimed : t.claimed = r.claimed
  /-- The extension marker is the same. -/
  marker : t.marker = r.marker

/-- A reader stands where it stands. -/
theorem Eased.refl (r : Reader) : Eased r.depth r.settings r r :=
  ⟨⟨Nat.le_refl _, UInt64.le_refl _⟩, rfl, rfl, rfl, rfl, rfl, rfl, rfl⟩

/-- What `m` reads has a property, and `m'` reads it under limits that are as great. -/
def Eases (depth : Nat) (settings : Settings) (m m' : ReaderM α) (P : α → Prop) : Prop :=
  ∀ ⦃r t x r'⦄, Eased depth settings r t → m r = .ok x r' → P x ∧ ∃ t', m' t = .ok x t' ∧ Eased depth settings r' t'

/-- Under greater limits the same is read. -/
def Steady (m : ReaderM α) : Prop :=
  ∀ depth settings, Eases depth settings m m fun _ => True

/-! ## How the statements chain -/

/-- A result that has the property is eased. -/
theorem eases_pure {P : α → Prop} {x : α} (h : P x) : Eases depth settings (pure x) (pure x) P := by
  intro r t y r' he hm
  cases hm
  exact ⟨h, t, rfl, he⟩

/-- A failure is eased by anything. -/
theorem eases_throw (fault : Fault) (m' : ReaderM α) (P : α → Prop) : Eases depth settings (throw fault) m' P := by
  intro r t x r' _ hm
  cases hm

/-- Two eased actions are eased one after the other; the second may count on the property of the first result. -/
theorem Eases.bind {m m' : ReaderM α} {f f' : α → ReaderM β} {P : α → Prop} {Q : β → Prop} (h : Eases depth settings m m' P)
    (h' : ∀ x, P x → Eases depth settings (f x) (f' x) Q) : Eases depth settings (m >>= f) (m' >>= f') Q := by
  intro r t y r'' he hm
  rw [run_bind] at hm
  cases hx : m r with
  | error fault r' =>
    rw [hx] at hm
    cases hm
  | ok x r' =>
    rw [hx] at hm
    obtain ⟨hp, t', hx', he'⟩ := h he hx
    obtain ⟨hq, t'', hm', he''⟩ := h' x hp he' hm
    exact ⟨hq, t'', by rw [run_bind, hx']; exact hm', he''⟩

/-- A function of an eased result is eased. -/
theorem Eases.map {m m' : ReaderM α} {P : α → Prop} {Q : β → Prop} (f : α → β) (h : Eases depth settings m m' P)
    (h' : ∀ x, P x → Q (f x)) : Eases depth settings (f <$> m) (f <$> m') Q := by
  rw [← bind_pure_comp, ← bind_pure_comp]
  exact h.bind fun x hx => eases_pure (h' x hx)

/-- An eased result may be known by less. -/
theorem Eases.weaken {m m' : ReaderM α} {P Q : α → Prop} (h : Eases depth settings m m' P) (h' : ∀ x, P x → Q x) :
    Eases depth settings m m' Q :=
  fun _ _ x _ he hm => ⟨h' x (h he hm).1, (h he hm).2⟩

/-- What is known of any reader is known as well. -/
theorem Eases.and_gives {m m' : ReaderM α} {P Q : α → Prop} (h : Eases depth settings m m' P)
    (h' : ∀ r : Reader, Unpacker.Gives r m Q) : Eases depth settings m m' fun x => P x ∧ Q x :=
  fun r _ _ _ he hm => ⟨⟨(h he hm).1, (h' r hm).1⟩, (h he hm).2⟩

/-- A choice between eased actions is eased, each under its condition. -/
theorem eases_ite {c : Prop} [Decidable c] {m m' n n' : ReaderM α} {P : α → Prop} (h : c → Eases depth settings m m' P)
    (h' : ¬c → Eases depth settings n n' P) : Eases depth settings (if c then m else n) (if c then m' else n') P := by
  by_cases hc : c
  · rw [if_pos hc, if_pos hc]
    exact h hc
  · rw [if_neg hc, if_neg hc]
    exact h' hc

/-- What follows may go by all that the two readers have in common. -/
theorem eases_get_bind {f f' : Reader → ReaderM β} {P : β → Prop}
    (h : ∀ r t, Eased depth settings r t → Eases depth settings (f r) (f' t) P) :
    Eases depth settings (get >>= f) (get >>= f') P :=
  fun r t _ _ he hm => h r t he he hm

/-- A change that takes neither reader away from the other. -/
theorem eases_modify {f f' : Reader → Reader} (h : ∀ r t, Eased depth settings r t → Eased depth settings (f r) (f' t)) :
    Eases depth settings (modify f) (modify f') fun _ => True := by
  intro r t x r' he hm
  cases hm
  exact ⟨trivial, f' t, rfl, h r t he⟩

/-- An action at another depth or under other presence bits, which are put back. -/
theorem Eases.between {m m' : ReaderM α} {P : α → Prop} {depth' : Nat} (enter enter' : Reader → Reader)
    (leave leave' : Reader → Reader → Reader) (h : Eases depth' settings m m' P)
    (henter : ∀ r t, Eased depth settings r t → Eased depth' settings (enter r) (enter' t))
    (hleave : ∀ r t, Eased depth settings r t → ∀ r' t', Eased depth' settings r' t' →
      Eased depth settings (leave r r') (leave' t t')) :
    Eases depth settings (fun r => afterwards (leave r) m (enter r)) (fun t => afterwards (leave' t) m' (enter' t)) P := by
  intro r t x r' he hm
  simp only [afterwards] at hm ⊢
  split at hm
  · rename_i y r1 hy
    cases hm
    obtain ⟨hp, t1, hy', he'⟩ := h (henter r t he) hy
    exact ⟨hp, leave' t t1, by rw [hy'], hleave r t he r1 t1 he'⟩
  · cases hm

section Steady

variable {m : ReaderM α}

/-- A result alone is steady. -/
theorem steady_pure (x : α) : Steady (pure x) :=
  fun _ _ => eases_pure trivial

/-- A failure is steady. -/
theorem steady_throw (fault : Fault) : Steady (throw fault : ReaderM α) :=
  fun _ _ => eases_throw fault _ _

/-- Steady actions are steady one after the other. -/
theorem Steady.bind {f : α → ReaderM β} (h : Steady m) (h' : ∀ x, Steady (f x)) : Steady (m >>= f) :=
  fun depth settings => (h depth settings).bind fun x _ => h' x depth settings

/-- A function of a steady result is steady. -/
theorem Steady.map (f : α → β) (h : Steady m) : Steady (f <$> m) :=
  fun depth settings => (h depth settings).map f fun _ _ => trivial

/-- A choice between steady actions is steady. -/
theorem steady_ite {c : Prop} [Decidable c] {n : ReaderM α} (h : Steady m) (h' : Steady n) : Steady (if c then m else n) :=
  fun depth settings => eases_ite (fun _ => h depth settings) fun _ => h' depth settings

end Steady

/-! ## Bits -/

/-- What is read from the bits ahead does not ask for the settings. -/
theorem steady_onView (action : EStateM Fault BitView α) : Steady (onView action) := by
  intro depth settings r t x r' he hm
  unfold onView at hm ⊢
  rw [he.view]
  cases hx : action r.view with
  | error fault v =>
    rw [hx] at hm
    cases hm
  | ok y v =>
    rw [hx] at hm
    cases hm
    exact ⟨trivial, { t with view := v }, rfl, { he with view := rfl }⟩

/-- A bit is read under any limits. -/
theorem steady_bit : Steady Unpacker.bit :=
  steady_onView BitView.readBit

/-- A run of bits is read under any limits. -/
theorem steady_run (dst : Octets) (offset length : Nat) : Steady (Unpacker.run dst offset length) :=
  steady_onView (BitView.readInto dst offset length)

/-- How many bits are left is the same under any limits. -/
theorem steady_remaining : Steady Unpacker.remaining := by
  intro depth settings r t x r' he hm
  cases hm
  refine ⟨trivial, t, ?_, he⟩
  exact congrArg (EStateM.Result.ok · t) (congrArg BitView.remaining he.view)

/-- Bits below a greatest value are read under any limits. -/
theorem steady_bitsBelow (high : UInt64) (width : Nat) : Steady (Unpacker.bitsBelow high width) := by
  induction width generalizing high with
  | zero => exact steady_pure high
  | succ width ih => exact steady_bit.bind fun _ => ih _

/-- A word is read under any limits. -/
theorem steady_word (width : Nat) : Steady (Unpacker.word width) :=
  steady_ite ((steady_throw _).bind fun _ => steady_remaining.bind fun _ =>
    steady_ite ((steady_throw _).bind fun _ => steady_bitsBelow 0 width) (steady_bitsBelow 0 width))
    (steady_remaining.bind fun _ =>
      steady_ite ((steady_throw _).bind fun _ => steady_bitsBelow 0 width) (steady_bitsBelow 0 width))

/-! ## Numbers and indices -/

/-- A length of a fixed width is read under any limits. -/
theorem steady_unpackWidth (width : Nat) : Steady (LengthDeterminant.unpackWidth width) :=
  (steady_word width).map _

/-- A length without bounds is read under any limits. -/
theorem steady_unpackLengthFree : Steady LengthDeterminant.unpackFree := by
  refine steady_bit.bind fun isLong => steady_ite ((steady_unpackWidth 7).bind fun _ => steady_pure _) ?_
  refine steady_bit.bind fun isFragment => steady_ite ((steady_unpackWidth 14).bind fun _ => steady_pure _) ?_
  exact (steady_unpackWidth 6).bind fun units => steady_ite ((steady_throw _).bind fun _ => steady_pure _) (steady_pure _)

/-- A length is read under any limits; only what is done with it asks for them. -/
theorem steady_unpackLength (bounds : Bounds Nat) : Steady (LengthDeterminant.unpack bounds) := by
  unfold LengthDeterminant.unpack
  split
  · refine steady_ite (steady_throw _) ((steady_unpackWidth _).bind fun offset => ?_)
    exact steady_ite ((steady_throw _).bind fun _ => steady_pure _) (steady_pure _)
  · exact steady_unpackLengthFree

/-- A number between two words is read under any limits. -/
theorem steady_unpackWithin (lower upper : UInt64) : Steady (WholeNumber.unpackWithin lower upper) :=
  (steady_word _).bind fun _ => steady_ite ((steady_throw _).bind fun _ => steady_pure _) (steady_pure _)

/-- The number of octets of a number is read under any limits. -/
theorem steady_unpackOctetCount : Steady WholeNumber.unpackOctetCount := by
  refine steady_unpackLengthFree.bind fun chunk => ?_
  have hcount : Steady (if chunk.units = 0 then throw (.unsupported .emptyInteger) else pure chunk.units : ReaderM Nat) :=
    steady_ite (steady_throw _) (steady_pure _)
  exact steady_ite ((steady_throw _).bind fun _ => hcount) hcount

/-- The magnitude of a number is read under any limits. -/
theorem steady_unpackMagnitude : Steady WholeNumber.unpackMagnitude :=
  steady_unpackOctetCount.bind fun _ => steady_word _

/-- A number without bounds is read under any limits. -/
theorem steady_unpackSignedFree : Steady WholeNumber.unpackFree :=
  steady_unpackOctetCount.bind fun _ => (steady_word _).bind fun _ => steady_pure _

/-- A number that is normally small is read under any limits. -/
theorem steady_unpackSmall : Steady WholeNumber.unpackSmall :=
  steady_bit.bind fun _ => steady_ite steady_unpackMagnitude (steady_word 6)

/-- A number between the bounds of a type is read under any limits. -/
theorem steady_unpackNumber (bounds : Bounds Int64) : Steady (WholeNumber.unpackRoot bounds) := by
  unfold WholeNumber.unpackRoot
  split
  · refine steady_ite (steady_throw _) ((steady_word _).bind fun _ => ?_)
    exact steady_ite ((steady_throw _).bind fun _ => steady_pure _) (steady_pure _)
  · exact steady_unpackMagnitude.bind fun _ => steady_ite ((steady_throw _).bind fun _ => steady_pure _) (steady_pure _)
  · exact steady_unpackSignedFree

/-- An integer is read under any limits, inside its bounds or past them. -/
theorem steady_unpackInteger (bounds : Bounds Int64) (extensible : Bool) :
    Steady (WholeNumber.unpackInteger bounds extensible) :=
  steady_ite (steady_bit.bind fun _ => steady_ite steady_unpackSignedFree (steady_unpackNumber bounds))
    (steady_unpackNumber bounds)

/-- A number that is out of range gets a fault of its own; what is read is not changed. -/
theorem steady_unpackRootIndex (standard : Nat) : Steady (ChoiceIndex.unpackRoot standard) := by
  refine steady_ite (steady_throw _) fun depth settings r t x r' he hm => ?_
  have hx : WholeNumber.unpackWithin 0 (ChoiceIndex.lastRoot standard) r = .ok x r' := by
    split at hm
    · cases hm
    · exact hm
  obtain ⟨-, t', ht, he'⟩ := steady_unpackWithin 0 (ChoiceIndex.lastRoot standard) depth settings he hx
  exact ⟨trivial, t', by simp only [ht], he'⟩

/-- The index of an alternative is read under any limits. -/
theorem steady_choiceIndex (standard : Nat) (extensible : Bool) : Steady (ChoiceIndex.unpack standard extensible) := by
  refine steady_ite (steady_bit.bind fun _ => steady_ite (steady_unpackSmall.bind fun offset => ?_)
    (steady_unpackRootIndex standard)) (steady_unpackRootIndex standard)
  exact steady_ite ((steady_throw _).bind fun _ => steady_pure _) (steady_pure _)

/-! ## Contents of a bounded size -/

/-- A total beyond the second limit is beyond the first one as well. -/
def LimitLe (limit limit' : Option Nat) : Prop :=
  ∀ total, limit'.any (· < total) = true → limit.any (· < total) = true

section Sized

variable {limit limit' : Option Nat} {consume consume' : α → Nat → ReaderM α} {Inv : Nat → α → Prop}

/-- What is known after some units is known after some more, whatever the limits. -/
def EasesUnits (depth : Nat) (settings : Settings) (consume consume' : α → Nat → ReaderM α) (Inv : Nat → α → Prop) : Prop :=
  ∀ total sofar count, Inv total sofar → Eases depth settings (consume sofar count) (consume' sofar count) (Inv (total + count))

/-- A total that is let through is within the limit. -/
theorem eases_checkChunk (hl : LimitLe limit limit') (unitBits total units : Nat) :
    Eases depth settings (SizedContent.checkChunk unitBits limit total units)
      (SizedContent.checkChunk unitBits limit' total units) fun _ => ¬limit.any (· < total) = true := by
  have hbits : ∀ P : Prop, P → Eases depth settings
      (do
        let ahead ← Unpacker.remaining
        if unitBits ≠ 0 ∧ units * unitBits % UInt64.size > ahead then throw .endOfStream : ReaderM Unit)
      (do
        let ahead ← Unpacker.remaining
        if unitBits ≠ 0 ∧ units * unitBits % UInt64.size > ahead then throw .endOfStream) fun _ => P :=
    fun P hp => (steady_remaining depth settings).bind fun _ _ => eases_ite (fun _ => eases_throw _ _ _) fun _ => eases_pure hp
  unfold SizedContent.checkChunk
  by_cases h : limit.any (· < total) = true
  · rw [if_pos h]
    intro r t x r' _ hm
    cases hm
  · rw [if_neg h, if_neg fun h' => h (hl total h')]
    exact hbits _ h

/-- What is read of chunks from some point on is read under a greater limit too, and the sum of the chunks is within the first
limit. -/
theorem eases_unpackFrom (hl : LimitLe limit limit') (hc : EasesUnits depth settings consume consume' Inv)
    (bounds : Bounds Nat) (unitBits fuel : Nat) :
    ∀ total sofar chunk, Inv total sofar →
      Eases depth settings (SizedContent.unpackFrom bounds unitBits limit consume total sofar chunk fuel)
        (SizedContent.unpackFrom bounds unitBits limit' consume' total sofar chunk fuel)
        fun found => Inv found.1 found.2 ∧ ¬limit.any (· < found.1) = true := by
  induction fuel with
  | zero => exact fun total sofar chunk _ => eases_throw _ _ _
  | succ fuel ih =>
    intro total sofar chunk hi
    refine (eases_checkChunk hl unitBits (total + chunk.units) chunk.units).bind fun _ hle => ?_
    refine (hc total sofar chunk.units hi).bind fun next hn => ?_
    refine eases_ite (fun _ => ?_) fun _ => eases_pure ⟨hn, hle⟩
    exact (steady_unpackLength bounds depth settings).bind fun chunk' _ => ih _ next chunk' hn

variable (hl : LimitLe limit limit') (hc : EasesUnits depth settings consume consume' Inv)

include hl hc

/-- What is read of counted units is read under a greater limit too, and they are no more than the first limit allows. -/
theorem eases_unpackCounted (size : Bounds Nat) (unitBits : Nat) (start : α) (hi : Inv 0 start) :
    Eases depth settings (SizedContent.unpackCounted size unitBits limit start consume)
      (SizedContent.unpackCounted size unitBits limit' start consume')
      fun found => ∃ total, Inv total found ∧ ¬limit.any (· < total) = true := by
  refine (steady_remaining depth settings).bind fun ahead _ => ?_
  refine (steady_unpackLength _ depth settings).bind fun chunk _ => ?_
  refine (eases_unpackFrom hl hc _ unitBits (ahead + 1) 0 start chunk hi).bind ?_
  rintro ⟨total, found⟩ h
  exact eases_ite (fun _ => eases_pure ⟨total, h⟩) fun _ => eases_throw _ _ _

/-- What is read of a content of a bounded size is read under a greater limit too, within the first limit. -/
theorem eases_unpackRoot (size : Bounds Nat) (unitBits : Nat) (start : α) (hi : Inv 0 start) :
    Eases depth settings (SizedContent.unpackRoot size unitBits limit start consume)
      (SizedContent.unpackRoot size unitBits limit' start consume')
      fun found => ∃ total, Inv total found ∧ ¬limit.any (· < total) = true := by
  refine eases_ite (fun _ => eases_pure ⟨0, hi, ?_⟩) fun _ => ?_
  · cases limit <;> simp
  · split
    · rename_i count _
      refine (eases_checkChunk hl unitBits count count).bind fun _ hle => ?_
      have hcount := hc 0 start count hi
      rw [Nat.zero_add] at hcount
      exact hcount.weaken fun found hf => ⟨count, hf, hle⟩
    · exact eases_unpackCounted hl hc size unitBits start hi

/-- The units of a sized content are within the limit, and a greater limit admits them as well. -/
theorem eases_sized (size : Bounds Nat) (extensible : Bool) (unitBits : Nat) (start : α) (hi : Inv 0 start) :
    Eases depth settings (SizedContent.unpack size extensible unitBits limit start consume)
      (SizedContent.unpack size extensible unitBits limit' start consume')
      fun found => ∃ total, Inv total found ∧ ¬limit.any (· < total) = true := by
  refine eases_ite (fun _ => (steady_bit depth settings).bind fun _ _ => ?_) fun _ =>
    eases_unpackRoot hl hc size unitBits start hi
  exact eases_ite (fun _ => eases_unpackCounted hl hc .free unitBits start hi) fun _ =>
    eases_unpackRoot hl hc size unitBits start hi

end Sized

/-- The limit of the settings. -/
theorem limitLe_some {n n' : Nat} (h : n ≤ n') : LimitLe (some n) (some n') := by
  intro total ht
  simp only [Option.any_some, decide_eq_true_eq] at ht ⊢
  omega

/-- A total that is not past a limit is at most the limit. -/
theorem le_of_not_any {n total : Nat} (h : ¬(some n).any (· < total) = true) : total ≤ n := by
  simpa using h

section Strings

variable {limit limit' : Nat} (hl : limit ≤ limit')

/-- Octets are counted as they are read. -/
theorem easesUnits_octets : EasesUnits depth settings OctetString.unpackChunk OctetString.unpackChunk
    fun total (data : Octets) => data.size = total := by
  intro total sofar count hi
  refine ((steady_run _ _ _ depth settings).and_gives fun r => Unpacker.gives_run r _ _ _).weaken ?_
  rintro data ⟨-, hd⟩
  rw [hd, Octets.size_growTo, hi]
  omega

include hl

/-- An octet string is read under a greater limit too, and is no longer than the first one allows. -/
theorem eases_octetString (size : Bounds Nat) (extensible : Bool) :
    Eases depth settings (OctetString.unpack size extensible (some limit)) (OctetString.unpack size extensible (some limit'))
      fun data => data.size ≤ limit := by
  refine (eases_sized (limitLe_some hl) easesUnits_octets size extensible 8 #[] rfl).weaken ?_
  rintro data ⟨total, rfl, hle⟩
  exact le_of_not_any hle

/-- A bit string is read under a greater limit too, and is no longer than the first one allows. -/
theorem eases_bitString (size : Bounds Nat) (extensible : Bool) :
    Eases depth settings (BitString.unpack size extensible (some limit)) (BitString.unpack size extensible (some limit'))
      fun run => run.length.toNat ≤ limit := by
  have hchunk : EasesUnits depth settings BitString.unpackChunk BitString.unpackChunk
      fun total (found : Octets × Nat) => found.2 = total := by
    rintro total ⟨octets, length⟩ count rfl
    exact (steady_run _ _ _ depth settings).bind fun _ _ => eases_pure rfl
  refine (eases_sized (limitLe_some hl) hchunk size extensible 1 (#[], 0) rfl).bind ?_
  rintro ⟨octets, length⟩ ⟨total, rfl, hle⟩
  refine eases_pure ?_
  have hlength := le_of_not_any hle
  dsimp only at hlength ⊢
  rw [UInt64.toNat_ofNat']
  exact Nat.le_trans (Nat.mod_le _ _) hlength

/-- A character string is read under a greater limit too, and is no longer than the first one allows. -/
theorem eases_characterString (alphabet : Alphabet) (size : Bounds Nat) (extensible : Bool) :
    Eases depth settings (CharacterString.unpack alphabet size extensible (some limit))
      (CharacterString.unpack alphabet size extensible (some limit')) fun text => text.size ≤ limit := by
  have hchars : EasesUnits depth settings (CharacterString.unpackCharacters alphabet) (CharacterString.unpackCharacters alphabet)
      fun total (text : Octets) => text.size = total := by
    intro total text count hi
    induction count generalizing total text with
    | zero => exact eases_pure hi
    | succ count ih =>
      have hchar : Steady (CharacterString.unpackCharacter alphabet text.size) := by
        refine (steady_bitsBelow 0 _).bind fun code => ?_
        split
        · exact steady_throw _
        · exact steady_ite (steady_pure _) (steady_throw _)
      refine (hchar depth settings).bind fun octet _ => ?_
      rw [← Nat.add_assoc, Nat.add_right_comm]
      exact ih (total + 1) (text.push octet) (by rw [Array.size_push, hi])
  unfold CharacterString.unpack
  split
  · refine (eases_octetString hl .free false).bind fun text ht => ?_
    exact eases_ite (fun _ => eases_pure ht) fun _ => eases_throw _ _ _
  · refine (eases_sized (limitLe_some hl) hchars size extensible alphabet.bitsPerCharacter #[] rfl).weaken ?_
    rintro text ⟨total, rfl, hle⟩
    exact le_of_not_any hle

end Strings

/-- Octets are skipped under any limits. -/
theorem steady_skipOctets (count : Nat) : Steady (OpenType.skipOctets count) := by
  induction count using OpenType.stepwise with
  | zero =>
    rw [OpenType.skipOctets_zero]
    exact steady_pure ()
  | step count more ih =>
    rw [OpenType.skipOctets_pos more]
    exact (steady_run _ _ _).bind fun _ => ih

/-- An open type is skipped whatever its length. -/
theorem steady_openTypeSkip : Steady OpenType.skip := by
  intro depth settings
  have hoctets : EasesUnits depth settings (fun (_ : Unit) count => OpenType.skipOctets count)
      (fun (_ : Unit) count => OpenType.skipOctets count) fun _ _ => True :=
    fun _ _ count _ => (steady_skipOctets count depth settings).weaken fun _ _ => trivial
  exact (eases_sized (fun _ h => h) hoctets .free false 8 () trivial).weaken fun _ _ => trivial

end Reader

end UnalignedPer
