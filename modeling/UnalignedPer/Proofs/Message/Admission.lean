import UnalignedPer.Proofs.Cost
import UnalignedPer.Proofs.Message.Reading
import UnalignedPer.Proofs.Text.CharacterString

/-!
# What a reader lets through

`Reader.Admits` says what is known of a result that was read, from whatever bits and wherever presence bits stand: reading
fails, or the result has a property. It speaks of readers at a depth and under some settings, which reading keeps.

Nothing is said about which presence bits are looked at. A sequence reads what its fields read, and what is skipped at its end
leaves no result.
-/

namespace UnalignedPer

namespace Reader

variable {α β : Type} {room depth : Nat} {settings : Settings}

/-- `r'` is `r` after something was read. Presence bits that were out of sight stay there, and no field is claimed. -/
structure Went (r r' : Reader) : Prop where
  /-- The cursor has moved over bits that were ahead. -/
  view : ∃ n, LawfulBitSource.Moved r.view n r'.view
  /-- Outside of a sequence no presence bits come into sight. -/
  presence : r.presence = none → r'.presence = none
  /-- No field is claimed. -/
  claimed : r'.claimed = none
  /-- The extension marker is the same. -/
  marker : r'.marker = r.marker
  /-- As many containers lie around the place of reading. -/
  depth : r'.depth = r.depth
  /-- The settings are the same. -/
  settings : r'.settings = r.settings
  /-- The same steps have come to their end. -/
  steps : r'.steps = r.steps

/-- Where no field is claimed, reading nothing goes nowhere. -/
theorem Went.refl {r : Reader} (h : r.claimed = none) : r.Went r :=
  ⟨⟨0, LawfulBitSource.moved_refl _⟩, id, h, rfl, rfl, rfl, rfl⟩

/-- What was read in two goes was read. -/
theorem Went.trans {r r' r'' : Reader} (h : r.Went r') (h' : r'.Went r'') : r.Went r'' := by
  obtain ⟨m, hm⟩ := h.view
  obtain ⟨n, hn⟩ := h'.view
  exact ⟨⟨m + n, LawfulBitSource.moved_trans hm hn⟩, fun hp => h'.presence (h.presence hp), h'.claimed,
    h'.marker.trans h.marker, h'.depth.trans h.depth, h'.settings.trans h.settings, h'.steps.trans h.steps⟩

/-- Moving keeps all but the cursor. -/
theorem Went.of_moved {r r' : Reader} {n : Nat} (h : r.claimed = none) (hm : LawfulBitSource.Moved r n r') : r.Went r' :=
  ⟨⟨n, hm.1.view⟩, fun hp => hm.2.trans hp, hm.1.claimed.trans h, hm.1.marker, hm.1.depth, hm.1.settings, hm.1.steps⟩

/-- Outside of a sequence the cursor is all that has moved. -/
theorem Went.moved {r r' : Reader} (h : r.Went r') (hp : r.presence = none) (hc : r.claimed = none) :
    ∃ n, LawfulBitSource.Moved r n r' := by
  obtain ⟨n, hn⟩ := h.view
  exact ⟨n, ⟨hn, h.claimed.trans hc.symm, h.marker, h.depth, h.settings, h.steps⟩, (h.presence hp).trans hp.symm⟩

/-- There are no more bits ahead. -/
theorem Went.remaining_le {r r' : Reader} (h : r.Went r') : r'.view.remaining ≤ r.view.remaining := by
  obtain ⟨n, hn⟩ := h.view
  exact LawfulBitSource.remaining_le hn

/-- Whatever is read from at most `room` bits at a depth and under some settings, once a field was entered, has a property. -/
def Admits (room depth : Nat) (settings : Settings) (m : ReaderM α) (P : α → Prop) : Prop :=
  ∀ ⦃r x r'⦄, r.view.remaining ≤ room → r.depth = depth → r.settings = settings → r.claimed = none → m r = .ok x r' →
    P x ∧ r.Went r'

/-- Whatever is read as a field has a property. -/
def AdmitsField (room depth : Nat) (settings : Settings) (m : ReaderM α) (P : α → Prop) : Prop :=
  ∀ ⦃r x r'⦄, r.view.remaining ≤ room → r.depth = depth → r.settings = settings → m r = .ok x r' → P x ∧ r.Went r'

/-- What is known of any reader is known of one that has entered its field. -/
theorem AdmitsField.admits {m : ReaderM α} {P : α → Prop} (h : AdmitsField room depth settings m P) :
    Admits room depth settings m P :=
  fun _ _ _ hr hd hs _ hm => h hr hd hs hm

/-! ## How the statements chain -/

/-- A result that has the property is admitted. -/
theorem admits_pure {P : α → Prop} {x : α} (h : P x) : Admits room depth settings (pure x) P := by
  intro r y r' _ _ _ hc hm
  cases hm
  exact ⟨h, .refl hc⟩

/-- A failure admits anything. -/
theorem admits_throw (fault : Fault) (P : α → Prop) : Admits room depth settings (throw fault) P := by
  intro r y r' _ _ _ _ hm
  cases hm

/-- What follows an admitted result may count on its property, with as many bits ahead at most. -/
theorem Admits.bind {m : ReaderM α} {f : α → ReaderM β} {P : α → Prop} {Q : β → Prop} (h : Admits room depth settings m P)
    (h' : ∀ x, P x → Admits room depth settings (f x) Q) : Admits room depth settings (m >>= f) Q := by
  intro r y r'' hr hd hs hc hm
  simp only [run_bind] at hm
  split at hm
  · rename_i x r' hx
    obtain ⟨hp, hw⟩ := h hr hd hs hc hx
    obtain ⟨hq, hw'⟩ := h' x hp (Nat.le_trans hw.remaining_le hr) (hw.depth.trans hd) (hw.settings.trans hs) hw.claimed hm
    exact ⟨hq, hw.trans hw'⟩
  · cases hm

/-- A field first, and then what follows it. -/
theorem AdmitsField.bind {m : ReaderM α} {f : α → ReaderM β} {P : α → Prop} {Q : β → Prop}
    (h : AdmitsField room depth settings m P) (h' : ∀ x, P x → Admits room depth settings (f x) Q) :
    AdmitsField room depth settings (m >>= f) Q := by
  intro r y r'' hr hd hs hm
  simp only [run_bind] at hm
  split at hm
  · rename_i x r' hx
    obtain ⟨hp, hw⟩ := h hr hd hs hx
    obtain ⟨hq, hw'⟩ := h' x hp (Nat.le_trans hw.remaining_le hr) (hw.depth.trans hd) (hw.settings.trans hs) hw.claimed hm
    exact ⟨hq, hw.trans hw'⟩
  · cases hm

/-- A function of the value of a field is a value of a field. -/
theorem AdmitsField.map {m : ReaderM α} {P : α → Prop} {Q : β → Prop} (f : α → β) (h : AdmitsField room depth settings m P)
    (h' : ∀ x, P x → Q (f x)) : AdmitsField room depth settings (f <$> m) Q := by
  intro r y r' hr hd hs hm
  simp only [run_map] at hm
  split at hm
  · rename_i x r1 hx
    cases hm
    obtain ⟨hp, hw⟩ := h hr hd hs hx
    exact ⟨h' x hp, hw⟩
  · cases hm

/-- An admitted result may be known by less. -/
theorem Admits.weaken {m : ReaderM α} {P Q : α → Prop} (h : Admits room depth settings m P) (h' : ∀ x, P x → Q x) :
    Admits room depth settings m Q :=
  fun _ x _ hr hd hs hc hm => ⟨h' x (h hr hd hs hc hm).1, (h hr hd hs hc hm).2⟩

/-- A choice between admitted actions is admitted, each under its condition. -/
theorem admits_ite {c : Prop} [Decidable c] {m m' : ReaderM α} {P : α → Prop} (h : c → Admits room depth settings m P)
    (h' : ¬c → Admits room depth settings m' P) : Admits room depth settings (if c then m else m') P := by
  by_cases hc : c
  · rw [if_pos hc]
    exact h hc
  · rw [if_neg hc]
    exact h' hc

/-- What is known of any source is known of a reader. -/
theorem admits_of_gives {m : ReaderM α} {P : α → Prop}
    (h : ∀ r : Reader, r.settings = settings → Unpacker.Gives r m P) : Admits room depth settings m P := by
  intro r x r' _ _ hs hc hm
  obtain ⟨hp, n, hn⟩ := h r hs hm
  exact ⟨hp, .of_moved hc hn⟩

/-- What is read takes no more bits than there are. -/
theorem Admits.pays {m : ReaderM α} {P : α → Prop} {measure : α → Nat} (h : Admits room depth settings m P)
    (hpays : ∀ r : Reader, Unpacker.Pays r m 0 measure) :
    Admits room depth settings m fun x => P x ∧ measure x ≤ room := by
  intro r x r' hr hd hs hc hm
  obtain ⟨hp, hw⟩ := h hr hd hs hc hm
  have hle : measure x + r'.view.remaining ≤ 0 + r.view.remaining := hpays r hm
  exact ⟨⟨hp, by omega⟩, hw⟩

/-! ## Small steps -/

/-- A trace says nothing of what is read. -/
theorem admits_note (level : TraceLevel) (text : Unit → String) :
    Admits room depth settings (note level text) fun _ => True := by
  intro r x r' _ _ _ hc hm
  cases hm
  exact ⟨trivial, .of_moved hc (moved_noted level text r)⟩

/-- A look at the reader shows its room, its depth and its settings. -/
theorem admits_get : Admits room depth settings (get : ReaderM Reader)
    fun r => r.view.remaining ≤ room ∧ r.depth = depth ∧ r.settings = settings := by
  intro r x r' hr hd hs hc hm
  cases hm
  exact ⟨⟨hr, hd, hs⟩, .refl hc⟩

/-- Any place of reading is admitted. -/
theorem admits_position : Admits room depth settings position fun _ => True := by
  intro r x r' _ _ _ hc hm
  cases hm
  exact ⟨trivial, .refl hc⟩

/-- The greatest length is the one of the settings. -/
theorem admits_maxLength : Admits room depth settings maxLength fun limit => limit = some settings.maxLength.toNat := by
  intro r x r' _ _ hs hc hm
  cases hm
  exact ⟨congrArg (fun s : Settings => some s.maxLength.toNat) hs, .refl hc⟩

/-- Bits are skipped within the room. -/
theorem admits_skip (length : Nat) : Admits room depth settings (skip length) fun _ => True := by
  intro r x r' _ _ _ hc hm
  unfold skip at hm
  split at hm
  · rename_i v hv
    cases hm
    unfold BitView.skip at hv
    split at hv
    · cases hv
    · rename_i hlen
      cases hv
      exact ⟨trivial, ⟨⟨length, rfl, Nat.not_lt.mp hlen⟩, id, hc, rfl, rfl, rfl, rfl⟩⟩
  · cases hm

/-- Whatever bit is looked at, it leaves the reader where it is. -/
theorem admits_peek (position : Nat) : Admits room depth settings (peek position) fun _ => True := by
  intro r x r' _ _ _ hc hm
  unfold peek at hm
  split at hm
  · cases hm
    exact ⟨trivial, .refl hc⟩
  · cases hm

/-- Any step to a presence bit is admitted. -/
theorem admits_visitSlot (optional : Bool) : Admits room depth settings (visitSlot optional) fun _ => True := by
  intro r x r' _ _ _ hc hm
  unfold visitSlot at hm
  split at hm
  · cases hm
    exact ⟨trivial, .refl hc⟩
  · rename_i p hp
    split at hm
    · cases hm
      refine ⟨trivial, ⟨⟨0, LawfulBitSource.moved_refl _⟩, fun hn => ?_, hc, rfl, rfl, rfl, rfl⟩⟩
      rw [hp] at hn
      cases hn
    · cases hm

/-! ## Entering a field -/

/-- The presence bits behind the marker come into sight only in a sequence. -/
theorem admits_enterExtensions (header : Nat) (run : BitRange) :
    Admits room depth settings (enterExtensions header run) fun _ => True := by
  intro r x r' _ _ _ hc hm
  cases hm
  refine ⟨trivial, ⟨⟨0, LawfulBitSource.moved_refl _⟩, fun hn => ?_, hc, rfl, rfl, rfl, rfl⟩⟩
  show r.presence.map _ = none
  rw [hn]
  rfl

/-- The presence bits behind the marker are read within the room. -/
theorem admits_openExtensions : Admits room depth settings openExtensions fun _ => True := by
  refine admits_position.bind fun header _ => ?_
  refine admits_get.bind fun r _ => admits_ite (fun _ => ?_) fun _ => ?_
  · refine (admits_of_gives fun r _ => WholeNumber.gives_unpackSmall r).bind fun last _ => ?_
    refine (admits_of_gives fun r _ => Unpacker.gives_remaining r).bind fun ahead _ => ?_
    refine admits_ite (fun _ => admits_throw _ _) fun _ => ?_
    refine admits_position.bind fun start _ => ?_
    refine (admits_skip _).bind fun _ _ => ?_
    refine (admits_enterExtensions _ _).bind fun _ _ => ?_
    exact admits_get.bind fun r _ => admits_note _ _
  · exact (admits_enterExtensions _ _).bind fun _ _ => admits_note _ _

/-- Any place among the fields is admitted. -/
theorem admits_claimSlot (optional : Bool) : Admits room depth settings (claimSlot optional) fun _ => True := by
  have hreach : Admits room depth settings (reachSlot optional) fun _ => True := by
    refine (admits_visitSlot optional).bind fun step _ => ?_
    cases step with
    | openExtensions => exact admits_openExtensions.bind fun _ _ => admits_visitSlot optional
    | unmarked => exact admits_pure trivial
    | marked position openType => exact admits_pure trivial
    | absent => exact admits_pure trivial
  refine hreach.bind fun step _ => ?_
  cases step with
  | marked position openType => exact (admits_peek position).bind fun _ _ => admits_pure trivial
  | absent => exact admits_pure trivial
  | unmarked => exact admits_pure trivial
  | openExtensions => exact admits_pure trivial

/-- Whether or not the presence bit was looked at in advance, no field is claimed once the field is entered. -/
theorem admits_enterField : AdmitsField room depth settings enterField fun _ => True := by
  intro r x r' hr hd hs hm
  cases hc : r.claimed with
  | some openType =>
    simp only [enterField, run_bind, run_get, hc] at hm
    cases hm
    exact ⟨trivial, ⟨⟨0, LawfulBitSource.moved_refl _⟩, id, rfl, rfl, rfl, rfl, rfl⟩⟩
  | none =>
    have hslot : Admits room depth settings
        (claimSlot false >>= fun slot => if slot.1 then pure slot.2 else throw (.extensionMismatch true false))
        fun _ => True :=
      (admits_claimSlot false).bind fun slot _ => admits_ite (fun _ => admits_pure trivial) fun _ => admits_throw _ _
    simp only [enterField, run_bind, run_get, hc] at hm
    exact hslot hr hd hs hc hm

/-! ## Contents -/

/-- A content is admitted in other bits, if there are no more of them. -/
theorem admits_withView {content : ReaderM α} {P : α → Prop} {view : BitView} (hv : view.remaining ≤ room)
    (h : Admits room depth settings content P) : Admits room depth settings (withView view content) P := by
  intro r x r' _ hd hs hc hm
  simp only [withView, afterwards] at hm
  split at hm
  · rename_i y r1 hy
    cases hm
    obtain ⟨hp, hw⟩ := h (r := { r with view := view }) hv hd hs hc hy
    exact ⟨hp, ⟨⟨0, LawfulBitSource.moved_refl _⟩, hw.presence, hw.claimed, hw.marker, hw.depth, hw.settings, hw.steps⟩⟩
  · cases hm

/-- A content is admitted in a single chunk. -/
theorem admits_inChunk {content : ReaderM α} {P : α → Prop} (octets : Nat) (h : Admits room depth settings content P) :
    Admits room depth settings (inChunk octets content) P := by
  refine admits_get.bind fun r hr => ?_
  cases hpart : r.view.part (octets * 8) with
  | error fault => exact admits_throw fault _
  | ok part =>
    have hroom := Nat.le_trans (BitView.remaining_part_le hpart) hr.1
    exact (admits_withView hroom h).bind fun x hx => (admits_skip _).bind fun _ _ => admits_pure hx

/-- A content is admitted in fragments, as the octets that are put together are no more than the bits they come from. -/
theorem admits_inFragments {content : ReaderM α} {P : α → Prop} (first : LengthDeterminant.Chunk)
    (h : Admits room depth settings content P) : Admits room depth settings (inFragments first content) P := by
  refine (admits_of_gives fun r _ => Unpacker.gives_remaining r).bind fun ahead _ => ?_
  refine admits_maxLength.bind fun limit _ => ?_
  have hfrom : Admits room depth settings (SizedContent.unpackFrom .free 8 limit OctetString.unpackChunk 0 #[] first (ahead + 1))
      fun _ => True := by
    refine admits_of_gives fun r _ => ?_
    have hkeeps : SizedContent.Keeps r OctetString.unpackChunk fun _ _ => True :=
      fun s' _ _ before count _ _ => (Unpacker.gives_run s' _ _ _).weaken fun _ _ => trivial
    exact (SizedContent.gives_unpackFrom hkeeps .free 8 limit (ahead + 1) r 0 0 #[] first
      (LawfulBitSource.moved_refl r) trivial).weaken fun _ _ => trivial
  refine (hfrom.pays fun r => OctetString.pays_unpackFrom .free limit first (ahead + 1) r).bind ?_
  rintro ⟨total, octets⟩ ⟨-, hroom⟩
  refine admits_withView (Nat.le_trans ?_ hroom) h
  exact Nat.le_trans (Nat.sub_le _ _) (Nat.min_le_right _ _)

/-- The sequence around an open type is out of sight while it is read, and comes back. -/
theorem admits_inOpenType {content : ReaderM α} {P : α → Prop} (h : Admits room depth settings content P) :
    Admits room depth settings (inOpenType content) P := by
  have haction : Admits room depth settings (do
      let chunk ← LengthDeterminant.unpackFree
      note .verbose fun () => "open type of " ++ toString chunk.units ++ " octets"
      if chunk.isFragment then inFragments chunk content else inChunk chunk.units content) P := by
    refine (admits_of_gives fun r _ => LengthDeterminant.gives_unpackFree r).bind fun chunk _ => ?_
    refine (admits_note _ _).bind fun _ _ => ?_
    exact admits_ite (fun _ => admits_inFragments chunk h) fun _ => admits_inChunk chunk.units h
  intro r x r' hr hd hs hc hm
  simp only [inOpenType, afterwards] at hm
  split at hm
  · rename_i y r1 hy
    cases hm
    obtain ⟨hp, hw⟩ := haction (r := { r with presence := none }) hr hd hs hc hy
    exact ⟨hp, ⟨hw.view, id, hw.claimed, rfl, hw.depth, hw.settings, hw.steps⟩⟩
  · cases hm

/-- A content is admitted in an open type and outside one. -/
theorem admits_withContent {content : ReaderM α} {P : α → Prop} (openType : Bool) (h : Admits room depth settings content P) :
    Admits room depth settings (withContent openType content) P := by
  cases openType with
  | false => exact h
  | true => exact admits_inOpenType h

/-- A field without parts. -/
theorem admitsField_field {content : ReaderM α} {P : α → Prop} (h : Admits room depth settings content P) :
    AdmitsField room depth settings (field content) P :=
  admits_enterField.bind fun openType _ => admits_withContent openType h

/-- A field whose content goes by the greatest length. -/
theorem admitsField_limited {content : Option Nat → ReaderM α} {P : α → Prop}
    (h : ∀ r : Reader, Unpacker.Gives r (content (some settings.maxLength.toNat)) P) :
    AdmitsField room depth settings (field do content (← maxLength)) P := by
  refine admitsField_field (admits_maxLength.bind fun limit hl => admits_of_gives fun r _ => ?_)
  rw [hl]
  exact h r

/-- An INTEGER, which may be too great if its bounds are open below only. -/
theorem admitsField_integer (c : Constraint) : AdmitsField room depth settings (integer c) fun value =>
    c.extensible = true ∨ c.bounds.lower.isSome = true ∨ c.bounds.upper = none →
      c.extensible = true ∨ c.bounds.contains value = true :=
  admitsField_field (admits_of_gives fun r _ => WholeNumber.gives_unpackInteger r c.bounds c.extensible)

/-- An OCTET STRING, if its bounds are ordered. -/
theorem admitsField_octetString (c : Constraint) (ho : c.size.Ordered) :
    AdmitsField room depth settings (octetString c) fun data =>
      data.size ≤ settings.maxLength.toNat ∧ (c.extensible = true ∨ SizedContent.inRoot c.size data.size = true) := by
  refine admitsField_limited fun r => (OctetString.gives_unpack r ho c.extensible _).weaken ?_
  rintro data ⟨hl, hs⟩
  exact ⟨hl _ rfl, hs⟩

/-- A BIT STRING, if its bounds are ordered. -/
theorem admitsField_bitString (c : Constraint) (ho : c.size.Ordered) :
    AdmitsField room depth settings (bitString c) fun run =>
      (run.covered = true ∧ run.length.toNat ≤ settings.maxLength.toNat ∧
        (c.extensible = true ∨ SizedContent.inRoot c.size run.length.toNat = true)) ∧ run.length.toNat ≤ room := by
  refine admitsField_field (admits_maxLength.bind fun limit hl => ?_)
  rw [hl]
  refine (admits_of_gives fun r _ => BitString.gives_unpack r ho c.extensible _).pays fun r => ?_
  exact BitString.pays_unpack c.size c.extensible _ r

/-- A character string, if its bounds are ordered. -/
theorem admitsField_characterString (c : Constraint) (ho : c.size.Ordered) :
    AdmitsField room depth settings (characterString c) fun data =>
      CharacterString.legal c.alphabet data = true ∧ data.size ≤ settings.maxLength.toNat ∧
        (c.alphabet = .utf8 ∨ c.extensible = true ∨ SizedContent.inRoot c.size data.size = true) := by
  refine admitsField_limited fun r => (CharacterString.gives_unpack r c.alphabet ho c.extensible _).weaken ?_
  rintro data ⟨hlegal, hl, hs⟩
  exact ⟨hlegal, hl _ rfl, hs⟩

/-- A field with parts, which lie one container deeper; there is room for them. -/
theorem admitsField_container {content : ReaderM α} {P : α → Prop}
    (h : depth < settings.maxDepth → Admits room (depth + 1) settings content P) :
    AdmitsField room depth settings (container content) fun x => depth < settings.maxDepth ∧ P x := by
  refine admits_enterField.bind fun openType _ => ?_
  refine admits_get.bind fun r hr => ?_
  obtain ⟨-, hrd, hrs⟩ := hr
  by_cases hlt : depth < settings.maxDepth
  · have hnot : ¬r.depth ≥ r.settings.maxDepth := by
      rw [hrd, hrs]
      omega
    rw [if_neg hnot]
    intro r0 x r' hr hd hs hc hm
    simp only [run_bind, run_modify, afterwards] at hm
    split at hm
    · rename_i y r1 hy
      cases hm
      have hdeep : ({ r0 with depth := r0.depth + 1 } : Reader).depth = depth + 1 := congrArg (· + 1) hd
      obtain ⟨hp, hw⟩ := admits_withContent openType (h hlt) (r := { r0 with depth := r0.depth + 1 }) hr hdeep hs hc hy
      refine ⟨⟨hlt, hp⟩, ⟨hw.view, hw.presence, hw.claimed, hw.marker, ?_, hw.settings, hw.steps⟩⟩
      show r1.depth - 1 = r0.depth
      rw [hw.depth]
      rfl
    · cases hm
  · have hyes : r.depth ≥ r.settings.maxDepth := by
      rw [hrd, hrs]
      omega
    rw [if_pos hyes]
    intro r0 x r' _ _ _ _ hm
    cases hm

end Reader

end UnalignedPer
