import UnalignedPer.Proofs.Descriptor
import UnalignedPer.Proofs.Message.Encoding
import UnalignedPer.Proofs.Message.LocalityContents
import UnalignedPer.Proofs.Message.ReadingEntries

/-!
# What a whole message depends on

Fields and containers look at presence bits that were passed and at contents that are taken, so a reader that succeeds has looked
at no bit behind the place where it ends. `decode_local` says so of whole messages: whatever follows the bits that were taken makes
no difference, and a message that is cut off before is found to end too early.
-/

namespace UnalignedPer

namespace Reader

variable {α β : Type} {r : Reader}

/-! ## Small steps -/

/-- What is alike stays alike when something is traced. -/
theorem Mirrors.noted {n : Nat} {t : Reader} (h : Mirrors n r t) (level : TraceLevel) (text : Unit → String) :
    Mirrors n (noted level text r) (noted level text t) := by
  obtain ⟨_, hr⟩ := noted_eq level text r
  obtain ⟨_, ht⟩ := noted_eq level text t
  rw [hr, ht]
  exact ⟨h.position, h.covered, h.bits, h.presence, h.claimed, h.marker, h.depth, h.settings⟩

/-- A trace depends on no bits. -/
theorem confined_note (level : TraceLevel) (text : Unit → String) : Confined (note level text) :=
  fun r _ => local_modify (noted_view level text) (.of_moved (moved_noted level text r)) fun _ _ h => h.noted level text

/-- The place of reading depends on no bits. -/
theorem confined_position : Confined position :=
  fun _ _ => local_look fun _ _ h => h.position

/-- The greatest length depends on no bits. -/
theorem confined_maxLength : Confined maxLength :=
  fun _ _ => local_look fun _ _ h => congrArg (fun s : Settings => some s.maxLength.toNat) h.settings

/-- Moving over bits is a step of the view. -/
theorem skip_eq (length : Nat) : skip length = onView fun v =>
    match v.skip length with
    | .ok v' => .ok () v'
    | .error fault => .error fault v := by
  funext s
  simp only [skip, onView]
  cases s.view.skip length <;> rfl

/-- Bits that are moved over. -/
theorem local_skip (length : Nat) (hs : r.Sound) : Local r (skip length) ∧ Spends r length (skip length) := by
  rw [skip_eq]
  refine local_onView (fun _ => ()) (fun v hle => ?_) (fun v hv hlt => ?_) (fun _ _ _ _ => rfl) hs
  · rw [BitView.skip, if_neg (by simp only [BitView.remaining]; omega)]
  · rw [BitView.skip, if_pos (by simp only [BitView.remaining]; omega)]

/-- A bit that was passed may be looked at. -/
theorem local_peek {position : Nat} (h : position < r.view.position) : Local r (peek position) := by
  intro x r' hm
  unfold peek at hm
  split at hm
  · rename_i bit hbit
    cases hm
    refine ⟨.refl r, fun n t hn ht => echoes_ok t ?_ ht rfl⟩
    have hcov := ht.covered
    have hq := ht.bits position (by omega)
    have hb : Octets.getBit r.view.data position = x := by
      unfold BitView.peek at hbit
      split at hbit
      · exact Except.ok.inj hbit
      · cases hbit
    simp only [peek, BitView.peek, if_pos (show position < t.view.stop by omega), hq, hb]
  · cases hm

/-! ## Presence bits -/

/-- The run of presence bits ends where it ended. -/
theorem visit_stop (p : Presence) (optional : Bool) : (p.visit optional).2.ahead.stop = p.ahead.stop := by
  unfold Presence.visit Presence.visitExtension Presence.visitStandard Presence.takeBit
  repeat' split
  all_goals rfl

/-- A bit that tells whether a field is there lies within the run. -/
theorem visit_marked {p p' : Presence} {optional : Bool} {position : Nat} {openType : Bool}
    (h : p.visit optional = (.ok (.marked position openType), p')) : position < p'.ahead.stop := by
  have htake : ∀ {q q' : Presence} {b : Bool}, q.ahead.isEmpty = false →
      q.takeBit b = (.ok (.marked position openType), q') → position < q'.ahead.stop := by
    intro q q' b hne hq
    cases hq
    simpa [BitRange.isEmpty] using hne
  have hstd : ∀ {q q' : Presence}, q.visitStandard optional = (.ok (.marked position openType), q') →
      position < q'.ahead.stop := by
    intro q q' hq
    unfold Presence.visitStandard at hq
    split at hq
    · cases hq
    · split at hq
      · cases hq
      · rename_i hne
        exact htake (by simpa using hne) hq
  unfold Presence.visit at h
  split at h
  · unfold Presence.visitExtension at h
    split at h
    · split at h <;> cases h
    · rename_i hne
      exact htake (by simpa using hne) h
  · exact hstd h
  · split at h
    · split at h <;> cases h
    · exact hstd h

/-- The next field is visited by the presence bits alone. -/
theorem confined_visitSlot (optional : Bool) : Confined (visitSlot optional) := by
  intro r _ x r' hm
  unfold visitSlot at hm
  split at hm
  · rename_i hnone
    cases hm
    refine ⟨.refl r, fun n t _ ht => echoes_ok t ?_ ht rfl⟩
    simp only [visitSlot, ht.presence, hnone]
  · rename_i p hsome
    split at hm
    · rename_i step p' hvisit
      cases hm
      refine ⟨⟨⟨0, LawfulBitSource.moved_refl _⟩, fun hnone => ?_, fun hs => ⟨hs.position, fun q hq => ?_⟩⟩,
        fun n t _ ht => echoes_ok { t with presence := some p' } ?_ ?_ rfl⟩
      · rw [hsome] at hnone
        cases hnone
      · cases hq
        have hstop := visit_stop p optional
        rw [hvisit] at hstop
        exact Nat.le_trans (Nat.le_of_eq hstop) (hs.presence p hsome)
      · simp only [visitSlot, ht.presence, hsome, hvisit]
      · exact { ht with presence := rfl }
    · cases hm

/-- The presence bits of an extension block that was passed. -/
theorem local_enterExtensions {header : Nat} {run : BitRange} (h : run.stop ≤ r.view.position) :
    Local r (enterExtensions header run) := by
  refine local_modify (fun _ => rfl) ⟨⟨0, LawfulBitSource.moved_refl _⟩, fun hnone => ?_, fun hs => ⟨hs.position, ?_⟩⟩
    fun n t ht => { ht with presence := ?_ }
  · show r.presence.map _ = none
    rw [hnone]
    rfl
  · intro p hp
    obtain ⟨q, -, rfl⟩ := Option.map_eq_some_iff.mp hp
    exact h
  · exact congrArg (Option.map (·.enterExtensions header run true)) ht.presence

/-- An extension block is opened if its presence bits are ahead, and moves past them. -/
theorem confined_openExtensions : Confined openExtensions := by
  intro r hs
  refine (confined_position hs).bind fun header r1 hheader hf => ?_
  have hs1 := hf.sound hs
  have hle : header ≤ r1.view.position := by
    cases hheader
    exact Nat.le_refl _
  refine local_get_bind ?_ fun n t ht => ?_
  · refine local_ite (fun _ => ?_) fun _ => ?_
    · refine (local_unpackSmall hs1).bind fun last r2 _ hf2 => ?_
      have hs2 := hf2.sound hs1
      refine local_remaining_bind ?_ fun ahead h => Nat.lt_succ_of_le h
      refine (confined_position hs2).bind_spends fun start r3 hstart hf3 => ?_
      have hs3 := hf3.sound hs2
      have hskip := local_skip (last.toNat + 1) hs3
      refine local_bind_spends hskip fun _ r4 hm4 hf4 => ?_
      have hrun : start + (last.toNat + 1) ≤ r4.view.position := by
        cases hstart
        exact hskip.2 hm4
      refine (local_enterExtensions hrun).bind fun _ r5 _ hf5 => ?_
      refine local_get_bind (confined_note _ _ (hf5.sound (hf4.sound hs3))) fun n t ht => ?_
      rw [ht.presence]
    · exact (local_enterExtensions hle).bind fun _ r2 _ hf2 => confined_note _ _ (hf2.sound hs1)
  · rw [ht.marker]

/-- The presence bit of the field that was visited was passed. -/
theorem marked_lt_of_visitSlot {r' : Reader} {optional openType : Bool} {position : Nat} (hs : r.Sound)
    (h : visitSlot optional r = .ok (.marked position openType) r') : position < r'.view.position := by
  have hs' := ((confined_visitSlot optional hs h).1).sound hs
  unfold visitSlot at h
  split at h
  · cases h
  · split at h
    · rename_i hvisit
      cases h
      exact Nat.lt_of_lt_of_le (visit_marked hvisit) (hs'.presence _ rfl)
    · cases h

/-- The next presence bit is reached locally, behind the marker too. -/
theorem confined_reachSlot (optional : Bool) : Confined (reachSlot optional) := by
  refine (confined_visitSlot optional).bind fun step => ?_
  cases step with
  | openExtensions => exact confined_openExtensions.bind fun _ => confined_visitSlot optional
  | unmarked => exact fun _ _ => local_pure _
  | marked position openType => exact fun _ _ => local_pure _
  | absent => exact fun _ _ => local_pure _

/-- So was the one of a field that comes after the opening of the extension block. -/
theorem marked_lt_of_reachSlot {r' : Reader} {optional openType : Bool} {position : Nat} (hs : r.Sound)
    (h : reachSlot optional r = .ok (.marked position openType) r') : position < r'.view.position := by
  simp only [reachSlot, run_bind] at h
  split at h
  · rename_i step r1 hstep
    cases step with
    | openExtensions =>
      simp only [run_bind] at h
      split at h
      · rename_i hopen
        have hs1 := (confined_visitSlot optional hs hstep).1.sound hs
        exact marked_lt_of_visitSlot ((confined_openExtensions hs1 hopen).1.sound hs1) h
      · cases h
    | marked position' openType' =>
      cases h
      exact marked_lt_of_visitSlot hs hstep
    | unmarked => cases h
    | absent => cases h
  · cases h

/-- A place among the fields is claimed locally. -/
theorem confined_claimSlot (optional : Bool) : Confined (claimSlot optional) := by
  intro r hs
  refine (confined_reachSlot optional hs).bind fun step r1 hstep hf => ?_
  cases step with
  | marked position openType => exact (local_peek (marked_lt_of_reachSlot hs hstep)).bind fun _ _ _ _ => local_pure _
  | absent => exact local_pure _
  | unmarked => exact local_pure _
  | openExtensions => exact local_pure _

/-- Another field is claimed, or none. -/
theorem local_claim (claimed : Option Bool) : Local r (modify fun s => { s with claimed := claimed }) :=
  local_modify (fun _ => rfl) (.of_view ⟨0, LawfulBitSource.moved_refl _⟩ rfl) fun _ _ ht =>
    { ht with claimed := rfl }

/-- A field is entered locally, claimed or not. -/
theorem confined_enterField : Confined enterField := by
  intro r hs
  refine local_get_bind ?_ fun n t ht => ?_
  · cases r.claimed with
    | some openType => exact (local_claim none).bind fun _ _ _ _ => local_pure _
    | none =>
      refine (confined_claimSlot false hs).bind fun slot r1 _ _ => ?_
      exact local_ite (fun _ => local_pure _) fun _ => local_throw _
  · rw [ht.claimed]

/-! ## Contents -/

/-- A content in the octets that follow, which are cut off first and moved over at last. -/
theorem inChunk_run (octets : Nat) (content : ReaderM α) (s : Reader) :
    inChunk octets content s =
      if octets * 8 > s.view.remaining then .error .endOfStream s
      else
        match content { s with view := { s.view with stop := s.view.position + octets * 8 } } with
        | .ok x s' => .ok x { s' with view := { s.view with position := s.view.position + octets * 8 } }
        | .error fault s' => .error fault { s' with view := s.view } := by
  simp only [inChunk, run_bind, run_get, BitView.part]
  split
  · rfl
  · rename_i hlen
    simp only [run_bind, withView, afterwards]
    cases content { s with view := { s.view with stop := s.view.position + octets * 8 } } with
    | ok x s' => simp only [skip, BitView.skip, if_neg hlen, run_pure]
    | error fault s' => rfl

/-- A content in a single chunk is local if the content is. -/
theorem confined_inChunk {content : ReaderM α} (octets : Nat) (h : Confined content) : Confined (inChunk octets content) := by
  intro r hs x r' hm
  rw [inChunk_run] at hm
  split at hm
  · cases hm
  · rename_i hlen
    split at hm
    · rename_i y r1 hy
      cases hm
      have hstop := hs.position
      simp only [BitView.remaining] at hlen
      have hsound : ({ r with view := { r.view with stop := r.view.position + octets * 8 } } : Reader).Sound :=
        ⟨Nat.le_add_right _ _, hs.presence⟩
      obtain ⟨hf, hecho⟩ := h hsound hy
      have hle : r1.view.position ≤ r.view.position + octets * 8 := by
        have hin := (hf.sound hsound).position
        rw [hf.stop] at hin
        exact hin
      refine ⟨⟨⟨octets * 8, rfl, ?_⟩, hf.presence, fun _ => ⟨?_, fun p hsome => ?_⟩⟩, fun n t hn ht => ?_⟩
      · simp only [BitView.remaining]
        omega
      · show r.view.position + octets * 8 ≤ r.view.stop
        omega
      · exact Nat.le_trans ((hf.sound hsound).presence p hsome) hle
      have hpos := ht.position
      have hcov := ht.covered
      have hn' : r.view.position + octets * 8 ≤ n := hn
      refine ⟨fun hin => ?_, fun hout => ?_⟩
      · have hin' : r.view.position + octets * 8 ≤ t.view.stop := hin
        have hmirror : Mirrors n { r with view := { r.view with stop := r.view.position + octets * 8 } }
            { t with view := { t.view with stop := t.view.position + octets * 8 } } :=
          { ht with position := hpos, covered := by rw [hpos]; exact Nat.le_add_right _ _ }
        obtain ⟨t1, ht1, hm1, -⟩ := (hecho n _ (by omega) hmirror).1 (by rw [hpos]; exact hle)
        refine ⟨{ t1 with view := { t.view with position := t.view.position + octets * 8 } }, ?_, ?_, rfl⟩
        · rw [inChunk_run, if_neg (by simp only [BitView.remaining]; omega)]
          simp only [ht1]
        · exact { hm1 with position := congrArg (· + octets * 8) hpos, covered := hin', bits := ht.bits }
      · have hout' : t.view.stop < r.view.position + octets * 8 := hout
        exact ⟨t, by rw [inChunk_run, if_pos (by simp only [BitView.remaining]; omega)]⟩
    · cases hm

/-- A content in octets that were joined, outside of any sequence. -/
theorem local_withView {content : ReaderM α} (view : BitView) (hv : view.position ≤ view.stop) (hp : r.presence = none)
    (h : Confined content) : Local r (withView view content) := by
  intro x r' hm
  simp only [withView, afterwards] at hm
  split at hm
  · rename_i y r1 hy
    cases hm
    have hsound : ({ r with view := view } : Reader).Sound := ⟨hv, fun p hsome => absurd (hp.symm.trans hsome) (by simp)⟩
    obtain ⟨hf, hecho⟩ := h hsound hy
    have hnone := hf.presence hp
    refine ⟨⟨⟨0, LawfulBitSource.moved_refl _⟩, fun _ => hnone, fun hs => ⟨hs.position, fun p hsome => ?_⟩⟩,
      fun n t _ ht => ?_⟩
    · exact absurd (hnone.symm.trans hsome) (by simp)
    · have hle : r1.view.position ≤ view.stop := by
        have := (hf.sound hsound).position
        rw [hf.stop] at this
        exact this
      have hmirror : Mirrors (max r1.view.position view.position) { r with view := view } { t with view := view } :=
        { ht with position := rfl, covered := hv, bits := fun _ _ => rfl }
      obtain ⟨t1, ht1, hm1, -⟩ := (hecho _ _ (Nat.le_max_left _ _) hmirror).1 hle
      refine echoes_ok { t1 with view := t.view } ?_ ?_ rfl
      · simp only [withView, afterwards, ht1]
      · exact { hm1 with position := ht.position, covered := ht.covered, bits := ht.bits }
  · cases hm

/-- A content in fragments, outside of any sequence. -/
theorem local_inFragments {content : ReaderM α} (first : LengthDeterminant.Chunk) (hs : r.Sound) (hp : r.presence = none)
    (h : Confined content) : Local r (inFragments first content) := by
  refine local_of_fueled (g := fun fuel => do
    let limit ← maxLength
    let found ← SizedContent.unpackFrom .free 8 limit OctetString.unpackChunk 0 #[] first fuel
    withView (.ofOctets found.2 (found.2.size * 8)) content) fun fuel => ?_
  refine ((confined_maxLength hs).fueled fuel).bind fun limit r1 _ hf => ?_
  have hs1 := hf.sound hs
  refine (fueled_unpackFrom hs1 (localUnits_octets hs1) (fun _ => rfl) 0 #[] fuel).bind fun p r2 _ hf2 => ?_
  exact (local_withView _ (Nat.zero_le _) (hf2.presence (hf.presence hp)) h).fueled fuel

/-- A content in an open type. -/
theorem confined_inOpenType {content : ReaderM α} (h : Confined content) : Confined (inOpenType content) := by
  intro r hs
  refine local_around (fun s => { s with presence := none })
    (fun s s' => { s' with presence := s.presence, marker := s.marker }) ?_ (fun _ => rfl) (fun _ _ => rfl)
    (fun r' hf => .of_view hf.view rfl)
    (fun n t ht => { ht with presence := rfl })
    (fun n t r' t' ht ht' =>
      { ht' with presence := ht.presence, marker := ht.marker })
  have hsound : ({ r with presence := none } : Reader).Sound := ⟨hs.position, fun _ hsome => by cases hsome⟩
  refine (local_unpackFree hsound).1.bind fun chunk r1 _ hf => ?_
  have hs1 := hf.sound hsound
  refine (confined_note _ _ hs1).bind fun _ r2 _ hf2 => ?_
  have hs2 := hf2.sound hs1
  have hp2 := hf2.presence (hf.presence rfl)
  exact local_ite (fun _ => local_inFragments chunk hs2 hp2 h) fun _ => confined_inChunk chunk.units h hs2

/-- A content is local, in an open type or outside one. -/
theorem confined_withContent {content : ReaderM α} (openType : Bool) (h : Confined content) :
    Confined (withContent openType content) := by
  cases openType with
  | false => exact h
  | true => exact confined_inOpenType h

/-- A field without parts. -/
theorem confined_field {content : ReaderM α} (h : Confined content) : Confined (field content) :=
  confined_enterField.bind fun openType => confined_withContent openType h

/-- A field with parts. -/
theorem confined_container {content : ReaderM α} (h : Confined content) : Confined (container content) := by
  refine confined_enterField.bind fun openType r hs => local_get_bind ?_ fun n t ht => ?_
  · refine local_ite (fun _ => local_throw _) fun _ => ?_
    have hdeeper : Local r (modify fun s => { s with depth := s.depth + 1 }) :=
      local_modify (fun _ => rfl) (.of_view ⟨0, LawfulBitSource.moved_refl _⟩ rfl) fun n t ht =>
        { ht with depth := congrArg (· + 1) ht.depth }
    refine hdeeper.bind fun _ r1 _ hf => ?_
    exact local_around id (fun _ s' => { s' with depth := s'.depth - 1 })
      (confined_withContent openType h (hf.sound hs)) (fun _ => rfl) (fun _ _ => rfl)
      (fun r' hf' => hf'.trans (.of_view ⟨0, LawfulBitSource.moved_refl _⟩ rfl)) (fun n t ht => ht)
      (fun n t r' t' _ ht' => { ht' with depth := congrArg (· - 1) ht'.depth })
  · rw [ht.depth, ht.settings]

/-! ## Parts of a container -/

/-- An action under other presence bits that were passed. -/
theorem local_withPresence {action : ReaderM α} {presence : Option Presence}
    (hp : ∀ p, presence = some p → p.ahead.stop ≤ r.view.position) (hs : r.Sound) (h : Confined action) :
    Local r (withPresence presence action) := by
  refine local_around (fun s => { s with presence := presence })
    (fun s s' => { s' with presence := s.presence }) (h ⟨hs.position, hp⟩) (fun _ => rfl) (fun _ _ => rfl)
    (fun r' hf => .of_view hf.view rfl)
    (fun n t ht => { ht with presence := rfl })
    (fun n t r' t' ht ht' =>
      { ht' with presence := ht.presence })

/-- A content is local where no presence bits are in sight. -/
theorem confined_withPresence_none {action : ReaderM α} (h : Confined action) : Confined (withPresence none action) :=
  fun _ hs => local_withPresence (fun _ hp => by cases hp) hs h

/-- An action under another extension marker. -/
theorem local_withMarker {action : ReaderM α} (marker : Bool) (h : Local { r with marker := marker } action) :
    Local r (withMarker marker action) := by
  refine local_around (fun s => { s with marker := marker }) (fun s s' => { s' with marker := s.marker }) h
    (fun _ => rfl) (fun _ _ => rfl) (fun r' hf => ⟨hf.view, hf.presence, fun hs => ?_⟩)
    (fun n t ht => { ht with marker := rfl })
    (fun n t r' t' ht ht' =>
      { ht' with marker := ht.marker })
  have h' := hf.sound ⟨hs.position, hs.presence⟩
  exact ⟨h'.position, h'.presence⟩

/-- What is traced at the end changes nothing else. -/
theorem local_afterwards_noted {action : ReaderM α} (level : TraceLevel) (text : Unit → String) (h : Local r action) :
    Local r (afterwards (noted level text) action) :=
  local_around id (fun _ => noted level text) h (fun _ => rfl) (fun _ s' => noted_view level text s')
    (fun r' hf => hf.trans (.of_moved (moved_noted level text r'))) (fun _ _ ht => ht)
    fun _ _ _ _ _ ht' => ht'.noted level text

/-- The index of an enumeration or of a choice is local. -/
theorem confined_index (c : Constraint) : Confined (index c) :=
  fun _ hs => (local_choiceIndex _ _ hs).bind fun _ _ _ _ => local_ite (fun _ => local_throw _) fun _ => local_pure _

/-- The extension marker is local. -/
theorem confined_readMarker (c : Constraint) : Confined (readMarker c) :=
  fun _ hs => local_ite (fun _ => (local_bit hs).1.bind fun _ _ _ _ => local_ite (fun _ => local_throw _) fun _ => local_pure _)
    fun _ => local_pure _

/-- Room for the presence bits is reserved locally. -/
theorem confined_reserve (c : Constraint) : Confined (reserve c) :=
  fun _ hs => (confined_position hs).bind fun _ _ _ hf => (local_skip _ (hf.sound hs)).1.bind fun _ _ _ _ => local_pure _

/-- The presence bits of the standard fields were passed. -/
theorem reserve_covers {c : Constraint} {p : Presence} {r' : Reader} (hs : r.Sound) (h : reserve c r = .ok p r') :
    p.ahead.stop ≤ r'.view.position := by
  have hrun : reserve c r = (skip c.optionalFields >>= fun _ => pure
      (if c.extensible then .ofStandard ⟨r.view.position, r.view.position + c.optionalFields⟩ c.standardCount c.extensionCount
        else .ofOptional ⟨r.view.position, r.view.position + c.optionalFields⟩)) r := rfl
  rw [hrun] at h
  simp only [run_bind, run_pure] at h
  split at h
  · rename_i hskip
    cases h
    split
    · exact (local_skip _ hs).2 hskip
    · exact (local_skip _ hs).2 hskip
  · cases h

/-- The extensions that are skipped are those whose presence bits are set. -/
theorem local_skipExtensions (position count : Nat) (hs : r.Sound) (h : ∀ i < count, position + i < r.view.position) :
    Local r (skipExtensions position count) := by
  induction count generalizing r position with
  | zero => exact local_pure _
  | succ count ih =>
    have hrest : ∀ r', r.Follows r' → Local r' (skipExtensions (position + 1) count) := by
      intro r' hf
      refine ih (position + 1) (hf.sound hs) fun i hi => ?_
      have hlt := h (i + 1) (Nat.succ_lt_succ hi)
      have hle := hf.position_le
      omega
    refine (local_peek (h 0 (Nat.succ_pos _))).bind fun present r1 _ hf => ?_
    have hs1 := hf.sound hs
    cases present with
    | false => exact hrest r1 hf
    | true =>
      have hskip : Local r1 (note .verbose (fun () => "skipping unknown extension") >>= fun _ => OpenType.skip) :=
        (confined_note _ _ hs1).bind fun _ r2 _ hf2 => local_openTypeSkip (hf2.sound hs1)
      exact hskip.bind fun _ r2 _ hf2 => hrest r2 (hf.trans hf2)

/-- What is left of the entries behind the marker is skipped locally. -/
theorem confined_skipRest : Confined skipRest := by
  intro r hs
  refine local_get_bind ?_ fun n t ht => ?_
  · cases hp : r.presence with
    | none => exact local_pure _
    | some p =>
      refine local_ite (fun _ => local_skipExtensions _ _ hs fun i hi => ?_) fun _ => local_pure _
      have hle := hs.presence p hp
      omega
  · rw [ht.presence]

/-- A sequence is closed locally. -/
theorem confined_closeSequence : Confined closeSequence := by
  intro r hs
  refine local_get_bind ?_ fun n t ht => ?_
  · cases r.presence with
    | none => exact local_pure _
    | some p =>
      refine local_ite (fun _ => ?_) fun _ => confined_skipRest hs
      exact local_ite (fun _ => (confined_openExtensions hs).bind fun _ _ _ hf => confined_skipRest (hf.sound hs))
        fun _ => local_pure _
  · rw [ht.presence, ht.marker]

/-! ## Containers -/

/-- A SEQUENCE. -/
theorem confined_sequence (c : Constraint) {fields : ReaderM α} (h : Confined fields) : Confined (sequence c fields) := by
  refine confined_container ((confined_note _ _).bind fun _ => (confined_readMarker c).bind fun marker r hs => ?_)
  refine (confined_reserve c hs).bind fun presence r1 hreserve hf => local_afterwards_noted _ _ (local_withMarker marker ?_)
  have hs1 := hf.sound hs
  have hbody : Confined (fields >>= fun result => closeSequence >>= fun _ => pure result) :=
    h.bind fun result => confined_closeSequence.bind fun _ _ _ => local_pure _
  have hcovers := reserve_covers hs hreserve
  refine local_withPresence (fun p hp => ?_) ⟨hs1.position, hs1.presence⟩ hbody
  cases hp
  exact hcovers

/-- The elements of a list. -/
theorem confined_elements {element : Nat → ReaderM α} (h : ∀ i, Confined (element i)) (sofar : Array α) (count : Nat) :
    Confined (elements element sofar count) := by
  induction count generalizing sofar with
  | zero => exact fun _ _ => local_pure _
  | succ count ih => exact (h sofar.size).bind fun next => ih (sofar.push next)

/-- A SEQUENCE OF. -/
theorem confined_sequenceOf (c : Constraint) {element : Nat → ReaderM α} (h : ∀ i, Confined (element i)) :
    Confined (sequenceOf c element) := by
  refine confined_container ((confined_note _ _).bind fun _ => confined_withPresence_none ?_)
  refine confined_maxLength.bind fun limit r hs => local_sized hs (fun r' hf sofar count => ?_) _ _ _
  have hl := confined_elements h sofar count (hf.sound hs)
  exact ⟨hl, hl.spends⟩

/-- A CHOICE. -/
theorem confined_choice (c : Constraint) {payload : UInt64 → ReaderM α} (h : ∀ i, Confined (payload i)) :
    Confined (choice c payload) := by
  refine confined_container ((confined_index c).bind fun i => (confined_note _ _).bind fun _ => ?_)
  exact (confined_withPresence_none (confined_withContent _ (h i))).bind fun _ _ _ => local_pure _

/-- An OPTIONAL field. -/
theorem confined_opt {value : ReaderM α} (h : Confined value) : Confined (opt value) := by
  refine (confined_claimSlot true).bind fun slot r hs => local_ite (fun _ => ?_) fun _ => local_pure _
  refine (local_claim _).bind fun _ r1 _ hf => ?_
  exact local_around id (fun _ s' => { s' with claimed := none }) ((h (hf.sound hs)).map some)
    (fun _ => rfl) (fun _ _ => rfl) (fun r' hf' => hf'.trans (.of_view ⟨0, LawfulBitSource.moved_refl _⟩ rfl))
    (fun _ _ ht => ht) fun _ _ _ _ _ ht' =>
      { ht' with claimed := rfl }

end Reader

/-! ## Whole messages -/

namespace Descriptor

open Reader

/-- A value without parts is local. -/
theorem confined_readSimple (type : Descriptor) (plain : SimpleType) : Confined (type.readSimple plain) := by
  cases plain with
  | null => exact (confined_field fun _ _ => local_pure ()).bind fun _ _ _ => local_pure _
  | boolean => exact (confined_field fun _ hs => (local_bit hs).1).map _
  | integer _ => exact (confined_field fun _ hs => local_unpackInteger _ _ hs).map _
  | octetString _ =>
    exact (confined_field (confined_maxLength.bind fun limit _ hs => local_octetString hs _ _ limit)).map _
  | bitString _ => exact (confined_field (confined_maxLength.bind fun limit _ hs => local_bitString hs _ _ limit)).map _
  | text _ _ =>
    exact (confined_field (confined_maxLength.bind fun limit _ hs => local_characterString hs _ _ _ limit)).map _

/-- Fields are local if each of them is. -/
theorem confined_readFields {fields : List (Field Descriptor)} (h : ∀ field ∈ fields, Confined field.type.read) :
    Confined (readFields fields) := by
  induction fields with
  | nil => exact fun _ _ => local_pure _
  | cons field fields ih =>
    obtain ⟨hfield, hfields⟩ := List.forall_mem_cons.mp h
    have hentry : Confined (readEntry field.optional field.type) :=
      fun r hs => local_ite (fun _ => confined_opt hfield hs) fun _ => hfield.map some hs
    rw [readFields_cons]
    exact hentry.bind fun entry => (ih hfields).bind fun entries _ _ => local_pure _

/-- The payload of a choice is local if that of each alternative is. -/
theorem confined_readAlternative {alternatives : List (String × Descriptor)}
    (h : ∀ alternative ∈ alternatives, Confined alternative.2.read) (index : Nat) :
    Confined (readAlternative alternatives index) := by
  induction alternatives generalizing index with
  | nil => exact fun _ _ => local_pure _
  | cons alternative alternatives ih =>
    obtain ⟨hfirst, hrest⟩ := List.forall_mem_cons.mp h
    cases index with
    | zero => exact hfirst.map some
    | succ index => exact ih hrest index

/-- Whatever the type, a reader that succeeds has looked at no bit behind the place where it ends. -/
theorem confined_read (type : Descriptor) : Confined type.read := by
  induction type using Descriptor.induction with
  | simple name plain extensible => exact confined_readSimple _ plain
  | enumerated name items standard => exact (confined_field (confined_index _)).bind fun _ _ _ => local_pure _
  | sequence name fields standard ih =>
    exact (confined_sequence _ (confined_readFields ih)).bind fun _ _ _ => local_pure _
  | sequenceOf name element size extensible ih =>
    exact (confined_sequenceOf _ fun _ => ih.map some).bind fun _ _ _ => local_pure _
  | choice name alternatives standard ih =>
    exact (confined_choice _ fun i => confined_readAlternative ih i.toNat).bind fun _ _ _ => local_pure _

end Descriptor

/-- A value that was decoded took bits of the message, and it depends on exactly those: on every message that has the same bits in
front the same value is found in as many bits, and the message cut off anywhere before is found to end too early. -/
theorem decode_local {settings : Settings} {type : Descriptor} {data : Octets} {length : Nat} {found : Decoding}
    (h : (decode settings type data length).1 = .ok found) :
    found.consumed ≤ min length (data.size * 8) ∧
    (∀ data' length', found.consumed ≤ min length' (data'.size * 8) →
      Octets.bitsFrom data' 0 found.consumed = Octets.bitsFrom data 0 found.consumed →
      (decode settings type data' length').1 = .ok found) ∧
    ∀ n < found.consumed, (decode settings type data n).1 = .error .endOfStream := by
  unfold decode at h
  split at h
  · rename_i value r hread
    cases h
    have hsound : (Reader.ofView (.ofOctets data length) settings).Sound := ⟨Nat.zero_le _, fun p hp => by cases hp⟩
    obtain ⟨hf, hecho⟩ := Descriptor.confined_read type hsound hread
    have hmirror : ∀ data' length', Octets.bitsFrom data' 0 r.view.position = Octets.bitsFrom data 0 r.view.position →
        Reader.Mirrors r.view.position (.ofView (.ofOctets data length) settings)
          (.ofView (.ofOctets data' length') settings) := by
      intro data' length' hbits
      refine ⟨rfl, Nat.zero_le _, fun q hq => ?_, rfl, rfl, rfl, rfl, rfl⟩
      have hbit := congrArg (fun bits => bits[q]?) hbits
      simp only [Octets.getElem?_bitsFrom, if_pos hq, Nat.zero_add, Option.some.injEq] at hbit
      exact hbit
    refine ⟨?_, fun data' length' hle hbits => ?_, fun n hn => ?_⟩
    · have hin := (hf.sound hsound).position
      rw [hf.stop] at hin
      exact hin
    · obtain ⟨t, ht, hmt, -⟩ := (hecho _ _ (Nat.le_refl _) (hmirror data' length' hbits)).1 hle
      simp only [decode, ht, hmt.position]
    · obtain ⟨t, ht⟩ := (hecho _ _ (Nat.le_refl _) (hmirror data n rfl)).2
        (Nat.lt_of_le_of_lt (Nat.min_le_left n (data.size * 8)) hn)
      simp only [decode, ht]
  · cases h

/-- A message of 38 bits that ends within its last octet: one with more bits is decoded alike, one with fewer is not. -/
theorem decode_local_report : (decode .standard .report #[0xF4, 0x04, 0x08, 0x06, 0xAC] 38).1 = .ok ⟨.report, 38⟩ ∧
    (decode .standard .report #[0xF4, 0x04, 0x08, 0x06, 0xAF, 0x5A] 48).1 = .ok ⟨.report, 38⟩ ∧
    (decode .standard .report #[0xF4, 0x04, 0x08, 0x06, 0xAC] 37).1 = .error .endOfStream :=
  have h : (decode .standard .report #[0xF4, 0x04, 0x08, 0x06, 0xAC] 38).1 = .ok ⟨.report, 38⟩ := by cbv
  ⟨h, (decode_local h).2.1 _ _ (by decide) (by decide +kernel), (decode_local h).2.2 37 (by decide)⟩

end UnalignedPer
