import UnalignedPer.Message.Decode
import UnalignedPer.Proofs.Message.Reading

/-!
# What a reader looks at

Readers ask more often how many bits are ahead than they read bits: before a long content, before presence bits, before an open
type. `Reader.Local` says that this makes no difference: a read that succeeds gives the same result on any message with the same
bits up to the place where it ends, and on a message that ends before that place it comes to the end of the stream.

Presence bits are looked at behind the cursor. They lie within the bits that were passed (`Reader.Sound`), so they are covered by
the same statement.
-/

namespace UnalignedPer

namespace Reader

variable {α β : Type} {r : Reader}

/-- The cursor stands within the message, and behind the presence bits of the sequence around. -/
structure Sound (r : Reader) : Prop where
  /-- The cursor is not past the end. -/
  position : r.view.position ≤ r.view.stop
  /-- The presence bits were passed. -/
  presence : ∀ p, r.presence = some p → p.ahead.stop ≤ r.view.position

/-- `r'` is `r` after something was read. -/
structure Follows (r r' : Reader) : Prop where
  /-- The cursor has moved over bits that were ahead. -/
  view : ∃ n, LawfulBitSource.Moved r.view n r'.view
  /-- Outside of a sequence no presence bits come into sight. -/
  presence : r.presence = none → r'.presence = none
  /-- A sound reader stays sound. -/
  sound : r.Sound → r'.Sound

/-- `t` stands where `r` stands, in a message with the same bits before position `n`. -/
structure Mirrors (n : Nat) (r t : Reader) : Prop where
  /-- The cursors stand at the same position. -/
  position : t.view.position = r.view.position
  /-- The message of `t` reaches that far. -/
  covered : r.view.position ≤ t.view.stop
  /-- The bits are the same. -/
  bits : ∀ q, q < n → Octets.getBit t.view.data q = Octets.getBit r.view.data q
  /-- The presence bits are the same. -/
  presence : t.presence = r.presence
  /-- The same field is claimed, if one is. -/
  claimed : t.claimed = r.claimed
  /-- The extension marker is the same. -/
  marker : t.marker = r.marker
  /-- As many containers lie around the place of reading. -/
  depth : t.depth = r.depth
  /-- The settings are the same. -/
  settings : t.settings = r.settings

/-- From `t` on, an action gives `x` and ends where `r'` stands, or comes to the end of the stream before. -/
def Echoes (n : Nat) (t : Reader) (m : ReaderM α) (x : α) (r' : Reader) : Prop :=
  (r'.view.position ≤ t.view.stop → ∃ t', m t = .ok x t' ∧ Mirrors n r' t' ∧ t'.view.stop = t.view.stop) ∧
    (t.view.stop < r'.view.position → ∃ t', m t = .error .endOfStream t')

/-- What an action reads from `r` on depends on the bits before the place where it ends. -/
def Local (r : Reader) (m : ReaderM α) : Prop :=
  ∀ ⦃x r'⦄, m r = .ok x r' → r.Follows r' ∧ ∀ n t, r'.view.position ≤ n → Mirrors n r t → Echoes n t m x r'

/-- An action is local wherever a reader may stand. -/
def Confined (m : ReaderM α) : Prop :=
  ∀ ⦃r : Reader⦄, r.Sound → Local r m

/-- An action that succeeds moves over at least `least` bits. -/
def Spends (r : Reader) (least : Nat) (m : ReaderM α) : Prop :=
  ∀ ⦃x r'⦄, m r = .ok x r' → r.view.position + least ≤ r'.view.position

/-- Reading nothing goes nowhere. -/
theorem Follows.refl (r : Reader) : r.Follows r :=
  ⟨⟨0, LawfulBitSource.moved_refl _⟩, id, id⟩

/-- What was read in two goes was read. -/
theorem Follows.trans {r r' r'' : Reader} (h : r.Follows r') (h' : r'.Follows r'') : r.Follows r'' := by
  obtain ⟨m, hm⟩ := h.view
  obtain ⟨n, hn⟩ := h'.view
  exact ⟨⟨m + n, LawfulBitSource.moved_trans hm hn⟩, fun hp => h'.presence (h.presence hp), fun hs => h'.sound (h.sound hs)⟩

/-- The cursor does not go back. -/
theorem Follows.position_le {r r' : Reader} (h : r.Follows r') : r.view.position ≤ r'.view.position := by
  obtain ⟨n, hv, -⟩ := h.view
  rw [hv]
  exact Nat.le_add_right _ _

/-- The message ends where it ended. -/
theorem Follows.stop {r r' : Reader} (h : r.Follows r') : r'.view.stop = r.view.stop := by
  obtain ⟨n, hv, -⟩ := h.view
  rw [hv]

/-- Presence bits that were passed stay behind the cursor. -/
theorem Follows.of_view {r r' : Reader} (hv : ∃ n, LawfulBitSource.Moved r.view n r'.view)
    (hp : r'.presence = r.presence) : r.Follows r' := by
  refine ⟨hv, fun hnone => hp.trans hnone, fun hs => ?_⟩
  obtain ⟨n, hv, hn⟩ := hv
  have hstop := hs.position
  simp only [BitView.remaining] at hn
  refine ⟨?_, fun p hsome => ?_⟩
  · rw [hv]
    show r.view.position + n ≤ r.view.stop
    omega
  · rw [hv]
    exact Nat.le_trans (hs.presence p (hp.symm.trans hsome)) (Nat.le_add_right _ _)

/-- Only the cursor has moved. -/
theorem Follows.of_moved {r r' : Reader} {n : Nat} (h : LawfulBitSource.Moved r n r') : r.Follows r' :=
  .of_view ⟨n, h.1.view⟩ h.2

/-! ## How the statements chain -/

/-- An action that ends within the message and where it should. -/
theorem echoes_ok {m : ReaderM α} {x : α} {r' t : Reader} {n : Nat} (t' : Reader) (h : m t = .ok x t') (hm : Mirrors n r' t')
    (hs : t'.view.stop = t.view.stop) : Echoes n t m x r' := by
  refine ⟨fun _ => ⟨t', h, hm, hs⟩, fun hlt => ?_⟩
  have := hm.covered
  omega

/-- What follows an action that was echoed is echoed if it is wherever the echo ends. -/
theorem Echoes.bind {m : ReaderM α} {f : α → ReaderM β} {x : α} {y : β} {r1 r2 t : Reader} {n : Nat} (h : Echoes n t m x r1)
    (hle : r1.view.position ≤ r2.view.position)
    (h' : ∀ t1, Mirrors n r1 t1 → t1.view.stop = t.view.stop → Echoes n t1 (f x) y r2) : Echoes n t (m >>= f) y r2 := by
  obtain ⟨hok, hshort⟩ := h
  rcases Nat.lt_or_ge t.view.stop r1.view.position with hlt | hge
  · obtain ⟨t', ht'⟩ := hshort hlt
    have hb : (m >>= f) t = .error .endOfStream t' := by simp only [run_bind, ht']
    exact ⟨fun hge => absurd hge (by omega), fun _ => ⟨t', hb⟩⟩
  · obtain ⟨t1, ht1, hm1, hs1⟩ := hok hge
    have hb : (m >>= f) t = f x t1 := by simp only [run_bind, ht1]
    obtain ⟨hok', hshort'⟩ := h' t1 hm1 hs1
    rw [hs1] at hok' hshort'
    unfold Echoes
    rw [hb]
    exact ⟨hok', hshort'⟩

/-- Local actions are local one after the other, the second one from where the first one ends. -/
theorem Local.bind {m : ReaderM α} {f : α → ReaderM β} (h : Local r m)
    (h' : ∀ ⦃x r'⦄, m r = .ok x r' → r.Follows r' → Local r' (f x)) : Local r (m >>= f) := by
  intro y r2 hm
  simp only [run_bind] at hm
  split at hm
  · rename_i x r1 hx
    have hf := (h hx).1
    have hy := h' hx hf hm
    refine ⟨hf.trans hy.1, fun n t hn ht => ?_⟩
    exact ((h hx).2 n t (Nat.le_trans hy.1.position_le hn) ht).bind hy.1.position_le fun t1 ht1 _ => hy.2 n t1 hn ht1
  · cases hm

/-- A result alone depends on no bits. -/
theorem local_pure (x : α) : Local r (pure x) := by
  intro y r' hm
  cases hm
  exact ⟨.refl r, fun n t _ ht => echoes_ok t rfl ht rfl⟩

/-- A failure is local, as it reads nothing. -/
theorem local_throw (fault : Fault) : Local r (throw fault : ReaderM α) := by
  intro y r' hm
  cases hm

/-- A function of the result of a local action is local. -/
theorem Local.map {m : ReaderM α} (h : Local r m) (f : α → β) : Local r (f <$> m) := by
  rw [map_eq_pure_bind]
  exact h.bind fun x r' _ _ => local_pure (f x)

/-- Actions that are local anywhere are local one after the other. -/
theorem Confined.bind {m : ReaderM α} {f : α → ReaderM β} (h : Confined m) (h' : ∀ x, Confined (f x)) :
    Confined (m >>= f) :=
  fun _ hs => (h hs).bind fun x _ _ hf => h' x (hf.sound hs)

/-- A function of the result of an action that is local anywhere. -/
theorem Confined.map {m : ReaderM α} (h : Confined m) (f : α → β) : Confined (f <$> m) :=
  fun _ hs => (h hs).map f

/-- A choice between local actions, each under its condition, is local. -/
theorem local_ite {c : Prop} [Decidable c] {m m' : ReaderM α} (h : c → Local r m) (h' : ¬c → Local r m') :
    Local r (if c then m else m') := by
  by_cases hc : c
  · rw [if_pos hc]
    exact h hc
  · rw [if_neg hc]
    exact h' hc

/-- What follows the state, as far as it goes by what is alike. -/
theorem local_get_bind {f : Reader → ReaderM α} (h : Local r (f r)) (h' : ∀ n t, Mirrors n r t → f t = f r) :
    Local r (get >>= f) := by
  intro x r' hm
  have hx : f r r = .ok x r' := hm
  refine ⟨(h hx).1, fun n t hn ht => ?_⟩
  have hf : (get >>= f) t = f r t := congrFun (h' n t ht) t
  have he := (h hx).2 n t hn ht
  unfold Echoes at he ⊢
  rw [hf]
  exact he

/-- What is read off the state, if it goes by what is alike. -/
theorem local_look {look : Reader → α} (h : ∀ n t, Mirrors n r t → look t = look r) : Local r (look <$> get) := by
  rw [map_eq_pure_bind]
  exact local_get_bind (local_pure _) fun n t ht => by rw [h n t ht]

/-- A change of the state apart from its bits. -/
theorem local_modify {change : Reader → Reader} (hv : ∀ s, (change s).view = s.view) (hf : r.Follows (change r))
    (hm : ∀ n t, Mirrors n r t → Mirrors n (change r) (change t)) : Local r (modify change) := by
  intro x r' h
  cases h
  exact ⟨hf, fun n t _ ht => echoes_ok (change t) rfl (hm n t ht) (by rw [hv])⟩

/-- An action between an entry and an exit that leave the bits alone. -/
theorem local_around {m : ReaderM α} (enter : Reader → Reader) (leave : Reader → Reader → Reader) (h : Local (enter r) m)
    (hve : ∀ s, (enter s).view = s.view) (hvl : ∀ s s', (leave s s').view = s'.view)
    (hf : ∀ r', (enter r).Follows r' → r.Follows (leave r r')) (hme : ∀ n t, Mirrors n r t → Mirrors n (enter r) (enter t))
    (hml : ∀ n t r' t', Mirrors n r t → Mirrors n r' t' → Mirrors n (leave r r') (leave t t')) :
    Local r (fun s => afterwards (leave s) m (enter s)) := by
  intro x r' hm
  simp only [afterwards] at hm
  split at hm
  · rename_i y r1 hy
    cases hm
    obtain ⟨hfollows, hecho⟩ := h hy
    refine ⟨hf r1 hfollows, fun n t hn ht => ?_⟩
    rw [hvl] at hn
    obtain ⟨hok, hshort⟩ := hecho n (enter t) hn (hme n t ht)
    rw [hve] at hok hshort
    refine ⟨fun hle => ?_, fun hlt => ?_⟩
    · rw [hvl] at hle
      obtain ⟨t1, ht1, hm1, hs1⟩ := hok hle
      exact ⟨leave t t1, by simp only [afterwards, ht1], hml n t r1 t1 ht hm1, by rw [hvl, hs1]⟩
    · rw [hvl] at hlt
      obtain ⟨t1, ht1⟩ := hshort hlt
      exact ⟨leave t t1, by simp only [afterwards, ht1]⟩
  · cases hm

/-- What two actions spend at least, both spend one after the other. -/
theorem Spends.bind {m : ReaderM α} {f : α → ReaderM β} {least more : Nat} (h : Spends r least m)
    (h' : ∀ ⦃x r'⦄, m r = .ok x r' → Spends r' more (f x)) : Spends r (least + more) (m >>= f) := by
  intro y r2 hm
  simp only [run_bind] at hm
  split at hm
  · rename_i x r1 hx
    have h1 := h hx
    have h2 := h' hx hm
    omega
  · cases hm

/-- A local action does not go back. -/
theorem Local.spends {m : ReaderM α} (h : Local r m) : Spends r 0 m :=
  fun _ _ hm => (h hm).1.position_le

/-- A failure spends whatever is asked for. -/
theorem spends_throw (least : Nat) (fault : Fault) : Spends r least (throw fault : ReaderM α) := by
  intro x r' hm
  cases hm

/-- A function of the result spends no less. -/
theorem Spends.map {m : ReaderM α} {least : Nat} (h : Spends r least m) (f : α → β) : Spends r least (f <$> m) := by
  rw [map_eq_pure_bind]
  exact (h.bind fun x r' _ => (local_pure (f x)).spends : Spends r (least + 0) _)

/-- What an action moves over is moved over whatever follows. -/
theorem local_bind_spends {m : ReaderM α} {f : α → ReaderM β} {least : Nat} (h : Local r m ∧ Spends r least m)
    (h' : ∀ ⦃x r'⦄, m r = .ok x r' → r.Follows r' → Local r' (f x)) : Local r (m >>= f) ∧ Spends r least (m >>= f) :=
  ⟨h.1.bind h', (h.2.bind fun _ _ hm => (h' hm (h.1 hm).1).spends : Spends r (least + 0) _)⟩

/-- What is moved over after an action is moved over with it. -/
theorem Local.bind_spends {m : ReaderM α} {f : α → ReaderM β} {least : Nat} (h : Local r m)
    (h' : ∀ ⦃x r'⦄, m r = .ok x r' → r.Follows r' → Local r' (f x) ∧ Spends r' least (f x)) :
    Local r (m >>= f) ∧ Spends r least (m >>= f) := by
  refine ⟨h.bind fun x r' hm hf => (h' hm hf).1, ?_⟩
  have hspent := h.spends.bind fun x r' hm => (h' hm (h hm).1).2
  rw [Nat.zero_add] at hspent
  exact hspent

/-- A choice between actions that spend something spends it. -/
theorem spends_ite {c : Prop} [Decidable c] {m m' : ReaderM α} {least : Nat} (h : c → Spends r least m)
    (h' : ¬c → Spends r least m') : Spends r least (if c then m else m') := by
  by_cases hc : c
  · rw [if_pos hc]
    exact h hc
  · rw [if_neg hc]
    exact h' hc

/-- A length is looked at in advance where at least that length is moved over anyway. -/
theorem local_remaining_bind {short : Nat → Prop} [DecidablePred short] {m : ReaderM α} {least : Nat}
    (h : Local r m ∧ Spends r least m) (hs : ∀ ahead, short ahead → ahead < least) :
    Local r (Unpacker.remaining >>= fun ahead => if short ahead then throw .endOfStream else m) := by
  have hrun : ∀ s : Reader, (Unpacker.remaining >>= fun ahead => if short ahead then throw .endOfStream else m) s =
      if short s.view.remaining then .error .endOfStream s else m s := by
    intro s
    rw [Unpacker.remaining_bind]
    show (if short s.view.remaining then throw .endOfStream else m) s = _
    by_cases hc : short s.view.remaining
    · rw [if_pos hc, if_pos hc]
      rfl
    · rw [if_neg hc, if_neg hc]
  intro x r' hm
  rw [hrun] at hm
  split at hm
  · cases hm
  · refine ⟨(h.1 hm).1, fun n t hn ht => ?_⟩
    have he := (h.1 hm).2 n t hn ht
    unfold Echoes at he ⊢
    rw [hrun]
    by_cases hc : short t.view.remaining
    · have hless := hs _ hc
      have hspent := h.2 hm
      have hpos := ht.position
      have hcov := ht.covered
      simp only [BitView.remaining] at hless
      rw [if_pos hc]
      exact ⟨fun hle => absurd hle (by omega), fun _ => ⟨t, rfl⟩⟩
    · rw [if_neg hc]
      exact he

/-- A look at the number of bits ahead spends nothing, and may end the reading. -/
theorem spends_remaining_bind {short : Nat → Prop} [DecidablePred short] {m : ReaderM α} {least : Nat} (h : Spends r least m) :
    Spends r least (Unpacker.remaining >>= fun ahead => if short ahead then throw .endOfStream else m) := by
  intro x r' hm
  rw [Unpacker.remaining_bind] at hm
  exact spends_ite (fun _ => spends_throw _ _) (fun _ => h) hm

/-! ## Fuel -/

/-- What an action that is given fuel reads with `fuel` depends on the bits before the place where it ends, whatever fuel it has
on other messages, as long as that is more than the bits ahead. -/
def Fueled (fuel : Nat) (r : Reader) (g : Nat → ReaderM α) : Prop :=
  ∀ ⦃x r'⦄, g fuel r = .ok x r' → r.Follows r' ∧
    ∀ n t fuel', r'.view.position ≤ n → Mirrors n r t → t.view.remaining < fuel' → Echoes n t (g fuel') x r'

/-- A local action that needs no fuel. -/
theorem Local.fueled {m : ReaderM α} (h : Local r m) (fuel : Nat) : Fueled fuel r fun _ => m :=
  fun _ _ hm => ⟨(h hm).1, fun n t _ hn ht _ => (h hm).2 n t hn ht⟩

/-- With the same fuel two actions are local one after the other. -/
theorem Fueled.bind {fuel : Nat} {g : Nat → ReaderM α} {f : Nat → α → ReaderM β} (h : Fueled fuel r g)
    (h' : ∀ ⦃x r'⦄, g fuel r = .ok x r' → r.Follows r' → Fueled fuel r' fun k => f k x) :
    Fueled fuel r fun k => g k >>= f k := by
  intro y r2 hm
  simp only [run_bind] at hm
  split at hm
  · rename_i x r1 hx
    have hf := (h hx).1
    have hy := h' hx hf hm
    have hle := hy.1.position_le
    refine ⟨hf.trans hy.1, fun n t fuel' hn ht hfuel => ?_⟩
    refine ((h hx).2 n t fuel' (Nat.le_trans hle hn) ht hfuel).bind hle fun t1 ht1 hs1 => hy.2 n t1 fuel' hn ht1 ?_
    have hpos := hf.position_le
    have hpt := ht.position
    have hpt1 := ht1.position
    simp only [BitView.remaining] at hfuel ⊢
    omega
  · cases hm

/-- An action that takes one unit of fuel for a part that moves over a bit. -/
theorem Fueled.succ {fuel : Nat} {g : Nat → ReaderM β} {m : ReaderM α} {f : α → Nat → ReaderM β} (h : Local r m)
    (hs : Spends r 1 m) (hg : ∀ k, g (k + 1) = m >>= fun x => f x k)
    (h' : ∀ ⦃x r'⦄, m r = .ok x r' → r.Follows r' → Fueled fuel r' (f x)) : Fueled (fuel + 1) r g := by
  intro y r2 hm
  simp only [hg, run_bind] at hm
  split at hm
  · rename_i x r1 hx
    have hf := (h hx).1
    have hspent := hs hx
    have hy := h' hx hf hm
    have hle := hy.1.position_le
    refine ⟨hf.trans hy.1, fun n t fuel' hn ht hfuel => ?_⟩
    obtain ⟨k, rfl⟩ := Nat.exists_eq_succ_of_ne_zero (Nat.ne_zero_of_lt hfuel)
    simp only [hg]
    refine ((h hx).2 n t (Nat.le_trans hle hn) ht).bind hle fun t1 ht1 hs1 => hy.2 n t1 k hn ht1 ?_
    have hpt := ht.position
    have hpt1 := ht1.position
    have hcov := ht1.covered
    simp only [BitView.remaining] at hfuel ⊢
    omega
  · cases hm

/-- An action that takes one unit of fuel, and no more. -/
theorem Local.fueled_succ {m : ReaderM α} {fuel : Nat} {g : Nat → ReaderM α} (h : Local r m) (hg : ∀ k, g (k + 1) = m) :
    Fueled (fuel + 1) r g := by
  intro x r' hm
  rw [hg] at hm
  refine ⟨(h hm).1, fun n t fuel' hn ht hfuel => ?_⟩
  obtain ⟨k, rfl⟩ := Nat.exists_eq_succ_of_ne_zero (Nat.ne_zero_of_lt hfuel)
  simp only [hg]
  exact (h hm).2 n t hn ht

/-- More fuel than there are bits ahead is as good as any. -/
theorem local_of_fueled {g : Nat → ReaderM α} (h : ∀ fuel, Fueled fuel r g) :
    Local r (Unpacker.remaining >>= fun ahead => g (ahead + 1)) := by
  intro x r' hm
  rw [Unpacker.remaining_bind] at hm
  obtain ⟨hf, hecho⟩ := h _ hm
  refine ⟨hf, fun n t hn ht => ?_⟩
  have he := hecho n t _ hn ht (Nat.lt_succ_self _)
  unfold Echoes at he ⊢
  rw [Unpacker.remaining_bind]
  exact he

/-! ## Reading bits -/

/-- A single step on the view is local when it moves over the bits that it looks at. -/
theorem local_onView {length : Nat} {action : EStateM Fault BitView α} (look : BitView → α)
    (hok : ∀ v : BitView, v.position + length ≤ v.stop →
      action v = .ok (look v) { v with position := v.position + length })
    (hshort : ∀ v : BitView, v.position ≤ v.stop → v.stop < v.position + length → action v = .error .endOfStream v)
    (hlook : ∀ v v' : BitView, v'.position = v.position →
      (∀ q, q < v.position + length → Octets.getBit v'.data q = Octets.getBit v.data q) → look v' = look v)
    (hs : r.Sound) : Local r (onView action) ∧ Spends r length (onView action) := by
  have hrun : ∀ ⦃x r'⦄, onView action r = .ok x r' → r.view.position + length ≤ r.view.stop ∧ x = look r.view ∧
      r' = { r with view := { r.view with position := r.view.position + length } } := by
    intro x r' hm
    rcases Nat.lt_or_ge r.view.stop (r.view.position + length) with hlt | hge
    · simp only [onView, hshort _ hs.position hlt] at hm
      cases hm
    · simp only [onView, hok _ hge] at hm
      cases hm
      exact ⟨hge, rfl, rfl⟩
  refine ⟨fun x r' hm => ?_, fun x r' hm => ?_⟩
  · obtain ⟨hge, rfl, rfl⟩ := hrun hm
    have hmoved : LawfulBitSource.Moved r length { r with view := { r.view with position := r.view.position + length } } := by
      refine ⟨⟨⟨rfl, ?_⟩, rfl, rfl, rfl, rfl, rfl⟩, rfl⟩
      simp only [BitView.remaining]
      omega
    refine ⟨.of_moved hmoved, fun n t hn ht => ⟨fun hle => ?_, fun hlt => ?_⟩⟩
    · have hpos := ht.position
      have hl := hlook r.view t.view hpos fun q hq => ht.bits q (Nat.lt_of_lt_of_le hq hn)
      have ho := hok t.view (by rw [hpos]; exact hle)
      rw [hl] at ho
      refine ⟨{ t with view := { t.view with position := t.view.position + length } }, by simp only [onView, ho], ?_, rfl⟩
      exact ⟨congrArg (· + length) hpos, hle, ht.bits, ht.presence, ht.claimed, ht.marker, ht.depth, ht.settings⟩
    · have hpos := ht.position
      have hcov := ht.covered
      have he := hshort t.view (by rw [hpos]; exact hcov) (by rw [hpos]; exact hlt)
      exact ⟨{ t with view := t.view }, by simp only [onView, he]⟩
  · obtain ⟨-, -, rfl⟩ := hrun hm
    exact Nat.le_refl _

/-- The next bit. -/
theorem local_bit (hs : r.Sound) : Local r Unpacker.bit ∧ Spends r 1 Unpacker.bit := by
  refine local_onView (fun v => Octets.getBit v.data v.position) (fun v hle => ?_) (fun v _ hlt => ?_)
    (fun v v' hpos hbits => ?_) hs
  · exact if_pos hle
  · exact if_neg (by omega)
  · rw [hpos]
    exact hbits _ (Nat.lt_succ_self _)

/-- A run of bits. -/
theorem local_run (dst : Octets) (offset length : Nat) (hs : r.Sound) :
    Local r (Unpacker.run dst offset length) ∧ Spends r length (Unpacker.run dst offset length) := by
  refine local_onView (fun v => Octets.copyBits dst offset v.data v.position length) (fun v hle => ?_)
    (fun v hv hlt => ?_) (fun v v' hpos hbits => ?_) hs
  · exact if_neg (by simp only [BitView.remaining]; omega)
  · exact if_pos (by simp only [BitView.remaining]; omega)
  · simp only [Octets.copyBits_eq_overlay, hpos]
    rw [Octets.bitsFrom_congr fun i hi => hbits (v.position + i) (by omega)]

end Reader

end UnalignedPer
