import UnalignedPer.Proofs.Message.Rechunking
import UnalignedPer.Proofs.Message.Seclusion
import UnalignedPer.Proofs.SizedContent.Recovery

/-!
# Open types that are read and skipped

An extension that is known is read by what its content is read with: from a part of the message, or from octets that were put together
from fragments. An extension that is not known is skipped, some octets at a time. Both have to end at the same place, or all that
follows would be read from the wrong bits.

What a read passes over is told by the chunks that were announced and not by the content (`Reader.inOpenType_passes`), and the same
chunks are skipped. The content has its octets and nothing else to go by (`Reader.meets_inOpenType`): two readers at the same position
of different messages cut out the same part or put together the same octets, and a script does not tell what lies beyond
(`Reader.secluded_of_scripted`).
-/

namespace UnalignedPer

open SizedContent (Chunked Chunking)
open LengthDeterminant (Announces Chunk)

namespace Reader

open LawfulBitSource (Moved)

variable {α β : Type} {r s t : Reader} {content : ReaderM α}

/-! ## What is passed over -/

/-- A step of the view changes nothing else. -/
theorem onView_only (action : EStateM Fault BitView α) (r : Reader) :
    (outcome (onView action) r).2 = { r with view := (outcome (onView action) r).2.view } := by
  unfold outcome onView
  cases action r.view <;> rfl

/-- Reading the bits ahead changes nothing but the view. -/
theorem linked_view (origin : Reader) : Linked fun r t : Reader => r = t ∧ ∃ view, r = { origin with view := view } where
  remaining := by
    rintro r _ ⟨rfl, -⟩
    rfl
  readBit := inStep_self_iff.mpr <| by
    rintro _ ⟨view, rfl⟩
    exact ⟨_, onView_only BitView.readBit _⟩
  readInto dst offset length := inStep_self_iff.mpr <| by
    rintro _ ⟨view, rfl⟩
    exact ⟨_, onView_only (BitView.readInto dst offset length) _⟩

/-- Skipping changes nothing but the view. -/
theorem skip_only (r : Reader) : ∃ view, (outcome OpenType.skip r).2 = { r with view := view } :=
  inStep_self_iff.mp (linked_view r).skipOpenType r ⟨r.view, rfl⟩

/-- Some bits complete a chunk that was announced. -/
def Completes (chunk : Chunk) (bits : List Bool) : Prop :=
  ∀ header, Announces chunk header →
    ∃ parts, Chunked parts (header ++ bits) ∧ ∀ part ∈ parts, part.bits.length = part.count * 8

theorem afterwards_eq_ok {change : Reader → Reader} {m : ReaderM α} {x : α} {r' : Reader} :
    afterwards change m r = .ok x r' ↔ ∃ s, m r = .ok x s ∧ r' = change s := by
  unfold afterwards
  cases m r with
  | ok y s => simp [eq_comm]
  | error fault s => simp

theorem afterwards_eq_error {change : Reader → Reader} {m : ReaderM α} {fault : Fault} {s : Reader} (h : m r = .error fault s) :
    afterwards change m r = .error fault (change s) := by
  unfold afterwards
  rw [h]

/-- Either bits of a kind are in front, and whichever content is read, they are passed over, or no content is read. -/
def Passes (reads : ∀ {α : Type}, ReaderM α → ReaderM α) (kind : List Bool → Prop) (s : Reader) : Prop :=
  (∃ bits, kind bits ∧ bits <+: s.view.toList ∧
      ∀ {α : Type} {content : ReaderM α} {x s'}, reads content s = .ok x s' → Moved s.view bits.length s'.view) ∨
    ∃ fault s', ∀ {α : Type} (content : ReaderM α), reads content s = .error fault s'

/-- The octets of a chunk are passed over, or they are not there. -/
theorem inChunk_passes (s : Reader) (count : Nat) : Passes (inChunk count) (Completes ⟨count, false⟩) s := by
  by_cases hl : count * 8 > s.view.remaining
  · exact .inr ⟨.endOfStream, s, fun content => (inChunk_run count content s).trans (if_pos hl)⟩
  · have hlength : (s.view.toList.take (count * 8)).length = count * 8 := by
      rw [List.length_take, BitView.length_toList]
      omega
    refine .inl ⟨s.view.toList.take (count * 8), fun header ha => ?_, List.take_prefix _ _, fun {α content x s'} h => ?_⟩
    · exact ⟨_, @Chunked.last ⟨count, s.view.toList.take (count * 8)⟩ header ha, List.forall_mem_singleton.mpr hlength⟩
    · have hrun := ((inChunk_run count content s).trans (if_neg hl)).symm.trans h
      rw [hlength]
      split at hrun
      · cases hrun
        exact ⟨rfl, Nat.le_of_not_lt hl⟩
      · cases hrun

/-- Fragments are passed over when they are put together, or they do not go together. -/
theorem inFragments_passes (s : Reader) (chunk : Chunk) : Passes (inFragments chunk) (Completes chunk) s := by
  have hrun : ∀ {α : Type} (content : ReaderM α), inFragments chunk content s = _ := fun content =>
    run_bind (SizedContent.unpackFrom .free 8 (some s.settings.maxLength.toNat) OctetString.unpackChunk 0 #[] chunk
      (s.view.remaining + 1)) (fun found => withView (.ofOctets found.2 (found.2.size * 8)) content) s
  cases hchunks : SizedContent.unpackFrom .free 8 (some s.settings.maxLength.toNat) OctetString.unpackChunk 0 #[] chunk
      (s.view.remaining + 1) s with
  | ok found s1 =>
    obtain ⟨bits, hbits, hfront, hmoved⟩ :=
      SizedContent.parses_unpackFrom (fun _ _ _ => Unpacker.parses_run _ _ _ _) 0 #[] chunk _ hchunks
    refine .inl ⟨bits, hbits, hfront, fun {α content x s'} h => ?_⟩
    have hview := (hrun content).symm.trans h
    rw [hchunks] at hview
    obtain ⟨s2, -, rfl⟩ := afterwards_eq_ok.mp hview
    exact hmoved.1.view
  | error fault s1 =>
    refine .inr ⟨fault, s1, fun content => (hrun content).trans ?_⟩
    rw [hchunks]

/-- An open type is passed over as a whole, or it does not stand in front as a whole. -/
theorem inOpenType_passes (r : Reader) :
    Passes inOpenType (fun bits => ∃ value, Chunking (OctetString.units value) bits) r := by
  have hrun : ∀ {α : Type} (content : ReaderM α), inOpenType content r =
      afterwards (fun s => { s with presence := r.presence, marker := r.marker })
        (LengthDeterminant.unpackFree >>= fun chunk =>
          note .verbose (fun () => "open type of " ++ toString chunk.units ++ " octets") >>= fun _ =>
            if chunk.isFragment then inFragments chunk content else inChunk chunk.units content)
        { r with presence := none } := fun _ => rfl
  cases hchunk : LengthDeterminant.unpackFree { r with presence := none } with
  | error fault s =>
    refine .inr ⟨fault, { s with presence := r.presence, marker := r.marker }, fun content => ?_⟩
    refine (hrun content).trans (afterwards_eq_error ?_)
    rw [run_bind, hchunk]
  | ok chunk s =>
    obtain ⟨header, ha, hfront, hmoved⟩ := LengthDeterminant.parses_unpackFree _ hchunk
    have hnoted := LawfulBitSource.moved_trans hmoved
      (moved_noted .verbose (fun () => "open type of " ++ toString chunk.units ++ " octets") s)
    generalize hs1 : noted .verbose (fun () => "open type of " ++ toString chunk.units ++ " octets") s = s1 at hnoted
    have hrest : ∀ {α : Type} (content : ReaderM α), inOpenType content r =
        afterwards (fun s => { s with presence := r.presence, marker := r.marker })
          (if chunk.isFragment then inFragments chunk content else inChunk chunk.units content) s1 := by
      intro α content
      refine (hrun content).trans ?_
      unfold afterwards
      rw [run_bind, hchunk, ← hs1]
      rfl
    have hpasses : Passes (fun content => if chunk.isFragment then inFragments chunk content else inChunk chunk.units content)
        (Completes chunk) s1 := by
      obtain ⟨count, isFragment⟩ := chunk
      cases isFragment with
      | true => exact inFragments_passes _ _
      | false => exact inChunk_passes _ _
    rcases hpasses with ⟨bits, hbits, hbehind, hpass⟩ | ⟨fault, s', hfail⟩
    · obtain ⟨parts, hchunked, hwhole⟩ := hbits header ha
      rw [show s1.view.toList = _ from LawfulBitSource.ahead_of_moved hnoted] at hbehind
      refine .inl ⟨header ++ bits, SizedContent.chunking_of_chunked hchunked hwhole, Unpacker.prefix_of_drop hfront hbehind,
        fun {α content x r'} h => ?_⟩
      obtain ⟨s', hcontent, rfl⟩ := afterwards_eq_ok.mp ((hrest content).symm.trans h)
      have hpassed := hpass hcontent
      rw [List.length_append]
      exact LawfulBitSource.moved_trans hnoted.1.view hpassed
    · exact .inr ⟨fault, _, fun content => (hrest content).trans (afterwards_eq_error (hfail content))⟩

/-! ## What a content depends on -/

/-- With the bits in front, two actions come to the same on any two readers, and both cursors move equally far. -/
def Abreast (bits : List Bool) (m m' : ReaderM α) : Prop :=
  ∀ ⦃r t : Reader⦄, bits <+: r.view.toList → bits <+: t.view.toList →
    (outcome m r).1 = (outcome m' t).1 ∧ ∃ n, Moved r n (outcome m r).2 ∧ Moved t n (outcome m' t).2

section Abreast

variable {bits more : List Bool} {limit : Option Nat}

theorem abreast_throw (fault : Fault) : Abreast bits (throw fault : ReaderM α) (throw fault) :=
  fun r t _ _ => ⟨rfl, 0, LawfulBitSource.moved_refl r, LawfulBitSource.moved_refl t⟩

theorem abreast_pure (x : α) : Abreast bits (pure x) (pure x) :=
  fun r t _ _ => ⟨rfl, 0, LawfulBitSource.moved_refl r, LawfulBitSource.moved_refl t⟩

/-- What follows an action that takes some bits, and goes by its result. -/
theorem Abreast.behind {m : ReaderM α} {x : α} {f f' : α → ReaderM β} (h : Abreast more (f x) (f' x))
    (hm : ∀ s : Reader, Unpacker.Takes s m bits x) : Abreast (bits ++ more) (m >>= f) (m >>= f') := by
  intro r t hr ht
  obtain ⟨r1, hrun, hmoved⟩ := hm r (Unpacker.prefix_left hr)
  obtain ⟨t1, hrun', hmoved'⟩ := hm t (Unpacker.prefix_left ht)
  have hbehind : ∀ {s s1 : Reader}, Moved s bits.length s1 → bits ++ more <+: s.view.toList → more <+: s1.view.toList := by
    intro s s1 hs hall
    rw [show s1.view.toList = _ from LawfulBitSource.ahead_of_moved hs]
    exact Unpacker.prefix_drop hall
  obtain ⟨hresult, n, hn, hn'⟩ := h (hbehind hmoved hr) (hbehind hmoved' ht)
  unfold outcome at hresult hn hn' ⊢
  rw [run_bind, run_bind, hrun, hrun']
  exact ⟨hresult, bits.length + n, LawfulBitSource.moved_trans hmoved hn, LawfulBitSource.moved_trans hmoved' hn'⟩

/-- A chunk whose bits are in front is checked against the limit alone. -/
theorem abreast_checkChunk_bind {m m' : ReaderM α} {count : Nat} (total : Nat) (hb : count * 8 ≤ bits.length)
    (h : Abreast bits m m') :
    Abreast bits (SizedContent.checkChunk 8 limit total count >>= fun _ => m)
      (SizedContent.checkChunk 8 limit total count >>= fun _ => m') := by
  rw [checkChunk_bind, checkChunk_bind]
  split
  · exact abreast_throw _
  · intro r t hr ht
    have hmod := Nat.mod_le (count * 8) UInt64.size
    have hpass : ∀ s : Reader, bits <+: s.view.toList →
        ¬(8 ≠ 0 ∧ count * 8 % UInt64.size > BitSource.remaining s) := by
      intro s hs
      have hle := hs.length_le
      rw [LawfulBitSource.remaining_eq]
      change bits.length ≤ (LawfulBitSource.ahead s).length at hle
      omega
    unfold outcome
    rw [Unpacker.remaining_bind, Unpacker.remaining_bind, if_neg (hpass r hr), if_neg (hpass t ht)]
    exact h hr ht

/-- A chunk is read, and what stands behind it if it is a fragment. -/
theorem abreast_unpackFrom {count fuel fuel' : Nat} {isFragment : Bool} (total : Nat) (sofar : Octets)
    (hl : bits.length = count * 8)
    (h : ∀ next, isFragment = true → Abreast more
      (LengthDeterminant.unpackFree >>= fun chunk =>
        SizedContent.unpackFrom .free 8 limit OctetString.unpackChunk (total + count) next chunk fuel)
      (LengthDeterminant.unpackFree >>= fun chunk =>
        SizedContent.unpackFrom .free 8 limit OctetString.unpackChunk (total + count) next chunk fuel')) :
    Abreast (bits ++ more)
      (SizedContent.unpackFrom .free 8 limit OctetString.unpackChunk total sofar ⟨count, isFragment⟩ (fuel + 1))
      (SizedContent.unpackFrom .free 8 limit OctetString.unpackChunk total sofar ⟨count, isFragment⟩ (fuel' + 1)) := by
  rw [SizedContent.unpackFrom, SizedContent.unpackFrom]
  have hroom : count * 8 ≤ (bits ++ more).length := by
    rw [List.length_append]
    omega
  refine abreast_checkChunk_bind _ hroom ?_
  refine Abreast.behind ?_ fun s => OctetString.takes_unpackChunk s sofar hl
  cases isFragment with
  | true => exact h _ rfl
  | false => exact abreast_pure _

/-- The chunks are put together in the same way, however much stands behind them. -/
theorem abreast_chunked {parts : List SizedContent.Part} (hc : Chunked parts bits)
    (hwhole : ∀ part ∈ parts, part.bits.length = part.count * 8) :
    ∀ {fuel fuel' : Nat} (total : Nat) (sofar : Octets), bits.length ≤ fuel → bits.length ≤ fuel' → Abreast bits
      (LengthDeterminant.unpackFree >>= fun chunk =>
        SizedContent.unpackFrom .free 8 limit OctetString.unpackChunk total sofar chunk fuel)
      (LengthDeterminant.unpackFree >>= fun chunk =>
        SizedContent.unpackFrom .free 8 limit OctetString.unpackChunk total sofar chunk fuel') := by
  induction hc with
  | @last part header ha =>
    intro fuel fuel' total sofar hf hf'
    have hhead := ha.length_le
    rw [List.length_append] at hf hf'
    obtain ⟨fuel, rfl⟩ : ∃ k, fuel = k + 1 := ⟨fuel - 1, by omega⟩
    obtain ⟨fuel', rfl⟩ : ∃ k, fuel' = k + 1 := ⟨fuel' - 1, by omega⟩
    refine Abreast.behind ?_ fun s => ha.takes_unpackFree s
    rw [← List.append_nil part.bits]
    exact abreast_unpackFrom total sofar (hwhole part (List.mem_singleton_self part)) fun _ hf => nomatch hf
  | @fragment part parts header bits ha rest ih =>
    intro fuel fuel' total sofar hf hf'
    have hhead := ha.length_le
    rw [List.length_append, List.length_append] at hf hf'
    obtain ⟨fuel, rfl⟩ : ∃ k, fuel = k + 1 := ⟨fuel - 1, by omega⟩
    obtain ⟨fuel', rfl⟩ : ∃ k, fuel' = k + 1 := ⟨fuel' - 1, by omega⟩
    obtain ⟨hpart, hparts⟩ := List.forall_mem_cons.mp hwhole
    refine Abreast.behind ?_ fun s => ha.takes_unpackFree s
    exact abreast_unpackFrom total sofar hpart fun next _ => ih hparts _ next (by omega) (by omega)

end Abreast

/-! ## The content alone -/

/-- From both readers an action comes to the same, and ends at the same position. -/
def Meets (m : ReaderM α) (r t : Reader) : Prop :=
  (outcome m t).1 = (outcome m r).1 ∧ (outcome m t).2.view.position = (outcome m r).2.view.position

/-- Readers at the same position that have moved equally far. -/
theorem position_of_moved {r t s s' : Reader} {n : Nat} (hpos : t.view.position = r.view.position) (hs : Moved r n s)
    (hs' : Moved t n s') : s'.view.position = s.view.position := by
  rw [hs.1.view.1, hs'.1.view.1]
  exact congrArg (· + n) hpos

section Contents

variable (h : Secluded content) {n : Nat} {w : BitView} (hs : Moved { r with presence := none } n s)
  (ht : Moved { r with view := w, presence := none } n t) (hpos : w.position = r.view.position)

include h hs ht

/-- A content that was put together depends on its octets. -/
theorem withView_alike (data : Octets) :
    (outcome (withView (.ofOctets data (data.size * 8)) content) t).1 =
        (outcome (withView (.ofOctets data (data.size * 8)) content) s).1 ∧
      (outcome (withView (.ofOctets data (data.size * 8)) content) t).2.view = t.view ∧
      (outcome (withView (.ofOctets data (data.size * 8)) content) s).2.view = s.view := by
  have hview : ∀ s : Reader, outcome (withView (.ofOctets data (data.size * 8)) content) s = _ := fun s =>
    outcome_afterwards (fun s' => { s' with view := s.view }) content { s with view := .ofOctets data (data.size * 8) }
  have hsame := BitView.shifted_ofOctets data (data.size * 8)
  have hboth := h 0 ⟨_, shifted_inOctets hs hsame, shifted_inOctets (r := { r with view := w }) ht hsame⟩
  rw [hview s, hview t]
  exact ⟨hboth.1.symm, rfl, rfl⟩

include hpos

/-- A content in a single chunk depends on its octets and its place. -/
theorem meets_inChunk {data : Octets} (hbs : Octets.bitsFrom data 0 (data.size * 8) <+: s.view.toList)
    (hbt : Octets.bitsFrom data 0 (data.size * 8) <+: t.view.toList) : Meets (inChunk data.size content) s t := by
  have hplace : t.view.position = s.view.position := position_of_moved hpos hs ht
  have hls := hbs.length_le
  have hlt := hbt.length_le
  rw [Octets.length_bitsFrom, BitView.length_toList] at hls hlt
  have hshifted := shifted_inOctets (r := { r with view := w }) ht (BitView.shifted_of_prefix hbt)
  rw [hplace] at hshifted
  unfold Meets outcome
  rw [inChunk_run, inChunk_run, if_neg (Nat.not_lt.mpr hls), if_neg (Nat.not_lt.mpr hlt)]
  rcases (h _).cases ⟨_, shifted_inOctets hs (BitView.shifted_of_prefix hbs), hshifted⟩ with
    ⟨x, s', t', hrun, hrun', -⟩ | ⟨fault, s', t', hrun, hrun', -⟩
  · rw [← hplace] at hrun'
    rw [hrun, hrun']
    exact ⟨rfl, congrArg (· + data.size * 8) hplace⟩
  · rw [← hplace] at hrun'
    rw [hrun, hrun']
    exact ⟨rfl, hplace⟩

/-- A content in fragments depends on its octets, as far as they are put together. -/
theorem meets_inFragments {chunk : Chunk} {bits : List Bool} (hbs : bits <+: s.view.toList) (hbt : bits <+: t.view.toList)
    (hbits : ∀ limit fuel fuel', bits.length ≤ fuel → bits.length ≤ fuel' → Abreast bits
      (SizedContent.unpackFrom .free 8 limit OctetString.unpackChunk 0 #[] chunk (fuel + 1))
      (SizedContent.unpackFrom .free 8 limit OctetString.unpackChunk 0 #[] chunk (fuel' + 1))) :
    Meets (inFragments chunk content) s t := by
  have hsettings : t.settings = s.settings := ht.1.settings.trans hs.1.settings.symm
  have hls := hbs.length_le
  have hlt := hbt.length_le
  rw [BitView.length_toList] at hls hlt
  have hrun : ∀ s : Reader, inFragments chunk content s =
      (SizedContent.unpackFrom .free 8 (some s.settings.maxLength.toNat) OctetString.unpackChunk 0 #[] chunk
        (s.view.remaining + 1) >>= fun found => withView (.ofOctets found.2 (found.2.size * 8)) content) s := fun _ => rfl
  obtain ⟨hresult, k, hs1, ht1⟩ := hbits (some s.settings.maxLength.toNat) _ _ hls hlt hbs hbt
  have hs2 := LawfulBitSource.moved_trans hs hs1
  have ht2 := LawfulBitSource.moved_trans ht ht1
  have hplace := position_of_moved hpos hs2 ht2
  rcases cases_of_outcome hresult with ⟨found, hok, hok'⟩ | ⟨fault, herror, herror'⟩
  · obtain ⟨hcontent, hviewt, hviews⟩ := withView_alike h hs2 ht2 found.2
    unfold Meets outcome
    rw [hrun s, hrun t, hsettings, run_bind, run_bind, hok, hok']
    exact ⟨hcontent, (congrArg BitView.position hviewt).trans (hplace.trans (congrArg BitView.position hviews).symm)⟩
  · unfold Meets outcome
    rw [hrun s, hrun t, hsettings, run_bind, run_bind, herror, herror']
    exact ⟨rfl, hplace⟩

end Contents

/-- An open type depends on its content, once its first chunk is announced. -/
theorem meets_inOpenType_announced {chunk : Chunk} {header behind : List Bool} {w : BitView} (ha : Announces chunk header)
    (hb : header ++ behind <+: r.view.toList) (hw : header ++ behind <+: w.toList)
    (h : ∀ s t, Moved { r with presence := none } header.length s → Moved { r with view := w, presence := none } header.length t →
      behind <+: s.view.toList → behind <+: t.view.toList →
        Meets (if chunk.isFragment then inFragments chunk content else inChunk chunk.units content) s t) :
    Meets (inOpenType content) r { r with view := w } := by
  obtain ⟨s, hs, hbs, hout⟩ := inOpenType_announced content ha hb
  obtain ⟨t, ht, hbt, hout'⟩ := inOpenType_announced (r := { r with view := w }) content ha hw
  unfold Meets
  rw [hout, hout']
  exact h s t hs ht hbs hbt

/-- An open type depends on the octets that it announces, and on its place. -/
theorem meets_inOpenType (h : Secluded content) {value : Octets} {bits : List Bool} {w : BitView}
    (hc : Chunking (OctetString.units value) bits) (hb : bits <+: r.view.toList) (hw : bits <+: w.toList)
    (hpos : w.position = r.view.position) : Meets (inOpenType content) r { r with view := w } := by
  obtain ⟨pieces, hp, hc⟩ := hc
  have hwhole : ∀ part ∈ pieces.map SizedContent.Part.ofUnits, part.bits.length = part.count * 8 := by
    intro part hpart
    obtain ⟨piece, hpiece, rfl⟩ := List.mem_map.mp hpart
    refine Bits.length_flatten_of_octets fun unit hunit => ?_
    exact Bits.length_of_mem_octets (show unit ∈ OctetString.units value from hp ▸ List.mem_flatten_of_mem hpiece hunit)
  have hsize := congrArg List.length hp
  rw [OctetString.length_units] at hsize
  have hoctets := congrArg List.flatten hp
  rw [OctetString.flatten_units] at hoctets
  generalize hparts : pieces.map SizedContent.Part.ofUnits = parts at hc hwhole
  cases hc with
  | @last part header ha =>
    obtain ⟨piece, rfl, rfl⟩ := List.map_eq_singleton_iff.mp hparts
    rw [List.flatten_singleton] at hsize hoctets
    refine meets_inOpenType_announced ha hb hw fun s t hs ht hbs hbt => ?_
    have hcount : (SizedContent.Part.ofUnits piece).count = value.size := hsize
    have hbits : (SizedContent.Part.ofUnits piece).bits = Octets.bitsFrom value 0 (value.size * 8) := hoctets
    rw [hbits] at hbs hbt
    rw [if_neg Bool.false_ne_true, hcount]
    exact meets_inChunk h hs ht hpos hbs hbt
  | @fragment part parts header behind ha hrest =>
    obtain ⟨hpart, hrestwhole⟩ := List.forall_mem_cons.mp hwhole
    refine meets_inOpenType_announced ha hb hw fun s t hs ht hbs hbt => ?_
    rw [if_pos rfl]
    refine meets_inFragments h hs ht hpos hbs hbt fun limit fuel fuel' hf hf' => ?_
    rw [List.length_append] at hf hf'
    exact abreast_unpackFrom 0 #[] hpart fun next _ => abreast_chunked hrest hrestwhole _ next (by omega) (by omega)

end Reader

/-! ## Reading and skipping -/

open Reader (inOpenType)

/-- Whatever reads the content of an open type, and however much of it, skipping the open type ends where reading it ends. A script
that reads the content goes by its bits alone: in every message with the same open type at the same position the script comes to the
same, whatever stands before and behind it. Where no open type stands in front as a whole, its content is not read at all. -/
theorem openType_contained (r : Reader) :
    (∀ {α : Type} (content : ReaderM α) x r', inOpenType content r = .ok x r' →
      OpenType.skip r = .ok () { r with view := r'.view } ∧
        ∃ value bits, Chunking (OctetString.units value) bits ∧ bits <+: r.view.toList ∧
          LawfulBitSource.Moved r.view bits.length r'.view) ∧
    (∀ {α : Type} (content : ReaderM α) value bits (other : BitView), Reader.Scripted content →
      Chunking (OctetString.units value) bits → bits <+: r.view.toList → bits <+: other.toList →
        other.position = r.view.position →
          (outcome (inOpenType content) { r with view := other }).1 = (outcome (inOpenType content) r).1 ∧
            (outcome (inOpenType content) { r with view := other }).2.view.position =
              (outcome (inOpenType content) r).2.view.position) ∧
    ((∀ value bits, Chunking (OctetString.units value) bits → ¬bits <+: r.view.toList) →
      ∃ fault r', ∀ {α : Type} (content : ReaderM α), inOpenType content r = .error fault r') := by
  refine ⟨fun content x r' h => ?_, fun content value bits other hcontent hc hb hother hpos => ?_, fun habsent => ?_⟩
  · rcases Reader.inOpenType_passes r with ⟨bits, ⟨value, hc⟩, hb, hpass⟩ | ⟨fault, s, hfail⟩
    · have hmoved := hpass h
      obtain ⟨s, hskip, hs⟩ := OpenType.takesChunked_skip r value bits hc hb
      obtain ⟨view, honly⟩ := Reader.skip_only r
      rw [outcome_ok hskip] at honly
      have hview : view = r'.view := (congrArg Reader.view honly).symm.trans (hs.1.view.1.trans hmoved.1.symm)
      rw [hskip, show s = _ from honly, hview]
      exact ⟨rfl, value, bits, hc, hb, hmoved⟩
    · exact nomatch h.symm.trans (hfail content)
  · exact Reader.meets_inOpenType (Reader.secluded_of_scripted hcontent) hc hb hother hpos
  · rcases Reader.inOpenType_passes r with ⟨bits, ⟨value, hc⟩, hb, -⟩ | hfail
    · exact absurd hb (habsent value bits hc)
    · exact hfail

/-- A truth value in an open type of two octets, of which it takes one bit: the rest is passed over, as it is by skipping, and what
stands around the open type does not count. Without its last octet it is not there. -/
theorem openType_contained_flag :
    let r := Reader.ofView ⟨#[0xA0, 0x28, 0x0F, 0xF5], 4, 32⟩ .standard
    let other : BitView := ⟨#[0x50, 0x28, 0x0F, 0xFA, 0xFF], 4, 40⟩
    let short := Reader.ofView ⟨#[0xA0, 0x28, 0x0F, 0xF5], 4, 20⟩ .standard
    let bits := false :: Bits.ofNat 2 7 ++ Octets.bitsFrom #[0x80, 0xFF] 0 16
    (∃ r', inOpenType Reader.boolean r = .ok true r' ∧ OpenType.skip r = .ok () { r with view := r'.view }) ∧
      Chunking (OctetString.units #[0x80, 0xFF]) bits ∧ bits <+: r.view.toList ∧ bits <+: other.toList ∧
      (outcome (inOpenType Reader.boolean) { r with view := other }).1 = (outcome (inOpenType Reader.boolean) r).1 ∧
      (∀ value bits, Chunking (OctetString.units value) bits → ¬bits <+: short.view.toList) ∧
      ∃ fault r', ∀ content : ReaderM Bool, inOpenType content short = .error fault r' := by
  intro r other short bits
  obtain ⟨hskip, halike, -⟩ := openType_contained r
  obtain ⟨-, -, habsent⟩ := openType_contained short
  obtain ⟨r', hread⟩ : ∃ r', inOpenType Reader.boolean r = .ok true r' := resultOf_eq_some.mp (by decide +kernel)
  have hchunking : Chunking (OctetString.units #[0x80, 0xFF]) bits :=
    ⟨[OctetString.units #[0x80, 0xFF]], rfl, .last (.short (by decide))⟩
  have hahead : bits <+: r.view.toList := by decide +kernel
  have hother : bits <+: other.toList := by decide +kernel
  have hshort : ∀ value bits, Chunking (OctetString.units value) bits → ¬bits <+: short.view.toList := by
    intro value bits hc hb
    obtain ⟨s, hs, -⟩ := OpenType.takesChunked_skip short value bits hc hb
    have hnone : resultOf OpenType.skip short = none := by decide +kernel
    exact nomatch hnone.symm.trans (resultOf_eq_some.mpr ⟨s, hs⟩)
  obtain ⟨fault, s, hfail⟩ := habsent hshort
  exact ⟨⟨r', hread, (hskip Reader.boolean true r' hread).1⟩, hchunking, hahead, hother,
    (halike Reader.boolean #[0x80, 0xFF] bits other .boolean hchunking hahead hother rfl).1, hshort, fault, s,
    fun content => hfail content⟩

end UnalignedPer
