import UnalignedPer.Proofs.Cost
import UnalignedPer.Proofs.InStep
import UnalignedPer.Proofs.Text.CharacterString

/-!
# Units are asked for when their bits are there

The length in front of a content is whatever stands there. The units of a chunk are asked for only when the bits ahead are enough
for them and the units so far within the limit, and nothing of the content is grown before that.

To say so of reads that fail as well, a source is watched (`SizedContent.Watched`): it notes each call for units with the bits that
are ahead at that moment, and notes change nothing of what is read (`SizedContent.outcome_watching`). What such calls keep is said
once for a content of any size (`SizedContent.Invariant`), and holds for the calls themselves (`SizedContent.checked_requests`) and
for what they grow (`SizedContent.confined_requests`). Strings are not grown beyond what the source holds
(`SizedContent.strings_within_source`).
-/

namespace UnalignedPer

variable {σ α β : Type}

namespace Unpacker

/-- What an action leaves when it succeeds, and what it leaves when it fails. -/
def Ends (s : σ) (action : Unpacker σ α) (kept : α → σ → Prop) (lost : σ → Prop) : Prop :=
  match action s with
  | .ok x s' => kept x s'
  | .error _ s' => lost s'

/-- A result alone is kept with the state it has. -/
theorem ends_pure {s : σ} {x : α} {kept : α → σ → Prop} {lost : σ → Prop} (h : kept x s) : Ends s (pure x) kept lost := h

/-- A failure leaves the state it has. -/
theorem ends_throw {s : σ} {kept : α → σ → Prop} {lost : σ → Prop} (fault : Fault) (h : lost s) :
    Ends s (throw fault) kept lost := h

/-- What the first action keeps the second one starts from, and what the first one loses is lost. -/
theorem Ends.bind {s : σ} {m : Unpacker σ α} {f : α → Unpacker σ β} {kept : α → σ → Prop} {kept' : β → σ → Prop}
    {lost : σ → Prop} (h : Ends s m kept lost) (h' : ∀ x s', kept x s' → Ends s' (f x) kept' lost) :
    Ends s (m >>= f) kept' lost := by
  unfold Ends at h ⊢
  rw [run_bind]
  cases hm : m s with
  | ok x s' =>
    rw [hm] at h
    exact h' x s' h
  | error fault s' =>
    rw [hm] at h
    exact h

/-- Less may be said of what is kept and of what is lost. -/
theorem Ends.imp {s : σ} {m : Unpacker σ α} {kept kept' : α → σ → Prop} {lost lost' : σ → Prop} (h : Ends s m kept lost)
    (hkept : ∀ x s', kept x s' → kept' x s') (hlost : ∀ s', lost s' → lost' s') : Ends s m kept' lost' := by
  unfold Ends at h ⊢
  split at h
  · exact hkept _ _ h
  · exact hlost _ h

/-- A choice between actions, each under its condition. -/
theorem ends_ite {s : σ} {c : Prop} [Decidable c] {m m' : Unpacker σ α} {kept : α → σ → Prop} {lost : σ → Prop}
    (h : c → Ends s m kept lost) (h' : ¬c → Ends s m' kept lost) : Ends s (if c then m else m') kept lost := by
  by_cases hc : c
  · rw [if_pos hc]
    exact h hc
  · rw [if_neg hc]
    exact h' hc

/-- What an action that fails leaves as well. -/
theorem Ends.of_lost {s : σ} {m : Unpacker σ α} {kept : α → σ → Prop} {lost : σ → Prop} (h : Ends s m kept lost)
    (hlost : ∀ x s', kept x s' → lost s') : lost (outcome m s).2 := by
  unfold Ends at h
  unfold outcome
  cases hm : m s with
  | ok x s' =>
    rw [hm] at h
    exact hlost x s' h
  | error fault s' =>
    rw [hm] at h
    exact h

end Unpacker

/-- A determinant announces at most four units of a fragment header. -/
theorem LengthDeterminant.units_le [BitSource σ] [LawfulBitSource σ] (s : σ) (bounds : Bounds Nat) :
    Unpacker.Gives s (unpack bounds) fun chunk => chunk.units ≤ boundedLimit := by
  have hwidth : ∀ (s : σ) (width : Nat), Unpacker.Gives s (unpackWidth width) fun value => value < 2 ^ width :=
    fun s width => (Unpacker.gives_word s width).map _ fun _ h => h
  unfold unpack
  split
  · rename_i upper hb
    have hlt := (boundedUpper_eq_some hb).2
    refine Unpacker.gives_ite (fun _ => Unpacker.gives_throw s _ _) fun _ => ?_
    refine (hwidth s _).bind fun offset s1 _ _ _ => ?_
    refine Unpacker.gives_ite (fun _ => Unpacker.gives_throw s1 _ _) fun hle => Unpacker.gives_pure s1 ?_
    exact Nat.le_of_lt (Nat.lt_of_le_of_lt (Nat.not_lt.mp hle) hlt)
  · refine (Unpacker.gives_bit s).bind fun isLong s1 _ _ _ => ?_
    refine Unpacker.gives_ite (fun _ => (hwidth s1 7).map _ fun n hn => ?_) fun _ => ?_
    · simp only [boundedLimit]
      omega
    refine (Unpacker.gives_bit s1).bind fun isFragment s2 _ _ _ => ?_
    refine Unpacker.gives_ite (fun _ => (hwidth s2 14).map _ fun n hn => ?_) fun _ => ?_
    · simp only [boundedLimit]
      omega
    refine (hwidth s2 6).bind fun units s3 _ _ _ => ?_
    refine Unpacker.gives_ite (fun _ => Unpacker.gives_throw s3 _ _) fun hunits => Unpacker.gives_pure s3 ?_
    simp only [maxFragmentUnits, boundedLimit, fragmentUnit] at hunits ⊢
    omega

namespace SizedContent

open LengthDeterminant Unpacker

/-! ## What the chunks of a content keep -/

section Invariant

variable [BitSource σ] {unitBits : Nat} {limit : Option Nat} {consume : α → Nat → Unpacker σ α}
  {kept : Nat → α → σ → Prop} {lost : σ → Prop}

/-- Something is kept, with the number of units and what was read of them so far, by the reads between the chunks and by each chunk
that is asked for within the limit and with its bits ahead. Wherever a read ends, a weaker statement remains. -/
structure Invariant (unitBits : Nat) (limit : Option Nat) (consume : α → Nat → Unpacker σ α) (kept : Nat → α → σ → Prop)
    (lost : σ → Prop) : Prop where
  /-- A read may end wherever something is kept. -/
  lost_of_kept : ∀ {total sofar s}, kept total sofar s → lost s
  /-- The bit in front of an extensible content. -/
  bit : ∀ {total sofar s}, kept total sofar s → Ends s Unpacker.bit (fun _ => kept total sofar) lost
  /-- The determinant in front of a chunk. -/
  length : ∀ {total sofar s}, kept total sofar s → ∀ bounds,
    Ends s (LengthDeterminant.unpack bounds) (fun chunk s' => chunk.units ≤ boundedLimit ∧ kept total sofar s') lost
  /-- The units of a chunk. -/
  chunk : ∀ {total sofar s} units, kept total sofar s → (∀ l, limit = some l → total + units ≤ l) →
    units * unitBits ≤ BitSource.remaining s → Ends s (consume sofar units) (kept (total + units)) lost

/-- A chunk that passes the checks has its bits ahead: their number does not wrap around. -/
theorem ends_checkChunk (s : σ) {units : Nat} (total : Nat) (hmax : unitBits ≤ 2 ^ 32) (hunits : units ≤ boundedLimit) :
    Ends s (checkChunk unitBits limit total units)
      (fun _ s' => s' = s ∧ (∀ l, limit = some l → total ≤ l) ∧ units * unitBits ≤ BitSource.remaining s) (· = s) := by
  have hword : units * unitBits % UInt64.size = units * unitBits := by
    have hle := Nat.mul_le_mul hunits hmax
    simp only [boundedLimit] at hle
    exact Nat.mod_eq_of_lt (by simp only [UInt64.size]; omega)
  unfold checkChunk
  by_cases hlim : limit.any (· < total) = true
  · rw [if_pos hlim]
    exact ends_throw _ rfl
  · rw [if_neg hlim]
    have hwithin : ∀ l, limit = some l → total ≤ l := by
      intro l hl
      rw [Option.any_eq_true] at hlim
      exact Nat.not_lt.mp fun hn => hlim ⟨l, hl, decide_eq_true hn⟩
    have hremaining : Ends s Unpacker.remaining (fun ahead s' => ahead = BitSource.remaining s ∧ s' = s) (· = s) := ⟨rfl, rfl⟩
    refine hremaining.bind ?_
    rintro _ _ ⟨rfl, rfl⟩
    refine ends_ite (fun _ => ends_throw _ rfl) fun hahead => ends_pure ⟨rfl, hwithin, ?_⟩
    rw [hword] at hahead
    rcases Nat.eq_zero_or_pos unitBits with rfl | hpos
    · exact Nat.zero_le _
    · omega

variable (h : Invariant unitBits limit consume kept lost) (hmax : unitBits ≤ 2 ^ 32)

include h hmax

/-- Behind its checks a chunk may be asked for. -/
theorem Invariant.checked {s : σ} {total units : Nat} {sofar : α} (hk : kept total sofar s) (hunits : units ≤ boundedLimit) :
    Ends s (checkChunk unitBits limit (total + units) units)
      (fun _ s' => Ends s' (consume sofar units) (kept (total + units)) lost) lost := by
  refine (ends_checkChunk s (total + units) hmax hunits).imp ?_ ?_
  · rintro _ _ ⟨rfl, hl, hb⟩
    exact h.chunk units hk hl hb
  · rintro _ rfl
    exact h.lost_of_kept hk

/-- Chunks from some point on keep the invariant, as each of them does. -/
theorem Invariant.ends_unpackFrom (bounds : Bounds Nat) (fuel : Nat) :
    ∀ {s : σ} {total : Nat} {sofar : α} {chunk : Chunk}, kept total sofar s → chunk.units ≤ boundedLimit →
      Ends s (unpackFrom bounds unitBits limit consume total sofar chunk fuel) (fun found => kept found.1 found.2) lost := by
  induction fuel with
  | zero => exact fun hk _ => ends_throw _ (h.lost_of_kept hk)
  | succ fuel ih =>
    intro s total sofar chunk hk hunits
    rw [unpackFrom]
    refine (h.checked hmax hk hunits).bind fun _ s1 hchunk => hchunk.bind fun after s2 hafter => ?_
    refine ends_ite (fun _ => ?_) fun _ => ends_pure hafter
    exact (h.length hafter bounds).bind fun next s3 hnext => ih hnext.2 hnext.1

/-- Counted units keep the invariant from the start on. -/
theorem Invariant.ends_unpackCounted {size : Bounds Nat} {s : σ} {start : α} (hk : kept 0 start s) :
    Ends s (unpackCounted size unitBits limit start consume) (fun found s' => ∃ total, kept total found s') lost := by
  have hremaining : Ends s Unpacker.remaining (fun _ => kept 0 start) lost := hk
  refine hremaining.bind fun ahead s1 hk => ?_
  refine (h.length hk _).bind fun chunk s2 hchunk => ?_
  refine (h.ends_unpackFrom hmax _ _ hchunk.2 hchunk.1).bind ?_
  rintro ⟨total, found⟩ s3 hfound
  exact ends_ite (fun _ => ends_pure ⟨total, hfound⟩) fun _ => ends_throw _ (h.lost_of_kept hfound)

/-- A content within its bounds keeps the invariant from the start on. -/
theorem Invariant.ends_unpackRoot {size : Bounds Nat} {s : σ} {start : α} (hk : kept 0 start s) :
    Ends s (unpackRoot size unitBits limit start consume) (fun found s' => ∃ total, kept total found s') lost := by
  unfold unpackRoot
  refine ends_ite (fun _ => ends_pure ⟨0, hk⟩) fun _ => ?_
  cases hf : fixedSize size with
  | none => exact h.ends_unpackCounted hmax hk
  | some count =>
    have hcount : count ≤ boundedLimit := by
      unfold fixedSize at hf
      split at hf
      · rename_i lower upper _ hb
        have hlt := (boundedUpper_eq_some hb).2
        split at hf
        · cases hf
          exact Nat.le_of_lt hlt
        · cases hf
      · cases hf
    have hchecked := h.checked hmax hk hcount
    rw [Nat.zero_add] at hchecked
    exact hchecked.bind fun _ s1 hchunk => hchunk.imp (fun _ _ hfound => ⟨count, hfound⟩) fun _ hl => hl

/-- What the chunks keep is kept by the whole content. -/
theorem Invariant.ends_unpack {size : Bounds Nat} {extensible : Bool} {s : σ} {start : α} (hk : kept 0 start s) :
    Ends s (unpack size extensible unitBits limit start consume) (fun found s' => ∃ total, kept total found s') lost := by
  refine ends_ite (fun _ => ?_) fun _ => h.ends_unpackRoot hmax hk
  refine (h.bit hk).bind fun outside s1 hk => ?_
  exact ends_ite (fun _ => h.ends_unpackCounted hmax hk) fun _ => h.ends_unpackRoot hmax hk

end Invariant

/-! ## Calls for units -/

/-- A call for the units of a chunk. -/
structure Request (α : Type) where
  /-- What was read before. -/
  sofar : α
  /-- The units that are asked for. -/
  count : Nat
  /-- The bits that are ahead at that moment. -/
  ahead : Nat

/-- A source and the calls for units that were made on it. -/
structure Watched (σ α : Type) where
  /-- The source. -/
  source : σ
  /-- The calls in their order. -/
  requests : List (Request α)

namespace Watched

/-- An action on the source. -/
def lift (action : Unpacker σ β) : Unpacker (Watched σ α) β := fun w =>
  match action w.source with
  | .ok x s => .ok x ⟨s, w.requests⟩
  | .error fault s => .error fault ⟨s, w.requests⟩

/-- An action below the watch comes to the same and makes no calls. -/
theorem outcome_lift (action : Unpacker σ β) (w : Watched σ α) :
    outcome (lift action) w = ((outcome action w.source).1, ⟨(outcome action w.source).2, w.requests⟩) := by
  unfold outcome lift
  cases action w.source <;> rfl

/-- A watched source is read as the source is. -/
instance [BitSource σ] : BitSource (Watched σ α) where
  position w := BitSource.position w.source
  remaining w := BitSource.remaining w.source
  readBit := lift BitSource.readBit
  readInto dst offset length := lift (BitSource.readInto dst offset length)

/-- The calls of a watched source are of a kind. -/
def Behind (P : List (Request α) → Prop) (s : σ) (w : Watched σ α) : Prop :=
  w.source = s ∧ P w.requests

/-- An action below the watch is in step with itself. -/
theorem inStep_lift (action : Unpacker σ β) (P : List (Request α) → Prop) : InStep (Behind P) action (lift action) := by
  rintro _ w ⟨rfl, hp⟩
  rw [outcome_lift]
  exact ⟨rfl, rfl, hp⟩

/-- Reads of a watched source add no calls. -/
theorem linked [BitSource σ] (P : List (Request α) → Prop) : Linked (Behind P : σ → Watched σ α → Prop) where
  remaining := by
    rintro _ w ⟨rfl, -⟩
    rfl
  readBit := inStep_lift BitSource.readBit P
  readInto dst offset length := inStep_lift (BitSource.readInto dst offset length) P

end Watched

variable [BitSource σ]

/-- Notes the call for a chunk before it is read. -/
def watching (consume : α → Nat → Unpacker σ α) (sofar : α) (count : Nat) : Unpacker (Watched σ α) α := fun w =>
  Watched.lift (consume sofar count) ⟨w.source, w.requests ++ [⟨sofar, count, BitSource.remaining w.source⟩]⟩

/-- The calls for units that are made when a content is read. -/
def requests (s : σ) (size : Bounds Nat) (extensible : Bool) (unitBits : Nat) (limit : Option Nat) (start : α)
    (consume : α → Nat → Unpacker σ α) : List (Request α) :=
  (outcome (unpack size extensible unitBits limit start (watching consume)) ⟨s, []⟩).2.requests

/-- A watched content is read as the content is: it comes to the same and leaves the same source. -/
theorem outcome_watching (s : σ) (size : Bounds Nat) (extensible : Bool) (unitBits : Nat) (limit : Option Nat) (start : α)
    (consume : α → Nat → Unpacker σ α) :
    outcome (unpack size extensible unitBits limit start (watching consume)) ⟨s, []⟩ =
      ((outcome (unpack size extensible unitBits limit start consume) s).1,
        ⟨(outcome (unpack size extensible unitBits limit start consume) s).2,
          requests s size extensible unitBits limit start consume⟩) := by
  have hchunk : ∀ sofar count, InStep (Watched.Behind fun _ => True) (consume sofar count) (watching consume sofar count) := by
    rintro sofar count _ w ⟨rfl, -⟩
    exact Watched.inStep_lift (consume sofar count) (fun _ => True) ⟨rfl, trivial⟩
  have hstep := (Watched.linked fun _ => True).unpackSized hchunk size extensible unitBits limit start
    (s := s) (t := ⟨s, []⟩) ⟨rfl, trivial⟩
  exact Prod.ext hstep.1.symm (congrArg (Watched.mk · _) hstep.2.1)

/-- The units that were asked for. -/
def asked : List (Request α) → Nat
  | [] => 0
  | request :: rest => request.count + asked rest

/-- One more request adds its units. -/
theorem asked_concat (requests : List (Request α)) (request : Request α) :
    asked (requests ++ [request]) = asked requests + request.count := by
  induction requests with
  | nil => exact Nat.add_comm _ _
  | cons first rest ih =>
    rw [List.cons_append, asked, asked, ih, Nat.add_assoc]

/-- Behind a number of units, the units of each call are within the limit together with those before, and their bits are ahead. -/
def Checked (unitBits : Nat) (limit : Option Nat) (total : Nat) : List (Request α) → Prop
  | [] => True
  | request :: rest =>
    (∀ l, limit = some l → total + request.count ≤ l) ∧ request.count * unitBits ≤ request.ahead ∧
      Checked unitBits limit (total + request.count) rest

/-- One more call is checked behind those before it. -/
theorem checked_concat {unitBits : Nat} {limit : Option Nat} {total : Nat} {requests : List (Request α)} {request : Request α}
    (h : Checked unitBits limit total requests) (hl : ∀ l, limit = some l → total + asked requests + request.count ≤ l)
    (hb : request.count * unitBits ≤ request.ahead) : Checked unitBits limit total (requests ++ [request]) := by
  induction requests generalizing total with
  | nil => exact ⟨hl, hb, trivial⟩
  | cons first rest ih =>
    refine ⟨h.1, h.2.1, ih h.2.2 fun l hsome => ?_⟩
    have hle := hl l hsome
    rw [asked] at hle
    omega

variable [LawfulBitSource σ] {unitBits : Nat} {limit : Option Nat} {consume : α → Nat → Unpacker σ α}

/-- What is kept of a watched source is to be looked at where the source moves and where a call is noted, and nowhere else. -/
theorem invariant_watching {kept : Nat → α → Watched σ α → Prop} {lost : List (Request α) → Prop}
    (hlost : ∀ {total sofar w}, kept total sofar w → lost w.requests)
    (hmoved : ∀ {total sofar s s' n calls}, kept total sofar ⟨s, calls⟩ → LawfulBitSource.Moved s n s' →
      kept total sofar ⟨s', calls⟩)
    (hcall : ∀ {total sofar s calls} units, kept total sofar ⟨s, calls⟩ → (∀ l, limit = some l → total + units ≤ l) →
      units * unitBits ≤ BitSource.remaining s →
        lost (calls ++ [⟨sofar, units, BitSource.remaining s⟩]) ∧ ∀ after s', consume sofar units s = .ok after s' →
          kept (total + units) after ⟨s', calls ++ [⟨sofar, units, BitSource.remaining s⟩]⟩) :
    Invariant unitBits limit (watching consume) kept fun w => lost w.requests := by
  -- A read of the source alone moves it, and leaves the calls as they are even where it fails.
  have hquiet : ∀ {β : Type} {m : Unpacker σ β} {m' : Unpacker (Watched σ α) β} {P : β → Prop},
      (∀ calls, InStep (Watched.Behind (· = calls)) m m') → (∀ s, Gives s m P) → ∀ {total sofar w}, kept total sofar w →
        Ends w m' (fun x w' => P x ∧ kept total sofar w') fun w' => lost w'.requests := by
    rintro β m m' P hstep hgives total sofar ⟨s, calls⟩ hk
    unfold Ends
    rcases (hstep calls).cases (s := s) (t := ⟨s, calls⟩) ⟨rfl, rfl⟩ with
      ⟨x, s', ⟨s'', calls'⟩, hm, hm', rfl, rfl⟩ | ⟨fault, s', ⟨s'', calls'⟩, hm, hm', rfl, rfl⟩
    · rw [hm']
      obtain ⟨hx, n, hn⟩ := hgives s hm
      exact ⟨hx, hmoved hk hn⟩
    · rw [hm']
      exact hlost (w := ⟨s, _⟩) hk
  refine ⟨hlost, fun hk => ?_, fun hk bounds => ?_, ?_⟩
  · exact (hquiet (fun calls => (Watched.linked (· = calls)).bit) gives_bit hk).imp (fun _ _ h => h.2) fun _ h => h
  · exact hquiet (fun calls => (Watched.linked (· = calls)).unpackLength bounds) (fun s => units_le s bounds) hk
  · rintro total sofar ⟨s, calls⟩ units hk hl hb
    obtain ⟨hfailed, hread⟩ := hcall units hk hl hb
    unfold Ends watching Watched.lift
    cases hm : consume sofar units s with
    | ok after s' => exact hread after s' hm
    | error fault s' => exact hfailed

/-- Every call for units comes behind its checks, whatever the content is and whether or not it can be read. -/
theorem checked_requests (s : σ) (size : Bounds Nat) (extensible : Bool) (hmax : unitBits ≤ 2 ^ 32) (limit : Option Nat)
    (start : α) (consume : α → Nat → Unpacker σ α) :
    Checked unitBits limit 0 (requests s size extensible unitBits limit start consume) := by
  have hinvariant : Invariant unitBits limit (watching consume)
      (fun total _ w => Checked unitBits limit 0 w.requests ∧ asked w.requests = total)
      fun w => Checked unitBits limit 0 w.requests := by
    refine invariant_watching (fun h => h.1) (fun h _ => h) ?_
    rintro total sofar s calls units ⟨hc, rfl⟩ hl hb
    have hnext : Checked unitBits limit 0 (calls ++ [⟨sofar, units, BitSource.remaining s⟩]) :=
      checked_concat hc (by rwa [Nat.zero_add]) hb
    exact ⟨hnext, fun after s' _ => ⟨hnext, asked_concat _ _⟩⟩
  refine (hinvariant.ends_unpack hmax (s := ⟨s, []⟩) ⟨trivial, rfl⟩).of_lost ?_
  rintro found w ⟨total, hc, -⟩
  exact hc

/-- No call grows a content, by a measure of it, beyond the units that fit into some bits. -/
def Confined (unitBits bits : Nat) (measure : α → Nat) (requests : List (Request α)) : Prop :=
  ∀ request ∈ requests, (measure request.sofar + request.count) * unitBits ≤ bits

/-- Where every chunk takes the bits of its units, no call grows the content beyond what the source held. -/
theorem confined_requests {measure : α → Nat} (hpays : ∀ s sofar count,
      Pays s (consume sofar count) (measure sofar * unitBits) fun after => measure after * unitBits)
    (s : σ) (size : Bounds Nat) (extensible : Bool) (hmax : unitBits ≤ 2 ^ 32) (limit : Option Nat) {start : α}
    (hstart : measure start = 0) :
    Confined unitBits (BitSource.remaining s) measure (requests s size extensible unitBits limit start consume) := by
  have hinvariant : Invariant unitBits limit (watching consume)
      (fun _ sofar w => Confined unitBits (BitSource.remaining s) measure w.requests ∧
        measure sofar * unitBits + BitSource.remaining w.source ≤ BitSource.remaining s)
      fun w => Confined unitBits (BitSource.remaining s) measure w.requests := by
    refine invariant_watching And.left ?_ ?_
    · rintro total sofar s1 s2 n calls ⟨hcalls, hleft⟩ hm
      exact ⟨hcalls, Nat.le_trans (Nat.add_le_add_left (LawfulBitSource.remaining_le hm) _) hleft⟩
    · rintro total sofar s1 calls units ⟨hcalls, hleft⟩ - hb
      have hall : Confined unitBits (BitSource.remaining s) measure (calls ++ [⟨sofar, units, BitSource.remaining s1⟩]) := by
        intro request hmem
        rcases List.mem_append.mp hmem with hmem | hmem
        · exact hcalls request hmem
        · rw [List.mem_singleton.mp hmem, Nat.add_mul]
          exact Nat.le_trans (Nat.add_le_add_left hb _) hleft
      exact ⟨hall, fun after s' hread => ⟨hall, Nat.le_trans (hpays s1 sofar units hread) hleft⟩⟩
  refine (hinvariant.ends_unpack hmax (s := ⟨s, []⟩) ⟨fun _ hmem => (List.not_mem_nil hmem).elim, ?_⟩).of_lost ?_
  · exact Nat.le_of_eq (by rw [hstart, Nat.zero_mul, Nat.zero_add])
  · rintro found w ⟨total, hcalls, -⟩
    exact hcalls

end SizedContent

/-! ## Strings -/

namespace Unpacker

variable [BitSource σ] [LawfulBitSource σ]

/-- Digits take a bit each. -/
theorem pays_bitsBelow (s : σ) (high : UInt64) (width before : Nat) :
    Pays s (bitsBelow high width) before fun _ => before + width := by
  have hbit : ∀ (s : σ) (before : Nat), Pays s bit before fun _ => before + 1 := by
    intro s before b s' hs
    cases ha : LawfulBitSource.ahead s with
    | nil =>
      rw [bit, LawfulBitSource.readBit_nil ha] at hs
      cases hs
    | cons next rest =>
      obtain ⟨s1, h1, hm⟩ := LawfulBitSource.readBit_cons ha
      rw [bit, h1] at hs
      cases hs
      rw [LawfulBitSource.remaining_eq, LawfulBitSource.remaining_eq, LawfulBitSource.ahead_of_moved hm, ha, List.drop_one,
        List.tail_cons, List.length_cons]
      show before + 1 + rest.length ≤ before + (rest.length + 1)
      omega
  induction width generalizing s high before with
  | zero => exact pays_pure s (Nat.le_refl _)
  | succ width ih =>
    refine (hbit s before).bind fun next s1 => (ih s1 _ (before + 1)).weaken fun _ _ _ => ?_
    omega

end Unpacker

/-- A chunk of a text takes the bits of its characters. -/
theorem CharacterString.pays_unpackCharacters [BitSource σ] [LawfulBitSource σ] (alphabet : Alphabet) (s : σ) (text : Octets)
    (count : Nat) :
    Unpacker.Pays s (unpackCharacters alphabet text count) (text.size * alphabet.bitsPerCharacter)
      fun found => found.size * alphabet.bitsPerCharacter := by
  have hcharacter : ∀ (s : σ) (index before : Nat),
      Unpacker.Pays s (unpackCharacter alphabet index) before fun _ => before + alphabet.bitsPerCharacter := by
    intro s index before
    refine (Unpacker.pays_bitsBelow s 0 _ before).bind fun code s1 => ?_
    split
    · exact Unpacker.pays_throw s1 _ _ _
    · exact Unpacker.pays_ite (Unpacker.pays_pure s1 (Nat.le_refl _)) (Unpacker.pays_throw s1 _ _ _)
  induction count generalizing s text with
  | zero => exact Unpacker.pays_pure s (Nat.le_refl _)
  | succ count ih =>
    refine (hcharacter s text.size _).bind fun octet s1 => ?_
    have hrest := ih s1 (text.push octet)
    rwa [Array.size_push, Nat.succ_mul] at hrest

namespace SizedContent

variable [BitSource σ]

/-- Whatever a read comes to, its calls for units grow nothing beyond the units that the source holds. One that succeeds gives no
more of them, and a number of them that is allowed. -/
structure Thrifty (s : σ) (unitBits : Nat) (measure : α → Nat) (calls : List (Request α)) (read : Unpacker σ β)
    (length : β → Nat) (allowed : Nat → Prop) : Prop where
  /-- What is grown fits into the bits that were ahead. -/
  grown : Confined unitBits (BitSource.remaining s) measure calls
  /-- So does what is read, and its length is allowed. -/
  found : ∀ {value s'}, read s = .ok value s' → length value * unitBits ≤ BitSource.remaining s ∧ allowed (length value)

variable [LawfulBitSource σ]

/-- An octet string is grown only as far as its octets are there. -/
theorem thrifty_octets (s : σ) {size : Bounds Nat} (ho : size.Ordered) (extensible : Bool) (limit : Option Nat) :
    Thrifty s 8 Array.size (requests s size extensible 8 limit #[] OctetString.unpackChunk)
      (OctetString.unpack size extensible limit) Array.size fun count => extensible = false → inRoot size count = true where
  grown := confined_requests OctetString.pays_unpackChunk s size extensible (by decide) limit rfl
  found {value s'} hread := by
    have hpays := pays_unpack OctetString.pays_unpackChunk size extensible 8 limit #[] s
    have hgives := (OctetString.gives_unpack s ho extensible limit hread).1.2
    exact ⟨hpays.le_remaining rfl hread, fun he => hgives.resolve_left (by rw [he]; exact Bool.false_ne_true)⟩

/-- A bit string is grown only as far as its bits are there. -/
theorem thrifty_bits (s : σ) {size : Bounds Nat} (ho : size.Ordered) (extensible : Bool) (limit : UInt64) :
    Thrifty s 1 Prod.snd (requests s size extensible 1 (some limit.toNat) (#[], 0) BitString.unpackChunk)
      (BitString.unpack size extensible (some limit.toNat)) (fun value => value.length.toNat)
      fun count => extensible = false → inRoot size count = true where
  grown := by
    refine confined_requests (fun s before count => ?_) s size extensible (by decide) _ rfl
    simpa only [Nat.mul_one] using BitString.pays_unpackChunk s before count
  found {value s'} hread := by
    have hpays := BitString.pays_unpack size extensible (some limit.toNat) s
    have hgives := (BitString.gives_unpack s ho extensible limit hread).1.2.2
    rw [Nat.mul_one]
    exact ⟨hpays.le_remaining rfl hread, fun he => hgives.resolve_left (by rw [he]; exact Bool.false_ne_true)⟩

/-- A text of fixed width. -/
theorem thrifty_characters (s : σ) {alphabet : Alphabet} (h : alphabet ≠ .utf8) {size : Bounds Nat} (ho : size.Ordered)
    (extensible : Bool) (limit : Option Nat) :
    Thrifty s alphabet.bitsPerCharacter Array.size
      (requests s size extensible alphabet.bitsPerCharacter limit #[] (CharacterString.unpackCharacters alphabet))
      (CharacterString.unpack alphabet size extensible limit) Array.size
      fun count => extensible = false → inRoot size count = true where
  grown := by
    have hwidth := CharacterString.bitsPerCharacter_le alphabet
    exact confined_requests (CharacterString.pays_unpackCharacters alphabet) s size extensible (by omega) limit rfl
  found {text s'} hread := by
    have hgives := (CharacterString.gives_unpack s alphabet ho extensible limit hread).1.2.2.resolve_left h
    have hsized : unpack size extensible alphabet.bitsPerCharacter limit #[] (CharacterString.unpackCharacters alphabet) s =
        .ok text s' := by
      cases alphabet <;> first | exact absurd rfl h | exact hread
    have hpays := pays_unpack (CharacterString.pays_unpackCharacters alphabet) size extensible alphabet.bitsPerCharacter limit #[] s
    exact ⟨hpays.le_remaining (Nat.zero_mul _) hsized, fun he => hgives.resolve_left (by rw [he]; exact Bool.false_ne_true)⟩

/-- A text in UTF-8, whose size is free. -/
theorem thrifty_utf8 (s : σ) (size : Bounds Nat) (extensible : Bool) (limit : Option Nat) :
    Thrifty s 8 Array.size (requests s .free false 8 limit #[] OctetString.unpackChunk)
      (CharacterString.unpack .utf8 size extensible limit) Array.size fun _ => True where
  grown := (thrifty_octets s Bounds.ordered_free false limit).grown
  found {text s'} hread := by
    rw [CharacterString.unpack, run_bind] at hread
    cases hm : OctetString.unpack .free false limit s with
    | error fault s1 =>
      rw [hm] at hread
      cases hread
    | ok octets s1 =>
      have hoctets := (thrifty_octets s Bounds.ordered_free false limit).found hm
      rw [hm] at hread
      dsimp only at hread
      split at hread
      · cases hread
        exact ⟨hoctets.1, trivial⟩
      · cases hread

/-- However long a content says that it is, units are asked for within the limit and with their bits ahead, and so strings are not
grown beyond what the source holds. A string that is read has a length within its bounds, unless it is extensible or in UTF-8. -/
theorem strings_within_source (s : σ) {size : Bounds Nat} (ho : size.Ordered) (extensible : Bool) (limit : Option Nat) :
    (∀ {α : Type} (unitBits : Nat) (start : α) (consume : α → Nat → Unpacker σ α), unitBits ≤ 2 ^ 32 →
        outcome (unpack size extensible unitBits limit start (watching consume)) ⟨s, []⟩ =
            ((outcome (unpack size extensible unitBits limit start consume) s).1,
              ⟨(outcome (unpack size extensible unitBits limit start consume) s).2,
                requests s size extensible unitBits limit start consume⟩) ∧
          Checked unitBits limit 0 (requests s size extensible unitBits limit start consume)) ∧
      Thrifty s 8 Array.size (requests s size extensible 8 limit #[] OctetString.unpackChunk)
        (OctetString.unpack size extensible limit) Array.size (fun count => extensible = false → inRoot size count = true) ∧
      (∀ word : UInt64, limit = some word.toNat →
        Thrifty s 1 Prod.snd (requests s size extensible 1 limit (#[], 0) BitString.unpackChunk)
          (BitString.unpack size extensible limit) (fun value => value.length.toNat)
          fun count => extensible = false → inRoot size count = true) ∧
      (∀ alphabet : Alphabet, alphabet ≠ .utf8 →
        Thrifty s alphabet.bitsPerCharacter Array.size
          (requests s size extensible alphabet.bitsPerCharacter limit #[] (CharacterString.unpackCharacters alphabet))
          (CharacterString.unpack alphabet size extensible limit) Array.size
          fun count => extensible = false → inRoot size count = true) ∧
      Thrifty s 8 Array.size (requests s .free false 8 limit #[] OctetString.unpackChunk)
        (CharacterString.unpack .utf8 size extensible limit) Array.size fun _ => True := by
  refine ⟨fun unitBits start consume hmax => ⟨?_, ?_⟩, ?_, ?_, fun alphabet h => ?_, ?_⟩
  · exact outcome_watching s size extensible unitBits limit start consume
  · exact checked_requests s size extensible hmax limit start consume
  · exact thrifty_octets s ho extensible limit
  · rintro word rfl
    exact thrifty_bits s ho extensible word
  · exact thrifty_characters s h ho extensible limit
  · exact thrifty_utf8 s size extensible limit

/-- Two octets behind their number, and a number of octets that are not there. -/
theorem strings_within_source_octets :
    (⟨some 1, none⟩ : Bounds Nat).Ordered ∧
      (requests (BitView.ofOctets #[0x02, 0xAA, 0xBB] 24) ⟨some 1, none⟩ false 8 (some 4) #[] OctetString.unpackChunk).map
          (fun request => (request.count, request.ahead)) = [(2, 16)] ∧
      (∃ v', OctetString.unpack ⟨some 1, none⟩ false (some 4) (BitView.ofOctets #[0x02, 0xAA, 0xBB] 24) =
          .ok #[0xAA, 0xBB] v') ∧
      2 * 8 ≤ 24 ∧ inRoot ⟨some 1, none⟩ 2 = true ∧
      requests (BitView.ofOctets #[0x7F, 0xAA, 0xBB] 24) ⟨some 1, none⟩ false 8 none #[] OctetString.unpackChunk = [] := by
  have ho : (⟨some 1, none⟩ : Bounds Nat).Ordered := fun lower upper _ h => by cases h
  have hread : OctetString.unpack ⟨some 1, none⟩ false (some 4) (BitView.ofOctets #[0x02, 0xAA, 0xBB] 24) =
      .ok #[0xAA, 0xBB] ⟨#[0x02, 0xAA, 0xBB], 24, 24⟩ := by rfl
  obtain ⟨-, hthrifty, -⟩ := strings_within_source (BitView.ofOctets #[0x02, 0xAA, 0xBB] 24) ho false (some 4)
  obtain ⟨hsize, hroot⟩ := hthrifty.found hread
  exact ⟨ho, by decide +kernel, ⟨_, hread⟩, hsize, hroot rfl, by rfl⟩

end SizedContent

end UnalignedPer
