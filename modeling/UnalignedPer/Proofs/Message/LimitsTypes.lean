import UnalignedPer.Message.Decode
import UnalignedPer.Proofs.Descriptor
import UnalignedPer.Proofs.Message.Encoding
import UnalignedPer.Proofs.Message.Entering
import UnalignedPer.Proofs.Message.Limits
import UnalignedPer.Proofs.Message.ReadingEntries

/-!
# What the limits of a decoder do

A decoded value keeps within the limits of the settings: no string and no list is longer than they allow, and no more containers
lie inside each other. Greater limits admit the same messages, with the same values and the same ends (`decode_limits`).

Lengths are checked where contents are read, and the depth where a container is entered. The depth is counted back at its end, so
what is known of the parts of a value is known at the depth of the parts. The second of the two readers that are compared may enter
open types in a way of its own, if that reads what is read from them anyway (`Reader.EasesInside`).
-/

namespace UnalignedPer

namespace Reader

variable {α β : Type} {depth : Nat} {settings : Settings}

/-! ## Presence bits -/

/-- Whatever is traced. -/
theorem Eased.noted {r t : Reader} (h : Eased depth settings r t) (level : TraceLevel) (text text' : Unit → String) :
    Eased depth settings (noted level text r) (noted level text' t) := by
  obtain ⟨_, hr⟩ := noted_eq level text r
  obtain ⟨_, ht⟩ := noted_eq level text' t
  rw [hr, ht]
  exact { h with }

/-- Traces may differ, as nothing that follows asks for them. -/
theorem eases_note (level : TraceLevel) (text text' : Unit → String) :
    Eases depth settings (note level text) (note level text') fun _ => True :=
  eases_modify fun _ _ he => he.noted level text text'

/-- A trace is written under any limits. -/
theorem steady_note (level : TraceLevel) (text : Unit → String) : Steady (note level text) :=
  fun _ _ => eases_note level text text

/-- The position is the same for both readers. -/
theorem steady_position : Steady position := by
  intro depth settings r t x r' he hm
  cases hm
  exact ⟨trivial, t, congrArg (EStateM.Result.ok · t) (congrArg BitView.position he.view), he⟩

/-- Bits are skipped without asking for the limits. -/
theorem steady_skip (length : Nat) : Steady (skip length) := by
  intro depth settings r t x r' he hm
  unfold skip at hm ⊢
  rw [he.view]
  split at hm
  · rename_i v hv
    cases hm
    exact ⟨trivial, { t with view := v }, rfl, { he with view := rfl }⟩
  · cases hm

/-- A bit further on is looked at without asking for the limits. -/
theorem steady_peek (position : Nat) : Steady (peek position) := by
  intro depth settings r t x r' he hm
  unfold peek at hm ⊢
  rw [he.view]
  split at hm
  · cases hm
    exact ⟨trivial, t, rfl, he⟩
  · cases hm

/-- A presence bit is taken without asking for the limits. -/
theorem steady_visitSlot (optional : Bool) : Steady (visitSlot optional) := by
  intro depth settings r t x r' he hm
  unfold visitSlot at hm ⊢
  rw [he.presence]
  split at hm
  · cases hm
    exact ⟨trivial, t, rfl, he⟩
  · split at hm
    · rename_i step p hv
      cases hm
      exact ⟨trivial, { t with presence := some p }, rfl, { he with presence := rfl }⟩
    · cases hm

/-- The presence bits behind the marker are taken over without asking for the limits. -/
theorem steady_enterExtensions (header : Nat) (run : BitRange) : Steady (enterExtensions header run) :=
  fun _ _ => eases_modify fun _ _ he => { he with presence := congrArg (Option.map _) he.presence }

/-- The presence bits behind the marker are read, and refused, without asking for the limits. -/
theorem steady_openExtensions : Steady openExtensions := by
  refine steady_position.bind fun header depth settings => eases_get_bind fun r t he => ?_
  rw [he.marker]
  refine eases_ite (fun _ => ?_) fun _ => ((steady_enterExtensions _ _).bind fun _ => steady_note _ _) depth settings
  refine (steady_unpackSmall depth settings).bind fun last _ => (steady_remaining depth settings).bind fun ahead _ => ?_
  have hrest : Eases depth settings
      (do
        let start ← position
        skip (last.toNat + 1)
        enterExtensions header ⟨start, start + (last.toNat + 1)⟩
        let known := ((← get).presence.map (·.extensions)).getD 0
        note .verbose fun () => "extension block with " ++ toString (last.toNat + 1) ++ " presence bits, " ++
          toString known ++ " known")
      (do
        let start ← position
        skip (last.toNat + 1)
        enterExtensions header ⟨start, start + (last.toNat + 1)⟩
        let known := ((← get).presence.map (·.extensions)).getD 0
        note .verbose fun () => "extension block with " ++ toString (last.toNat + 1) ++ " presence bits, " ++
          toString known ++ " known") fun _ => True :=
    (steady_position depth settings).bind fun start _ => (steady_skip _ depth settings).bind fun _ _ =>
      (steady_enterExtensions _ _ depth settings).bind fun _ _ => eases_get_bind fun _ _ _ => eases_note _ _ _
  exact eases_ite (fun _ => eases_throw _ _ _) fun _ => hrest

/-- The next presence bit is reached, behind the marker too, without asking for the limits. -/
theorem steady_reachSlot (optional : Bool) : Steady (reachSlot optional) := by
  refine (steady_visitSlot optional).bind fun step => ?_
  cases step with
  | openExtensions => exact steady_openExtensions.bind fun _ => steady_visitSlot optional
  | _ => exact steady_pure _

/-- A place among the fields is claimed without asking for the limits. -/
theorem steady_claimSlot (optional : Bool) : Steady (claimSlot optional) := by
  refine (steady_reachSlot optional).bind fun step => ?_
  cases step with
  | marked position openType => exact (steady_peek position).bind fun _ => steady_pure _
  | _ => exact steady_pure _

/-- A field is entered without asking for the limits, claimed or not. -/
theorem steady_enterField : Steady enterField := by
  refine fun depth settings => eases_get_bind fun r t he => ?_
  rw [he.claimed]
  split
  · refine Eases.bind (eases_modify fun _ _ he => ?_) fun _ _ => steady_pure _ depth settings
    exact { he with claimed := rfl }
  · exact ((steady_claimSlot false).bind fun _ => steady_ite (steady_pure _) (steady_throw _)) depth settings

/-! ## Contents -/

section Contents

variable {content content' : ReaderM α} {P : α → Prop}

/-- A content is eased on any other bits that both readers are set to. -/
theorem Eases.withView (h : Eases depth settings content content' P) (view : BitView) :
    Eases depth settings (withView view content) (withView view content') P :=
  Eases.between _ _ _ _ h (fun _ _ he => { he with view := rfl }) fun _ _ he _ _ he' => { he' with view := he.view }

/-- A content is eased in a single chunk. -/
theorem Eases.inChunk (h : Eases depth settings content content' P) (octets : Nat) :
    Eases depth settings (inChunk octets content) (inChunk octets content') P := by
  refine eases_get_bind fun r t he => ?_
  rw [he.view]
  cases r.view.part (octets * 8) with
  | error fault => exact eases_throw _ _ _
  | ok part => exact (h.withView part).bind fun x hx => (steady_skip _ depth settings).bind fun _ _ => eases_pure hx

/-- The second limit is at least the first one. -/
theorem eases_maxLength_bind {f f' : Option Nat → ReaderM β} {Q : β → Prop}
    (h : ∀ limit', settings.maxLength.toNat ≤ limit' → Eases depth settings (f (some settings.maxLength.toNat)) (f' (some limit')) Q) :
    Eases depth settings (maxLength >>= f) (maxLength >>= f') Q := by
  intro r t x r' he hm
  have hlimit := UInt64.le_iff_toNat_le.mp he.within.length
  refine h t.settings.maxLength.toNat hlimit he ?_
  rw [← he.under]
  exact hm

/-- A content is eased in fragments. -/
theorem Eases.inFragments (h : Eases depth settings content content' P) (first : LengthDeterminant.Chunk) :
    Eases depth settings (inFragments first content) (inFragments first content') P := by
  refine (steady_remaining depth settings).bind fun ahead _ => eases_maxLength_bind fun limit' hl => ?_
  refine (eases_unpackFrom (limitLe_some hl) easesUnits_octets .free 8 (ahead + 1) 0 #[] first rfl).bind ?_
  rintro ⟨total, octets⟩ -
  exact h.withView _

/-- What stands around an open type is put back. -/
theorem Eases.inOpenType (h : Eases depth settings content content' P) :
    Eases depth settings (inOpenType content) (inOpenType content') P := by
  refine Eases.between (fun r => { r with presence := none }) (fun t => { t with presence := none })
    (fun r r' => { r' with presence := r.presence, marker := r.marker })
    (fun t t' => { t' with presence := t.presence, marker := t.marker })
    ((steady_unpackLengthFree depth settings).bind fun chunk _ => (steady_note _ _ depth settings).bind fun _ _ => ?_)
    (fun _ _ he => { he with presence := rfl })
    fun _ _ he _ _ he' => { he' with presence := he.presence, marker := he.marker }
  exact eases_ite (fun _ => h.inFragments chunk) fun _ => h.inChunk chunk.units

/-- What is read from an open type is read from it by `inside` as well, under greater limits. -/
def EasesInside (settings : Settings) (inside : ∀ {α : Type}, ReaderM α → ReaderM α) : Prop :=
  ∀ {α : Type} {depth : Nat} {content content' : ReaderM α} {P : α → Prop}, Eases depth settings content content' P →
    Eases depth settings (inOpenType content) (inside content') P

/-- Open types are entered in a way that reads what is read from them anyway. -/
theorem easesInside_inOpenType : EasesInside settings inOpenType :=
  fun h => h.inOpenType

section Entered

variable {inside : ∀ {α : Type}, ReaderM α → ReaderM α} (hin : EasesInside settings inside)

include hin

/-- A content is eased, in an open type or outside one. -/
theorem Eases.withContent (h : Eases depth settings content content' P) (openType : Bool) :
    Eases depth settings (withContent openType content) (withContentBy inside openType content') P :=
  eases_ite (fun _ => hin h) fun _ => h

/-- A content is eased where a field may claim its place and stand in an open type. -/
theorem Eases.field (h : Eases depth settings content content' P) :
    Eases depth settings (field content) (fieldBy inside content') P :=
  (steady_enterField depth settings).bind fun openType _ => h.withContent hin openType

/-- A container is let in when there is room below the limit, and then there is room below a greater one. -/
theorem eases_container (h : depth < settings.maxDepth → Eases (depth + 1) settings content content' P) :
    Eases depth settings (container content) (containerBy inside content') fun x => depth < settings.maxDepth ∧ P x := by
  refine (steady_enterField depth settings).bind fun openType _ => eases_get_bind fun r t he => ?_
  rw [he.under, he.at_depth, he.at_depth_greater]
  by_cases hlt : depth < settings.maxDepth
  · have hlt' : ¬depth ≥ t.settings.maxDepth := Nat.not_le.mpr (Nat.lt_of_lt_of_le hlt he.within.depth)
    rw [if_neg (Nat.not_le.mpr hlt), if_neg hlt']
    refine Eases.between (fun r => { r with depth := r.depth + 1 }) (fun t => { t with depth := t.depth + 1 })
      (fun _ r => { r with depth := r.depth - 1 }) (fun _ t => { t with depth := t.depth - 1 })
      (((h hlt).withContent hin openType).weaken fun x hx => ⟨hlt, hx⟩) (fun _ _ he => ?_) fun _ _ _ _ _ he' => ?_
    · exact { he with
        at_depth := congrArg (· + 1) he.at_depth
        at_depth_greater := congrArg (· + 1) he.at_depth_greater }
    · exact { he' with
        at_depth := congrArg (· - 1) he'.at_depth
        at_depth_greater := congrArg (· - 1) he'.at_depth_greater }
  · rw [if_pos (Nat.not_lt.mp hlt)]
    intro r t x r' _ hm
    cases hm

end Entered

/-- A content is eased under any presence bits that both readers are set to. -/
theorem Eases.withPresence (h : Eases depth settings content content' P) (presence : Option Presence) :
    Eases depth settings (withPresence presence content) (withPresence presence content') P :=
  Eases.between _ _ _ _ h (fun _ _ he => { he with presence := rfl }) fun _ _ he _ _ he' =>
    { he' with presence := he.presence }

/-- A content is eased under any marker that both readers are set to. -/
theorem Eases.withMarker (h : Eases depth settings content content' P) (marker : Bool) :
    Eases depth settings (withMarker marker content) (withMarker marker content') P :=
  Eases.between _ _ _ _ h (fun _ _ he => { he with marker := rfl }) fun _ _ he _ _ he' => { he' with marker := he.marker }

end Contents

/-! ## Fields without parts -/

/-- The index of an enumeration or of a choice is read without asking for the limits. -/
theorem steady_index (c : Constraint) : Steady (index c) :=
  (steady_choiceIndex _ _).bind fun _ => steady_ite ((steady_throw _).bind fun _ => steady_pure _) (steady_pure _)

section Entered

variable {inside : ∀ {α : Type}, ReaderM α → ReaderM α} (hin : EasesInside settings inside)

include hin in
/-- A field whose content goes by the greatest length. -/
theorem eases_limited {content : Option Nat → ReaderM α} {P : α → Prop}
    (h : ∀ limit', settings.maxLength.toNat ≤ limit' →
      Eases depth settings (content (some settings.maxLength.toNat)) (content (some limit')) P) :
    Eases depth settings (field do content (← maxLength)) (fieldBy inside do content (← maxLength)) P :=
  (eases_maxLength_bind h).field hin

/-! ## Containers -/

/-- The extension marker is read without asking for the limits. -/
theorem steady_readMarker (c : Constraint) : Steady (readMarker c) :=
  steady_ite (steady_bit.bind fun _ => steady_ite ((steady_throw _).bind fun _ => steady_pure _) (steady_pure _))
    (steady_pure _)

/-- Room for the presence bits is reserved without asking for the limits. -/
theorem steady_reserve (c : Constraint) : Steady (reserve c) :=
  steady_position.bind fun _ => (steady_skip _).bind fun _ => steady_pure _

/-- Entries that are not known are skipped without asking for the limits. -/
theorem steady_skipExtensions (position count : Nat) : Steady (skipExtensions position count) := by
  induction count generalizing position with
  | zero => exact steady_pure ()
  | succ count ih =>
    refine (steady_peek position).bind fun present => steady_ite ?_ (ih (position + 1))
    exact ((steady_note _ _).bind fun _ => steady_openTypeSkip).bind fun _ => ih (position + 1)

/-- What is left of the entries behind the marker is skipped without asking for the limits. -/
theorem steady_skipRest : Steady skipRest := by
  refine fun depth settings => eases_get_bind fun r t he => ?_
  rw [he.presence]
  split
  · exact steady_ite (steady_skipExtensions _ _) (steady_pure ()) depth settings
  · exact steady_pure () depth settings

/-- A sequence is closed without asking for the limits. -/
theorem steady_closeSequence : Steady closeSequence := by
  refine fun depth settings => eases_get_bind fun r t he => ?_
  rw [he.presence, he.marker]
  split
  · exact steady_ite (steady_ite (steady_openExtensions.bind fun _ => steady_skipRest) (steady_pure ())) steady_skipRest
      depth settings
  · exact steady_pure () depth settings

include hin in
/-- A sequence is eased if its fields are, one level deeper, and it is entered only above the greatest depth. -/
theorem eases_sequence (c : Constraint) {fields fields' : ReaderM α} {P : α → Prop}
    (h : depth < settings.maxDepth → Eases (depth + 1) settings fields fields' P) :
    Eases depth settings (sequence c fields) (sequenceBy inside c fields') fun x => depth < settings.maxDepth ∧ P x := by
  refine eases_container hin fun hlt => (steady_note _ _ _ _).bind fun _ _ => ?_
  refine (steady_readMarker c _ _).bind fun marker _ => (steady_reserve c _ _).bind fun presence _ => ?_
  refine Eases.between id id (fun _ => noted .basic fun () => "leave " ++ c.text)
    (fun _ => noted .basic fun () => "leave " ++ c.text) (Eases.withMarker (Eases.withPresence ?_ _) _)
    (fun _ _ he => he) fun _ _ _ _ _ he' => he'.noted _ _ _
  exact (h hlt).bind fun found hf => (steady_closeSequence _ _).bind fun _ _ => eases_pure hf

/-- Elements are counted as they are read. -/
theorem easesUnits_elements {element element' : Nat → ReaderM α} {P : α → Prop}
    (h : ∀ index, Eases depth settings (element index) (element' index) P) :
    EasesUnits depth settings (elements element) (elements element')
      fun total (found : Array α) => found.size = total ∧ ∀ x ∈ found, P x := by
  intro total found count hi
  induction count generalizing total found with
  | zero => exact eases_pure hi
  | succ count ih =>
    refine (h found.size).bind fun next hn => ?_
    rw [← Nat.add_assoc, Nat.add_right_comm]
    refine ih (total + 1) (found.push next) ⟨by rw [Array.size_push, hi.1], fun x hx => ?_⟩
    rcases Array.mem_push.mp hx with hx | rfl
    · exact hi.2 x hx
    · exact hn

include hin in
/-- A list is eased if its elements are, one level deeper; it is entered only above the greatest depth and is no longer than
the limit. -/
theorem eases_sequenceOf (c : Constraint) {element element' : Nat → ReaderM α} {P : α → Prop}
    (h : depth < settings.maxDepth → ∀ index, Eases (depth + 1) settings (element index) (element' index) P) :
    Eases depth settings (sequenceOf c element) (sequenceOfBy inside c element') fun found =>
      depth < settings.maxDepth ∧ found.size ≤ settings.maxLength.toNat ∧ ∀ x ∈ found, P x := by
  refine eases_container hin fun hlt => (steady_note _ _ _ _).bind fun _ _ => Eases.withPresence ?_ none
  refine eases_maxLength_bind fun limit' hl => ?_
  refine (eases_sized (limitLe_some hl) (easesUnits_elements (h hlt)) c.size c.extensible 0 #[]
    ⟨rfl, fun x hx => absurd hx (Array.not_mem_empty x)⟩).weaken ?_
  rintro found ⟨total, ⟨rfl, hall⟩, hle⟩
  exact ⟨le_of_not_any hle, hall⟩

include hin in
/-- A choice is eased if its payload is, one level deeper, and it is entered only above the greatest depth. -/
theorem eases_choice (c : Constraint) {payload payload' : UInt64 → ReaderM α} {P : α → Prop}
    (h : depth < settings.maxDepth → ∀ index, Eases (depth + 1) settings (payload index) (payload' index) P) :
    Eases depth settings (choice c payload) (choiceBy inside c payload') fun found => depth < settings.maxDepth ∧ P found.2 := by
  refine eases_container hin fun hlt => (steady_index c _ _).bind fun index _ => (steady_note _ _ _ _).bind fun _ _ => ?_
  exact (((h hlt index).withContent hin _).withPresence none).bind fun x hx => eases_pure hx

end Entered

/-- An optional value is eased if the value is. -/
theorem eases_opt {value value' : ReaderM α} {P : α → Prop} (h : Eases depth settings value value' P) :
    Eases depth settings (opt value) (opt value') fun entry => ∀ x, entry = some x → P x := by
  refine (steady_claimSlot true depth settings).bind ?_
  rintro ⟨present, openType⟩ -
  refine eases_ite (fun _ => ?_) fun _ => eases_pure (by rintro _ ⟨⟩)
  refine Eases.between (fun r => { r with claimed := some openType }) (fun t => { t with claimed := some openType })
    (fun _ r => { r with claimed := none }) (fun _ t => { t with claimed := none })
    (h.map some fun x hx => ?_) (fun _ _ he => { he with claimed := rfl }) fun _ _ _ _ _ he' => { he' with claimed := rfl }
  rintro _ ⟨⟩
  exact hx

end Reader

namespace Descriptor

open Reader (Eases EasesInside)

variable {depth : Nat} {settings : Settings}

/-- A value that was read at a depth keeps within the limits. -/
structure WithinLimits (settings : Settings) (depth : Nat) (value : Value) : Prop where
  /-- No string and no list is too long. -/
  lengths : value.lengthsWithin settings.maxLength.toNat = true
  /-- Containers do not nest too deep. -/
  nesting : depth + value.nesting ≤ settings.maxDepth

/-- The same for the entry of a field, if it is there. -/
def EntryWithin (settings : Settings) (depth : Nat) (entry : Option Value) : Prop :=
  ∀ value, entry = some value → WithinLimits settings depth value

/-- A missing entry keeps within any limits. -/
theorem entryWithin_none : EntryWithin settings depth none :=
  nofun

/-- A value that is there keeps within the limits as an entry. -/
theorem entryWithin_some {value : Value} (h : WithinLimits settings depth value) : EntryWithin settings depth (some value) := by
  rintro _ ⟨⟩
  exact h

/-- What is known of the entries is known of their list. -/
theorem lengths_of_entries {entries : List (Option Value)} (h : ∀ entry ∈ entries, EntryWithin settings depth entry) :
    Value.lengthsWithinList settings.maxLength.toNat entries = true := by
  refine (Value.lengthsWithinList_iff _ _).mpr fun entry hm => ?_
  cases entry with
  | none => rfl
  | some value => exact (h _ hm value rfl).lengths

/-- Entries within the limits one level deeper nest no deeper than the limits allow. -/
theorem nesting_of_entries {entries : List (Option Value)} (hd : depth < settings.maxDepth)
    (h : ∀ entry ∈ entries, EntryWithin settings (depth + 1) entry) :
    depth + (Value.nestingList entries + 1) ≤ settings.maxDepth := by
  have hlist : Value.nestingList entries ≤ settings.maxDepth - (depth + 1) := by
    refine (Value.nestingList_le_iff _ _).mpr fun entry hm => ?_
    cases entry with
    | none => exact Nat.zero_le _
    | some value =>
      have := (h _ hm value rfl).nesting
      simp only [Value.nestingOption]
      omega
  omega

section Entered

variable {inside : ∀ {α : Type}, ReaderM α → ReaderM α} (hin : EasesInside settings inside)

include hin

/-- A value without parts is eased, and keeps within the limits. -/
theorem eases_readSimple (type : Descriptor) (plain : SimpleType) (hd : depth ≤ settings.maxDepth) :
    Eases depth settings (readSimple type plain) (readSimpleBy inside type plain) (WithinLimits settings depth) := by
  cases plain with
  | null => exact ((Reader.steady_pure () depth settings).field hin).bind fun _ _ => Reader.eases_pure ⟨rfl, hd⟩
  | boolean => exact ((Reader.steady_bit depth settings).field hin).map _ fun _ _ => ⟨rfl, hd⟩
  | integer => exact ((Reader.steady_unpackInteger _ _ depth settings).field hin).map _ fun _ _ => ⟨rfl, hd⟩
  | octetString =>
    exact (Reader.eases_limited hin fun _ hl => Reader.eases_octetString hl _ _).map _ fun _ h => ⟨decide_eq_true h, hd⟩
  | bitString =>
    exact (Reader.eases_limited hin fun _ hl => Reader.eases_bitString hl _ _).map _ fun _ h => ⟨decide_eq_true h, hd⟩
  | text =>
    exact (Reader.eases_limited hin fun _ hl => Reader.eases_characterString hl _ _ _).map _ fun _ h => ⟨decide_eq_true h, hd⟩

omit hin in
/-- Fields are eased if each of them is, and their entries keep within the limits. -/
theorem eases_readFields (fields : List (Field Descriptor))
    (h : ∀ field ∈ fields, Eases depth settings field.type.read (field.type.readBy inside) (WithinLimits settings depth)) :
    Eases depth settings (readFields fields) (readFieldsBy inside fields) fun entries =>
      ∀ entry ∈ entries, EntryWithin settings depth entry := by
  induction fields with
  | nil => exact Reader.eases_pure nofun
  | cons field fields ih =>
    have hfirst := h field (List.mem_cons_self ..)
    have hentry : Eases depth settings (readEntry field.optional field.type)
        (readEntryBy inside field.optional field.type) (EntryWithin settings depth) :=
      Reader.eases_ite (fun _ => Reader.eases_opt hfirst) fun _ => hfirst.map some fun _ => entryWithin_some
    rw [readFields_cons, readFieldsBy_cons]
    refine hentry.bind fun entry he => (ih fun f hf => h f (List.mem_cons_of_mem _ hf)).bind fun entries hes => ?_
    exact Reader.eases_pure (List.forall_mem_cons.mpr ⟨he, hes⟩)

omit hin in
/-- The payload of a choice is eased if that of each alternative is. -/
theorem eases_readAlternative {alternatives : List (String × Descriptor)}
    (h : ∀ alternative ∈ alternatives,
      Eases depth settings alternative.2.read (alternative.2.readBy inside) (WithinLimits settings depth)) (index : Nat) :
    Eases depth settings (readAlternative alternatives index) (readAlternativeBy inside alternatives index)
      (EntryWithin settings depth) := by
  induction alternatives generalizing index with
  | nil => exact Reader.eases_pure entryWithin_none
  | cons alternative alternatives ih =>
    cases index with
    | zero => exact (h alternative (List.mem_cons_self ..)).map some fun _ => entryWithin_some
    | succ index => exact ih (fun a ha => h a (List.mem_cons_of_mem _ ha)) index

/-- A value is read within the limits, and under greater limits as well. -/
theorem eases_readBy (type : Descriptor) :
    ∀ depth, depth ≤ settings.maxDepth →
      Eases depth settings type.read (type.readBy inside) (WithinLimits settings depth) := by
  induction type using Descriptor.induction with
  | simple name plain extensible => exact fun depth hd => eases_readSimple hin _ plain hd
  | enumerated name items standard =>
    exact fun depth hd => ((Reader.steady_index _ depth settings).field hin).bind fun _ _ => Reader.eases_pure ⟨rfl, hd⟩
  | sequence name fields standard ih =>
    intro depth _
    refine (Reader.eases_sequence hin _ fun hlt => eases_readFields fields fun field hm => ih field hm _ hlt).bind ?_
    rintro entries ⟨hlt, h⟩
    exact Reader.eases_pure ⟨lengths_of_entries h, nesting_of_entries hlt h⟩
  | sequenceOf name element size extensible ih =>
    intro depth _
    refine (Reader.eases_sequenceOf hin _ fun hlt _ => (ih (depth + 1) hlt).map some fun _ => entryWithin_some).bind ?_
    rintro found ⟨hlt, hsize, h⟩
    have hlist : ∀ entry ∈ found.toList, EntryWithin settings (depth + 1) entry := fun entry hm => h entry (Array.mem_def.mpr hm)
    refine Reader.eases_pure ⟨?_, nesting_of_entries hlt hlist⟩
    rw [Value.lengthsWithin, Bool.and_eq_true, Array.length_toList]
    exact ⟨decide_eq_true hsize, lengths_of_entries hlist⟩
  | choice name alternatives standard ih =>
    intro depth _
    refine (Reader.eases_choice hin _ fun hlt index =>
      eases_readAlternative (fun alternative hm => ih alternative hm (depth + 1) hlt) index.toNat).bind ?_
    rintro ⟨index, payload⟩ ⟨hlt, h⟩
    refine Reader.eases_pure ?_
    cases payload with
    | none => exact ⟨rfl, hlt⟩
    | some value =>
      have hvalue := h value rfl
      exact ⟨hvalue.lengths, Nat.le_trans (Nat.le_of_eq (Nat.add_right_comm depth value.nesting 1)) hvalue.nesting⟩

end Entered

/-- A type is read alike under greater limits, at any depth that the limits admit, and its value keeps within the limits. -/
theorem eases_read (type : Descriptor) (depth : Nat) (hd : depth ≤ settings.maxDepth) :
    Eases depth settings type.read type.read (WithinLimits settings depth) := by
  have h := eases_readBy Reader.easesInside_inOpenType type depth hd
  rwa [readBy_inOpenType] at h

end Descriptor

/-- What is decoded keeps within the limits of the settings, and it is decoded from the same bits under all settings with
greater limits. -/
theorem decode_limits {settings settings' : Settings} (hs : settings.Within settings') (type : Descriptor) {data : Octets}
    {length : Nat} {found : Decoding} (h : (decode settings type data length).1 = .ok found) :
    found.value.lengthsWithin settings.maxLength.toNat = true ∧ found.value.nesting ≤ settings.maxDepth ∧
      (decode settings' type data length).1 = .ok found := by
  unfold decode at h ⊢
  cases hm : type.read (.ofView (.ofOctets data length) settings) with
  | error fault r =>
    rw [hm] at h
    cases h
  | ok value r =>
    rw [hm] at h
    cases h
    have he : Reader.Eased 0 settings (.ofView (.ofOctets data length) settings) (.ofView (.ofOctets data length) settings') :=
      ⟨hs, rfl, rfl, rfl, rfl, rfl, rfl, rfl⟩
    obtain ⟨hwithin, t, ht, he'⟩ := type.eases_read 0 (Nat.zero_le _) he hm
    refine ⟨hwithin.lengths, Nat.le_trans (Nat.le_add_left ..) hwithin.nesting, ?_⟩
    simp only [ht, he'.view]

/-- A message of one sequence with an octet string of one octet is decoded under limits of one, and so under the standard ones. -/
theorem decode_limits_report : Settings.Within ⟨1, 1, .verbose⟩ .standard ∧
    (decode ⟨1, 1, .verbose⟩ .report #[0xF4, 0x04, 0x08, 0x06, 0xAC] 38).1 = .ok ⟨.report, 38⟩ ∧
    Value.report.lengthsWithin 1 = true ∧ Value.report.nesting ≤ 1 ∧
    (decode .standard .report #[0xF4, 0x04, 0x08, 0x06, 0xAC] 38).1 = .ok ⟨.report, 38⟩ :=
  have hw : Settings.Within ⟨1, 1, .verbose⟩ .standard := ⟨by decide, by decide⟩
  have h : (decode ⟨1, 1, .verbose⟩ .report #[0xF4, 0x04, 0x08, 0x06, 0xAC] 38).1 = .ok ⟨.report, 38⟩ := by cbv
  ⟨hw, h, decode_limits hw .report h⟩

end UnalignedPer
