import UnalignedPer.Proofs.Message.ExcessTypes
import UnalignedPer.Value.OfJson

/-!
# Reading values from JSON

Every place of a document that does not fit its type is reported, and nothing else is: a value is found exactly if no error is
reported (`Descriptor.finds_fit`). The reading goes on behind a place that does not fit, so this is an invariant of actions
that go on from other actions (`Descriptor.Reports`). A value that is found has the shape of its type
(`Descriptor.findsShape_fit`), so nothing but an excess can keep it from being encoded (`Value.ofJson_encode`).
-/

namespace UnalignedPer

/-- One more error is one more error. -/
theorem Diagnostic.errorCount_push (diagnostics : Array Diagnostic) (location : Location) (text : String) :
    errorCount (diagnostics.push ⟨.error, location, text⟩) = errorCount diagnostics + 1 := by
  simp [errorCount]

namespace Descriptor

/-! ## What is reported -/

/-- An action only adds errors, and its result is good exactly if things were good before it and it adds none. -/
def Reports {α : Type} (before : Prop) (action : FitM α) (good : α → Prop) : Prop :=
  ∀ diagnostics, Diagnostic.errorCount diagnostics ≤ Diagnostic.errorCount (action.run diagnostics).2 ∧
    (good (action.run diagnostics).1 ↔
      before ∧ Diagnostic.errorCount (action.run diagnostics).2 = Diagnostic.errorCount diagnostics)

variable {α β : Type} {before : Prop} {good : α → Prop} {good' : β → Prop}

theorem reports_pure {x : α} (h : good x ↔ before) : Reports before (pure x) good :=
  fun _ => ⟨Nat.le_refl _, h.trans (and_iff_left rfl).symm⟩

/-- A report is an error, and there is nothing good about it. -/
theorem reports_misfit {good : Option α → Prop} (location : Location) (text : String) (h : ¬good none) :
    Reports before (misfit location text) good := by
  intro diagnostics
  have hcount : Diagnostic.errorCount ((misfit location text : FitM (Option α)).run diagnostics).2 =
      Diagnostic.errorCount diagnostics + 1 := Diagnostic.errorCount_push diagnostics location text
  rw [hcount]
  exact ⟨Nat.le_succ _, iff_of_false h fun hn => Nat.succ_ne_self _ hn.2⟩

/-- An action goes on from what was good before it. -/
theorem Reports.bind {action : FitM α} {next : α → FitM β} (h : Reports before action good)
    (h' : ∀ x, Reports (good x) (next x) good') : Reports before (action >>= next) good' := by
  intro diagnostics
  obtain ⟨hle, hgood⟩ := h diagnostics
  obtain ⟨hle', hgood'⟩ := h' (action.run diagnostics).1 (action.run diagnostics).2
  refine ⟨Nat.le_trans hle hle', hgood'.trans ?_⟩
  rw [hgood]
  show _ ↔ before ∧ Diagnostic.errorCount ((next (action.run diagnostics).1).run (action.run diagnostics).2).2 = _
  constructor
  · rintro ⟨⟨hb, heq⟩, heq'⟩
    exact ⟨hb, heq'.trans heq⟩
  · rintro ⟨hb, heq⟩
    exact ⟨⟨hb, by omega⟩, by omega⟩

/-- What was good besides stays so. -/
theorem Reports.and {action : FitM α} (h : Reports True action good) (before : Prop) :
    Reports before action fun x => before ∧ good x := by
  intro diagnostics
  obtain ⟨hle, hgood⟩ := h diagnostics
  exact ⟨hle, and_congr_right fun _ => hgood.trans (and_iff_right trivial)⟩

/-- A value is found exactly if no error is reported. -/
abbrev Finds (action : FitM (Option α)) : Prop :=
  Reports True action (·.isSome = true)

theorem finds_pure (x : α) : Finds (pure (some x)) :=
  reports_pure (iff_of_true rfl trivial)

theorem finds_misfit (location : Location) (text : String) : Finds (misfit location text : FitM (Option α)) :=
  reports_misfit location text Bool.false_ne_true

/-- The number of bits. -/
theorem finds_fitBitCount (location : Location) (members : List (String × Json)) (available : Nat) :
    Finds (fitBitCount location members available) := by
  unfold fitBitCount
  split
  · exact finds_pure available
  · dsimp only
    split
    · exact finds_misfit _ _
    · split
      · exact finds_misfit _ _
      · exact finds_pure _

/-- A bit string. -/
theorem finds_fitBits (type : Descriptor) (location : Location) (json : Json) : Finds (type.fitBits location json) := by
  unfold fitBits
  split
  · exact finds_misfit _ _
  · split
    · exact finds_misfit _ _
    · split
      · exact finds_misfit _ _
      · refine (finds_fitBitCount _ _ _).bind fun count => ?_
        cases count with
        | none => exact reports_pure Iff.rfl
        | some count => exact reports_pure Iff.rfl

/-- A value without parts. -/
theorem finds_fitSimple (type : Descriptor) (plain : SimpleType) (location : Location) (json : Json) :
    Finds (type.fitSimple plain location json) := by
  unfold fitSimple
  split
  · split
    · exact finds_pure _
    · exact finds_misfit _ _
  · split
    · exact finds_pure _
    · exact finds_misfit _ _
  · split
    · exact finds_pure _
    · exact finds_misfit _ _
  · split
    · exact finds_misfit _ _
    · split
      · exact finds_misfit _ _
      · exact finds_pure _
  · exact finds_fitBits type location json
  · split
    · exact finds_pure _
    · exact finds_misfit _ _

/-- An item. -/
theorem finds_fitItem (type : Descriptor) (items : List String) (location : Location) (json : Json) :
    Finds (type.fitItem items location json) := by
  unfold fitItem
  split
  · exact finds_misfit _ _
  · split
    · exact finds_misfit _ _
    · exact finds_pure _

/-- The keys of an object. -/
theorem reports_fitKeys (names : List String) (location : Location) (members : List (String × Json)) (ok : Bool) :
    Reports (ok = true) (fitKeys names location ok members) (· = true) := by
  induction members generalizing ok with
  | nil => exact reports_pure Iff.rfl
  | cons member rest ih =>
    obtain ⟨key, json⟩ := member
    rw [fitKeys]
    split
    · exact ih ok
    · have hreport : Reports (ok = true) (misfit (location.child key) ("unknown field '" ++ key ++ "'") : FitM (Option Unit))
          fun _ => false = true := reports_misfit _ _ Bool.false_ne_true
      exact hreport.bind fun _ => ih false

/-- The elements of a list. -/
theorem reports_fitElements {fit : Location → Json → FitM (Option Value)} (h : ∀ location json, Finds (fit location json))
    (location : Location) (items : List Json) (index : Nat) (sofar : List (Option Value)) (ok : Bool) :
    Reports (ok = true) (fitElements fit location index sofar ok items) (·.2 = true) := by
  induction items generalizing index sofar ok with
  | nil => exact reports_pure Iff.rfl
  | cons item rest ih =>
    rw [fitElements]
    refine ((h (location.item index) item).and (ok = true)).bind fun element => ?_
    rw [← Bool.and_eq_true]
    exact ih (index + 1) (element :: sofar) (ok && element.isSome)

/-- The entries of some fields. -/
theorem reports_fitFields {fields : List (Field Descriptor)}
    (h : ∀ field ∈ fields, ∀ location json, Finds (field.type.fit location json)) (location : Location)
    (members : List (String × Json)) : Reports True (fitFields fields location members) (·.2 = true) := by
  induction fields with
  | nil => exact reports_pure (iff_of_true rfl trivial)
  | cons field fields ih =>
    obtain ⟨name, optional, type⟩ := field
    have hrest := ih fun field hf => h field (List.mem_cons_of_mem _ hf)
    have hnext : ∀ (entry : Option Value) (ok : Bool), Reports (ok = true)
        (fitFields fields location members >>= fun found => pure (entry :: found.1, ok && found.2)) (·.2 = true) :=
      fun entry ok => (hrest.and (ok = true)).bind fun found => reports_pure Bool.and_eq_true_iff
    rw [fitFields]
    split
    · cases optional with
      | false =>
        have hreport : Reports True (misfit location ("missing mandatory field '" ++ name ++ "'") : FitM (Option Unit))
            fun _ => false = true := reports_misfit _ _ Bool.false_ne_true
        exact hreport.bind fun _ => hnext none false
      | true =>
        have hrest := hnext none true
        rw [eq_self true] at hrest
        exact hrest
    · exact (h ⟨name, optional, type⟩ (List.mem_cons_self ..) _ _).bind fun entry => hnext entry entry.isSome

/-- The value of an alternative. -/
theorem finds_fitAlternative {alternatives : List (String × Descriptor)}
    (h : ∀ alternative ∈ alternatives, ∀ location json, Finds (alternative.2.fit location json)) (index : Nat) (key : String)
    (location : Location) (json : Json) : Finds (fitAlternative alternatives index key location json) := by
  induction alternatives generalizing index with
  | nil => exact finds_misfit _ _
  | cons alternative alternatives ih =>
    obtain ⟨name, type⟩ := alternative
    rw [fitAlternative]
    split
    · refine (h (name, type) (List.mem_cons_self ..) _ _).bind fun payload => ?_
      cases payload with
      | none => exact reports_pure Iff.rfl
      | some payload => exact reports_pure Iff.rfl
    · exact ih (fun alternative ha => h alternative (List.mem_cons_of_mem _ ha)) (index + 1)

/-- A value of any type is found exactly if no error is reported. -/
theorem finds_fit (type : Descriptor) : ∀ location json, Finds (type.fit location json) := by
  induction type using Descriptor.induction with
  | simple name plain extensible =>
    intro location json
    rw [fit]
    exact finds_fitSimple _ plain location json
  | enumerated name items standard =>
    intro location json
    rw [fit]
    exact finds_fitItem _ items location json
  | sequence name fields standard ih =>
    intro location json
    rw [fit]
    split
    · exact finds_misfit _ _
    · rename_i members _
      have hknown := reports_fitKeys (fields.map (·.name)) location members true
      rw [eq_self true] at hknown
      refine hknown.bind fun known => ((reports_fitFields ih location members).and (known = true)).bind fun found => ?_
      refine reports_pure ?_
      obtain ⟨entries, ok⟩ := found
      cases known <;> cases ok <;> simp
  | sequenceOf name element size extensible ih =>
    intro location json
    rw [fit]
    split
    · exact finds_misfit _ _
    · rename_i items _
      have helements := reports_fitElements ih location items 0 [] true
      rw [eq_self true] at helements
      refine helements.bind fun found => reports_pure ?_
      obtain ⟨elements, ok⟩ := found
      cases ok <;> simp
  | choice name alternatives standard ih =>
    intro location json
    rw [fit]
    split
    · exact finds_fitAlternative ih 0 _ location _
    · exact finds_misfit _ _

/-! ## What is found -/

/-- Whatever was reported before, the result of an action has a property. -/
def Yields {α : Type} (action : FitM α) (P : α → Prop) : Prop :=
  ∀ diagnostics, P (action.run diagnostics).1

variable {P : α → Prop} {Q : β → Prop}

theorem yields_pure {x : α} (h : P x) : Yields (pure x) P :=
  fun _ => h

theorem yields_misfit {P : Option α → Prop} (location : Location) (text : String) (h : P none) :
    Yields (misfit location text) P :=
  fun _ => h

theorem Yields.bind {action : FitM α} {next : α → FitM β} (h : Yields action P) (h' : ∀ x, P x → Yields (next x) Q) :
    Yields (action >>= next) Q :=
  fun diagnostics => h' _ (h diagnostics) _

/-- What is found, if anything is, has the shape of a type. The bits of a bit string are counted in a word. -/
abbrev FindsShape (type : Descriptor) (action : FitM (Option Value)) : Prop :=
  Yields action fun found => ∀ value ∈ found, type.shapes (2 ^ 64 - 1) value = true

/-- Nothing has no shape to have. -/
theorem findsShape_misfit (type : Descriptor) (location : Location) (text : String) : type.FindsShape (misfit location text) :=
  yields_misfit location text fun _ hv => absurd hv (Option.not_mem_none _)

theorem findsShape_pure {type : Descriptor} {value : Value} (h : type.shapes (2 ^ 64 - 1) value = true) :
    type.FindsShape (pure (some value)) :=
  yields_pure fun _ hv => Option.mem_some_iff.mp hv ▸ h

/-- A bit string is put into as many octets as its bits take. -/
theorem findsShape_fitBits (name : String) (size : Bounds Int64) (extensible : Bool) (type : Descriptor) (location : Location)
    (json : Json) : (simple name (.bitString size) extensible).FindsShape (type.fitBits location json) := by
  unfold fitBits
  split
  · exact findsShape_misfit _ _ _
  · split
    · exact findsShape_misfit _ _ _
    · split
      · exact findsShape_misfit _ _ _
      · rename_i members _ _ _ _ _ data _
        have hany : Yields (fitBitCount location members (data.size * 8)) fun _ => True := fun _ => trivial
        refine hany.bind fun count _ => ?_
        cases count with
        | none => exact yields_pure fun _ hv => absurd hv (Option.not_mem_none _)
        | some count =>
          refine findsShape_pure (Bool.and_eq_true_iff.mpr ⟨decide_eq_true ?_, decide_eq_true ?_⟩)
          · show (UInt64.ofNat count).toNat ≤ (Octets.resize data (Octets.countFor count)).size * 8
            rw [Octets.size_resize, UInt64.toNat_ofNat', Octets.countFor]
            omega
          · exact Nat.le_pred_of_lt (UInt64.ofNat count).toNat_lt

/-- A value without parts. -/
theorem findsShape_fitSimple (name : String) (plain : SimpleType) (extensible : Bool) (type : Descriptor) (location : Location)
    (json : Json) : (simple name plain extensible).FindsShape (type.fitSimple plain location json) := by
  unfold fitSimple
  split
  · split
    · exact findsShape_pure rfl
    · exact findsShape_misfit _ _ _
  · split
    · exact findsShape_pure rfl
    · exact findsShape_misfit _ _ _
  · split
    · exact findsShape_pure rfl
    · exact findsShape_misfit _ _ _
  · split
    · exact findsShape_misfit _ _ _
    · split
      · exact findsShape_misfit _ _ _
      · exact findsShape_pure rfl
  · exact findsShape_fitBits name _ extensible type location json
  · split
    · rename_i text _
      exact findsShape_pure (Utf8.isLegal_ofText text)
    · exact findsShape_misfit _ _ _

/-- An item that there is. -/
theorem findsShape_fitItem {name : String} {items : List String} {standard : Option Nat} (hcount : items.length < 2 ^ 64)
    (type : Descriptor) (location : Location) (json : Json) :
    (enumerated name items standard).FindsShape (type.fitItem items location json) := by
  unfold fitItem
  split
  · exact findsShape_misfit _ _ _
  · split
    · exact findsShape_misfit _ _ _
    · rename_i item _ index hindex
      obtain ⟨hi, -⟩ := List.idxOf?_eq_some_iff.mp hindex
      refine findsShape_pure (decide_eq_true ?_)
      rw [UInt64.toNat_ofNat', Nat.mod_eq_of_lt (by omega)]
      exact hi

/-- The elements of a list that was accepted are all there. -/
theorem yields_fitElements {element : Descriptor} (h : ∀ location json, element.FindsShape (element.fit location json))
    (location : Location) (items : List Json) (index : Nat) (sofar : List (Option Value)) (ok : Bool)
    (hsofar : ok = true → ∀ entry ∈ sofar, entry.any (fun value => element.shapes (2 ^ 64 - 1) value) = true) :
    Yields (fitElements (fun location json => element.fit location json) location index sofar ok items) fun found =>
      found.2 = true → ∀ entry ∈ found.1, entry.any (fun value => element.shapes (2 ^ 64 - 1) value) = true := by
  induction items generalizing index sofar ok with
  | nil => exact yields_pure hsofar
  | cons item rest ih =>
    rw [fitElements]
    refine (h (location.item index) item).bind fun found hfound => ih (index + 1) (found :: sofar) _ fun hok entry hm => ?_
    obtain ⟨hbefore, hsome⟩ := Bool.and_eq_true_iff.mp hok
    rcases List.mem_cons.mp hm with rfl | hm
    · obtain ⟨value, rfl⟩ := Option.isSome_iff_exists.mp hsome
      exact hfound value rfl
    · exact hsofar hbefore entry hm

/-- The entries of the fields of an object that was accepted. -/
theorem yields_fitFields {fields : List (Field Descriptor)}
    (h : ∀ field ∈ fields, ∀ location json, field.type.FindsShape (field.type.fit location json)) (location : Location)
    (members : List (String × Json)) :
    Yields (fitFields fields location members) fun found => found.2 = true → fieldsShape (2 ^ 64 - 1) fields found.1 = true := by
  induction fields with
  | nil => exact yields_pure fun _ => rfl
  | cons field fields ih =>
    obtain ⟨name, optional, type⟩ := field
    have hrest := ih fun field hf => h field (List.mem_cons_of_mem _ hf)
    have hnext : ∀ (entry : Option Value) (ok : Bool),
        (ok = true → entry.elim optional (type.shapes (2 ^ 64 - 1)) = true) →
        Yields (fitFields fields location members >>= fun found => pure (entry :: found.1, ok && found.2)) fun found =>
          found.2 = true → fieldsShape (2 ^ 64 - 1) (⟨name, optional, type⟩ :: fields) found.1 = true := by
      intro entry ok hentry
      refine hrest.bind fun found hfound => yields_pure fun hok => ?_
      obtain ⟨hhere, hothers⟩ := Bool.and_eq_true_iff.mp hok
      refine Bool.and_eq_true_iff.mpr ⟨?_, hfound hothers⟩
      cases entry <;> exact hentry hhere
    rw [fitFields]
    split
    · cases optional with
      | false =>
        have hreport : Yields (misfit location ("missing mandatory field '" ++ name ++ "'") : FitM (Option Unit))
            fun _ => True := fun _ => trivial
        exact hreport.bind fun _ _ => hnext none false id
      | true => exact hnext none true id
    · refine (h ⟨name, optional, type⟩ (List.mem_cons_self ..) _ _).bind fun entry hentry => hnext entry entry.isSome ?_
      intro hsome
      obtain ⟨value, rfl⟩ := Option.isSome_iff_exists.mp hsome
      exact hentry value rfl

/-- The value of an alternative is found with the index of the alternative, counted from a start. -/
theorem yields_fitAlternative {alternatives : List (String × Descriptor)}
    (h : ∀ alternative ∈ alternatives, ∀ location json, alternative.2.FindsShape (alternative.2.fit location json))
    (start : Nat) (key : String) (location : Location) (json : Json) :
    Yields (fitAlternative alternatives start key location json) fun found => ∀ value ∈ found, ∃ index payload,
      value = .choice (UInt64.ofNat (start + index)) (some payload) ∧
        alternativeShapes (2 ^ 64 - 1) alternatives index payload = true := by
  induction alternatives generalizing start with
  | nil => exact yields_misfit _ _ fun _ hv => absurd hv (Option.not_mem_none _)
  | cons alternative alternatives ih =>
    obtain ⟨name, type⟩ := alternative
    rw [fitAlternative]
    split
    · refine (h (name, type) (List.mem_cons_self ..) _ _).bind fun found hfound => ?_
      cases found with
      | none => exact yields_pure fun _ hv => absurd hv (Option.not_mem_none _)
      | some payload =>
        refine yields_pure fun value hv => ?_
        exact ⟨0, payload, (Option.mem_some_iff.mp hv).symm, hfound payload rfl⟩
    · intro diagnostics value hv
      obtain ⟨index, payload, hvalue, hpayload⟩ :=
        ih (fun alternative ha => h alternative (List.mem_cons_of_mem _ ha)) (start + 1) diagnostics value hv
      exact ⟨index + 1, payload, by rw [hvalue, Nat.add_assoc, Nat.add_comm 1], hpayload⟩

/-- What is found of a type has its shape. -/
theorem findsShape_fit (type : Descriptor) (hc : type.everywhere countable = true) :
    ∀ location json, type.FindsShape (type.fit location json) := by
  induction type using Descriptor.induction with
  | simple name plain extensible =>
    intro location json
    rw [fit]
    exact findsShape_fitSimple name plain extensible _ location json
  | enumerated name items standard =>
    intro location json
    rw [fit]
    exact findsShape_fitItem (of_decide_eq_true (of_everywhere hc)) _ location json
  | sequence name fields standard ih =>
    obtain ⟨-, hparts⟩ := everywhere_sequence.mp hc
    intro location json
    rw [fit]
    split
    · exact findsShape_misfit _ _ _
    · rename_i members _
      have hany : Yields (fitKeys (fields.map (·.name)) location true members) fun _ => True := fun _ => trivial
      have hfields := yields_fitFields (fun field hf => ih field hf (hparts field hf)) location members
      refine hany.bind fun known _ => hfields.bind fun found hfound => yields_pure fun value hv => ?_
      obtain ⟨entries, ok⟩ := found
      by_cases hok : (known && ok) = true
      · rw [if_pos hok] at hv
        obtain rfl := Option.mem_some_iff.mp hv
        exact hfound (Bool.and_eq_true_iff.mp hok).2
      · rw [if_neg hok] at hv
        exact absurd hv (Option.not_mem_none _)
  | sequenceOf name element size extensible ih =>
    have hparts := (everywhere_sequenceOf.mp hc).2
    intro location json
    rw [fit]
    split
    · exact findsShape_misfit _ _ _
    · rename_i items _
      have hempty : ∀ entry ∈ ([] : List (Option Value)), entry.any (fun value => element.shapes (2 ^ 64 - 1) value) = true :=
        fun _ hm => absurd hm List.not_mem_nil
      have helements := yields_fitElements (ih hparts) location items 0 [] true fun _ => hempty
      refine helements.bind fun found hfound => yields_pure fun value hv => ?_
      obtain ⟨elements, ok⟩ := found
      cases ok with
      | false => exact absurd hv (Option.not_mem_none _)
      | true =>
        obtain rfl := Option.mem_some_iff.mp hv
        rw [shapes, List.all_eq_true]
        exact fun entry hm => hfound rfl entry (List.mem_reverse.mp hm)
  | choice name alternatives standard ih =>
    obtain ⟨hcount, hparts⟩ := everywhere_choice.mp hc
    have hlt : alternatives.length < 2 ^ 64 := of_decide_eq_true hcount
    intro location json
    rw [fit]
    split
    · rename_i key payload _
      intro diagnostics value hv
      obtain ⟨index, found, rfl, hfound⟩ :=
        yields_fitAlternative (fun alternative ha => ih alternative ha (hparts alternative ha)) 0 key location payload
          diagnostics value hv
      obtain ⟨alternative, ha, -⟩ := alternativeShapes_iff.mp hfound
      obtain ⟨hi, -⟩ := List.getElem?_eq_some_iff.mp ha
      show alternativeShapes (2 ^ 64 - 1) alternatives (UInt64.ofNat (0 + index)).toNat found = true
      rw [UInt64.toNat_ofNat', Nat.zero_add, Nat.mod_eq_of_lt (by omega)]
      exact hfound
    · exact findsShape_misfit _ _ _

/-! ## Whole documents -/

/-- What is read from a document: what is found of the type, if no error is reported. -/
theorem ofJson_cases (type : Descriptor) (location : Location) (json : Json) :
    (∃ value, Value.ofJson type location json = (.ok value, ((type.fit location json).run #[]).2) ∧
      ((type.fit location json).run #[]).1 = some value ∧
      Diagnostic.errorCount ((type.fit location json).run #[]).2 = 0) ∨
    ∃ fault, Value.ofJson type location json = (.error fault, ((type.fit location json).run #[]).2) ∧
      0 < Diagnostic.errorCount ((type.fit location json).run #[]).2 := by
  obtain ⟨-, hfound⟩ := type.finds_fit location json #[]
  have hzero : Diagnostic.errorCount #[] = 0 := rfl
  rw [Value.ofJson]
  generalize (type.fit location json).run #[] = outcome at hfound ⊢
  obtain ⟨found, diagnostics⟩ := outcome
  cases found with
  | some value =>
    have hnone : Diagnostic.errorCount diagnostics = 0 := (hfound.mp rfl).2
    exact .inl ⟨value, if_pos hnone, rfl, hnone⟩
  | none =>
    have hsome : Diagnostic.errorCount diagnostics ≠ 0 := fun h => Bool.false_ne_true (hfound.mpr ⟨trivial, h⟩)
    exact .inr ⟨_, rfl, Nat.pos_of_ne_zero hsome⟩

end Descriptor

/-- A document is refused exactly if an error is reported. -/
theorem Value.ofJson_eq_error_iff (type : Descriptor) (location : Location) (json : Json) :
    (∃ fault, (ofJson type location json).1 = .error fault) ↔
      0 < Diagnostic.errorCount (ofJson type location json).2 := by
  rcases type.ofJson_cases location json with ⟨value, hread, -, hnone⟩ | ⟨fault, hread, hsome⟩
  · rw [hread]
    refine iff_of_false ?_ (Nat.not_lt.mpr (Nat.le_of_eq hnone))
    rintro ⟨fault, hf⟩
    cases hf
  · rw [hread]
    exact iff_of_true ⟨fault, rfl⟩ hsome

/-- The value that is read from a document has the shape of its type. -/
theorem Value.shapes_of_ofJson {type : Descriptor} (hc : type.everywhere Descriptor.countable = true) {location : Location}
    {json : Json} {value : Value} (h : (ofJson type location json).1 = .ok value) : type.shapes (2 ^ 64 - 1) value = true := by
  rcases type.ofJson_cases location json with ⟨found, hread, hfound, -⟩ | ⟨fault, hread, -⟩
  · rw [hread] at h
    cases h
    exact type.findsShape_fit hc location json #[] _ hfound
  · rw [hread] at h
    cases h

/-- Reading a document as a value of any type.
1. The document is refused exactly if an error is reported.
2. The value that is read is encoded under any settings, or refused because a number or a size is outside its bounds, a
   character is not in the alphabet, or containers nest too deep. -/
theorem Value.ofJson_encode (type : Descriptor) (location : Location) (json : Json) :
    ((∃ fault, (ofJson type location json).1 = .error fault) ↔
      0 < Diagnostic.errorCount (ofJson type location json).2) ∧
    ∀ settings value, type.everywhere Descriptor.countable = true → (ofJson type location json).1 = .ok value →
      (∃ e, (encode settings type value).1 = .ok e) ∨
        ∃ fault, (encode settings type value).1 = .error fault ∧ fault.isExcess = true := by
  refine ⟨Value.ofJson_eq_error_iff type location json, fun settings value hc h => ?_⟩
  cases he : (encode settings type value).1 with
  | ok e => exact .inl ⟨e, rfl⟩
  | error fault => exact .inr ⟨fault, rfl, encode_excess settings hc (Value.shapes_of_ofJson hc h) he⟩

/-- Digits and, optionally, a level below eight. -/
def Descriptor.sample : Descriptor :=
  .sequence "Sample" [⟨"digits", false, .simple "" (.text .numeric .free) false⟩,
    ⟨"level", true, .simple "" (.integer ⟨some 0, some 7⟩) false⟩] none

/-- A document without the mandatory field is refused; one with a level that is too great is read, but not encoded. -/
theorem Value.ofJson_encode_sample :
    (∃ fault, (ofJson .sample ⟨"", ""⟩ (.obj [("level", .int 3)])).1 = .error fault) ∧
    (ofJson .sample ⟨"", ""⟩ (.obj [("digits", .str "12"), ("level", .int 9)])).1 =
      .ok (.sequence [some (.text #[0x31, 0x32]), some (.integer 9)]) ∧
    (¬∃ e, (encode .standard .sample (.sequence [some (.text #[0x31, 0x32]), some (.integer 9)])).1 = .ok e) ∧
    ∃ fault, (encode .standard .sample (.sequence [some (.text #[0x31, 0x32]), some (.integer 9)])).1 = .error fault ∧
      fault.isExcess = true :=
  have hc : Descriptor.sample.everywhere Descriptor.countable = true := by decide +kernel
  have hmissing : 0 < Diagnostic.errorCount (ofJson .sample ⟨"", ""⟩ (.obj [("level", .int 3)])).2 := by cbv
  have hread : (ofJson .sample ⟨"", ""⟩ (.obj [("digits", .str "12"), ("level", .int 9)])).1 =
      .ok (.sequence [some (.text #[0x31, 0x32]), some (.integer 9)]) := by cbv
  have hrefused : ¬∃ e, (encode .standard .sample (.sequence [some (.text #[0x31, 0x32]), some (.integer 9)])).1 = .ok e := by
    rintro ⟨e, he⟩
    have hfault : (encode .standard .sample (.sequence [some (.text #[0x31, 0x32]), some (.integer 9)])).1 =
      .error (.valueNotInRange 9 0 7) := by cbv
    rw [hfault] at he
    cases he
  ⟨(ofJson_encode .sample ⟨"", ""⟩ _).1.mpr hmissing, hread, hrefused,
    ((ofJson_encode .sample ⟨"", ""⟩ _).2 .standard _ hc hread).resolve_left hrefused⟩

end UnalignedPer
