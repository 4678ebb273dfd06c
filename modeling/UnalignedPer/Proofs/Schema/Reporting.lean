import UnalignedPer.Schema.Loading

/-!
# Reading the parts of a type only reports

The readers of the parts of a type node that hold no other types report what is wrong. Which types were read, which failed and
which are under way stays as it is (`Loading.Reporting`).
-/

namespace UnalignedPer

namespace Loading

variable {α β : Type}

/-! ## What only reports -/

/-- An action reports and does nothing else. -/
def Reporting (action : LoadM α) : Prop :=
  ∀ l, ∃ diagnostics, (action l).2 = { l with diagnostics := diagnostics }

/-- An action that does nothing reports nothing. -/
theorem reporting_pure (x : α) : Reporting (pure x) := fun l => ⟨l.diagnostics, rfl⟩

/-- Two actions that only report only report one after the other. -/
theorem Reporting.bind {m : LoadM α} {f : α → LoadM β} (h : Reporting m) (h' : ∀ x, Reporting (f x)) : Reporting (m >>= f) := by
  intro l
  obtain ⟨first, hfirst⟩ := h l
  obtain ⟨second, hsecond⟩ := h' (m l).1 (m l).2
  refine ⟨second, hsecond.trans ?_⟩
  rw [hfirst]

/-- A choice between two actions that only report only reports. -/
theorem reporting_ite {c : Prop} [Decidable c] {m m' : LoadM α} (h : Reporting m) (h' : Reporting m') :
    Reporting (if c then m else m') := by
  split
  · exact h
  · exact h'

/-- A report adds a diagnostic and does nothing else. -/
theorem reporting_report (severity : Severity) (location : Location) (text : String) :
    Reporting (report severity location text) := fun l => ⟨l.diagnostics.push ⟨severity, location, text⟩, rfl⟩

/-- A refusal adds an error and does nothing else. -/
theorem reporting_refuse (location : Location) (text : String) : Reporting (refuse location text : LoadM (Option α)) :=
  (reporting_report _ _ _).bind fun _ => reporting_pure none

/-! ## The readers -/

/-- Keys that are not known are only reported. -/
theorem reporting_warnUnknownKeys (location : Location) (allowed : List String) (members : List (String × Json)) :
    Reporting (warnUnknownKeys location allowed members) := by
  induction members with
  | nil => exact reporting_pure ()
  | cons member rest ih => exact reporting_ite ((reporting_report _ _ _).bind fun _ => ih) ih

/-- A bound is read without anything but reports. -/
theorem reporting_readBound (location : Location) (isSize : Bool) (members : List (String × Json)) (key : String) :
    Reporting (readBound location isSize members key) := by
  unfold readBound
  split
  · exact reporting_pure _
  · split
    · exact reporting_refuse _ _
    · exact reporting_ite (reporting_refuse _ _) (reporting_pure _)

/-- The extension flag is read without anything but reports. -/
theorem reporting_readExtensible (location : Location) (members : List (String × Json)) :
    Reporting (readExtensible location members) := by
  unfold readExtensible
  split
  · exact reporting_pure _
  · split
    · exact reporting_pure _
    · exact (reporting_report _ _ _).bind fun _ => reporting_pure _

/-- The two bounds are read without anything but reports. -/
theorem reporting_readBounds (location : Location) (isSize : Bool) (members : List (String × Json)) :
    Reporting (readBounds location isSize members) := by
  have hnone : Reporting (readExtensible location members >>= fun _ => pure (none : Option (Bounds Int64 × Bool))) :=
    (reporting_readExtensible _ _).bind fun _ => reporting_pure none
  have hsome : ∀ (bounds : Bounds Int64) (crossed : Bool), Reporting
      (readExtensible location members >>= fun extensible => pure (if crossed then none else some (bounds, extensible))) :=
    fun bounds crossed => (reporting_readExtensible _ _).bind fun _ => reporting_pure _
  refine (reporting_readBound _ _ _ _).bind fun lower => (reporting_readBound _ _ _ _).bind fun upper => ?_
  match lower, upper with
  | none, _ => exact hnone
  | some lower, none => cases lower <;> exact hnone
  | some none, some upper => exact hsome ⟨none, upper⟩ false
  | some (some lower), some none => exact hsome ⟨some lower, none⟩ false
  | some (some lower), some (some upper) =>
    exact reporting_ite (c := lower > upper) ((reporting_report _ _ _).bind fun _ => hsome ⟨some lower, some upper⟩ true)
      (hsome ⟨some lower, some upper⟩ false)

/-- The alphabet of a text is read without anything but reports. -/
theorem reporting_readAlphabet (location : Location) (members : List (String × Json)) :
    Reporting (readAlphabet location members) := by
  unfold readAlphabet
  split
  · exact reporting_pure _
  · split
    · exact reporting_pure _
    · exact reporting_refuse _ _

/-- A type that is put together from bounds alone is read without anything but reports. -/
theorem reporting_readBounded (location : Location) (name : String) (kind : Kind) (members : List (String × Json)) :
    Reporting (readBounded location name kind members) := by
  refine (reporting_readBounds _ _ _).bind fun found => ?_
  split
  · exact reporting_pure _
  · split
    · exact reporting_pure _
    · exact reporting_pure _
    · exact reporting_pure _
    · refine (reporting_readAlphabet _ _).bind fun alphabet => ?_
      split
      · exact reporting_pure _
      · exact reporting_pure _

/-- The place of the marker is read without anything but reports. -/
theorem reporting_readStandard (location : Location) (members : List (String × Json)) (names : List String) :
    Reporting (readStandard location members names) := by
  refine (reporting_readExtensible _ _).bind fun extensible => ?_
  split
  · exact reporting_pure _
  · refine reporting_ite (reporting_refuse _ _) ?_
    split
    · exact reporting_refuse _ _
    · split
      · exact reporting_refuse _ _
      · exact reporting_pure _

/-- The names of an enumeration are read without anything but reports. -/
theorem reporting_readItems (location : Location) (index : Nat) (sofar : List String) (ok : Bool) (items : List Json) :
    Reporting (readItems location index sofar ok items) := by
  induction items generalizing index sofar ok with
  | nil => exact reporting_pure _
  | cons item rest ih =>
    have hskip : ∀ text, Reporting (do
        error (location.item index) text
        readItems location (index + 1) sofar false rest) := fun text => (reporting_report _ _ _).bind fun _ => ih _ _ _
    rw [readItems]
    split
    · exact hskip _
    · exact reporting_ite (hskip _) (reporting_ite (hskip _) (ih _ _ _))

/-- An enumeration is read without anything but reports. -/
theorem reporting_readEnumerated (location : Location) (name : String) (members : List (String × Json)) :
    Reporting (readEnumerated location name members) := by
  unfold readEnumerated
  split
  · exact reporting_refuse _ _
  · exact reporting_refuse _ _
  · refine (reporting_readItems _ _ _ _ _).bind ?_
    rintro ⟨items, ok⟩
    refine reporting_ite ?_ (reporting_pure _)
    refine (reporting_readStandard _ _ _).bind fun standard => ?_
    split
    · exact reporting_pure _
    · exact reporting_pure _

/-- The flag of a field is read without anything but reports. -/
theorem reporting_readOptional (location : Location) (isChoice : Bool) (member : List (String × Json)) :
    Reporting (readOptional location isChoice member) := by
  unfold readOptional
  split
  · exact reporting_pure _
  · split
    · exact reporting_refuse _ _
    · exact reporting_ite (reporting_refuse _ _) (reporting_pure _)

/-- The members that were read are put together without anything but reports. -/
theorem reporting_finishMembers (location : Location) (name : String) (isChoice : Bool) (members : List (String × Json))
    (scan : MemberScan) : Reporting (finishMembers location name isChoice members scan) := by
  refine reporting_ite ?_ (reporting_pure _)
  refine (reporting_readStandard _ _ _).bind fun standard => ?_
  split
  · exact reporting_pure _
  · exact reporting_ite (reporting_pure _) (reporting_pure _)

end Loading

end UnalignedPer
