import UnalignedPer.Proofs.Schema.Grammar
import UnalignedPer.Settings

/-!
# Taking over settings

Trace level, depth and length are taken over in the same way, each by itself: a choice that is accepted is converted and kept, and
counts as a change (`Settings.adopt`, `Settings.apply_eq`). So whatever differs counts as a change, and the same choice leaves what
it has set. Only if a choice is never accepted where the converted one is there already does nothing else count as a change. That
is so for trace levels and lengths, and for the depths that can be chosen; a greater depth is compared before it is cut
(`Settings.apply_truthful`).
-/

namespace UnalignedPer

namespace Settings

/-! ## One setting -/

section Adopt

variable {α β : Type} (accepts : β → α → Bool) (convert : β → α)

/-- Takes over a choice, if there is one and it is accepted; tells whether it was taken for a change. -/
def adopt : Option β → α → Bool × α
  | none, current => (false, current)
  | some choice, current => if accepts choice current then (true, convert choice) else (false, current)

/-- What differs was taken for a change. -/
theorem adopt_told (choice : Option β) {current : α} (h : (adopt accepts convert choice current).2 ≠ current) :
    (adopt accepts convert choice current).1 = true := by
  cases choice with
  | none => exact absurd rfl h
  | some choice =>
    by_cases hc : accepts choice current = true
    · simp [adopt, hc]
    · simp [adopt, hc] at h

/-- The same choice leaves what it has set. -/
theorem adopt_stays (choice : Option β) (current : α) :
    (adopt accepts convert choice (adopt accepts convert choice current).2).2 = (adopt accepts convert choice current).2 := by
  cases choice with
  | none => rfl
  | some choice =>
    by_cases hc : accepts choice current = true
    · by_cases hagain : accepts choice (convert choice) = true
      · simp [adopt, hc, hagain]
      · simp [adopt, hc, hagain]
    · simp [adopt, hc]

/-- A choice is not accepted where it is set already. -/
def Fresh (choice : Option β) : Prop :=
  ∀ value, choice = some value → ∀ current, accepts value current = true → convert value ≠ current

variable {accepts convert}

/-- What was taken for a change differs, if the choice is not accepted where it is set already. -/
theorem Fresh.differs {choice : Option β} (h : Fresh accepts convert choice) {current : α}
    (hchanged : (adopt accepts convert choice current).1 = true) : (adopt accepts convert choice current).2 ≠ current := by
  cases choice with
  | none => cases hchanged
  | some value =>
    by_cases hc : accepts value current = true
    · simpa [adopt, hc] using h value rfl current hc
    · simp [adopt, hc] at hchanged

end Adopt

/-! ## The three settings -/

/-- The level of a name; one that is none of the levels, in any case of letters, stands for the basic one. -/
def levelOf (name : String) : TraceLevel :=
  (TraceLevel.ofName? (name.map Char.toLower)).getD .basic

/-- The depth that is kept for a number. -/
def keptDepth (number : Int64) : Nat :=
  min number.toInt.toNat depthLimit

/-- A name is accepted if its level is another one. -/
def acceptsTrace (name : String) (level : TraceLevel) : Bool :=
  levelOf name ≠ level

/-- A number is accepted as the depth if it is positive and another one. -/
def acceptsDepth (number : Int64) (depth : Nat) : Bool :=
  0 < number.toInt ∧ number.toInt.toNat ≠ depth

/-- A number is accepted as the length if it is positive and another one. -/
def acceptsLength (number : Int64) (length : UInt64) : Bool :=
  0 < number.toInt ∧ number.toUInt64 ≠ length

/-- Takes over a trace level. -/
def adoptTrace : Option String → TraceLevel → Bool × TraceLevel :=
  adopt acceptsTrace levelOf

/-- Takes over a depth. -/
def adoptDepth : Option Int64 → Nat → Bool × Nat :=
  adopt acceptsDepth keptDepth

/-- Takes over a length. -/
def adoptLength : Option Int64 → UInt64 → Bool × UInt64 :=
  adopt acceptsLength Int64.toUInt64

/-- The trace level that a document chooses. -/
def traceChoice (document : Json) : Option String :=
  (document.under? "trace").bind Json.str?

/-- The limit that a document chooses under a key. -/
def limitChoice (key : String) (document : Json) : Option Int64 :=
  ((document.under? "limits").bind (Json.under? key)).bind Json.int64?

theorem applyTrace_eq (settings : Settings) (members : List (String × Json)) :
    settings.applyTrace members =
      ((adoptTrace (traceChoice (.obj members)) settings.trace).1,
        { settings with trace := (adoptTrace (traceChoice (.obj members)) settings.trace).2 }) := by
  unfold applyTrace traceChoice
  rw [Json.under?_obj]
  cases (Json.member? "trace" members).bind Json.str? with
  | none => rfl
  | some name =>
    show (decide (levelOf name ≠ settings.trace), { settings with trace := levelOf name }) = _
    by_cases h : levelOf name = settings.trace
    · simp [adoptTrace, adopt, acceptsTrace, h]
    · simp [adoptTrace, adopt, acceptsTrace, h]

theorem applyDepth_eq (settings : Settings) (limits : List (String × Json)) :
    settings.applyDepth limits =
      ((adoptDepth ((Json.member? "maxNestingDepth" limits).bind Json.int64?) settings.maxDepth).1,
        { settings with
          maxDepth := (adoptDepth ((Json.member? "maxNestingDepth" limits).bind Json.int64?) settings.maxDepth).2 }) := by
  unfold applyDepth
  cases (Json.member? "maxNestingDepth" limits).bind Json.int64? with
  | none => rfl
  | some depth =>
    by_cases h : 0 < depth.toInt ∧ depth.toInt.toNat ≠ settings.maxDepth
    · simp only [adoptDepth, adopt, acceptsDepth, keptDepth, if_pos h, decide_eq_true h, if_true]
    · simp only [adoptDepth, adopt, acceptsDepth, if_neg h, decide_eq_false h, Bool.false_eq_true, if_false]

theorem applyLength_eq (settings : Settings) (limits : List (String × Json)) :
    settings.applyLength limits =
      ((adoptLength ((Json.member? "maxDecodedLength" limits).bind Json.int64?) settings.maxLength).1,
        { settings with
          maxLength := (adoptLength ((Json.member? "maxDecodedLength" limits).bind Json.int64?) settings.maxLength).2 }) := by
  unfold applyLength
  cases (Json.member? "maxDecodedLength" limits).bind Json.int64? with
  | none => rfl
  | some length =>
    by_cases h : 0 < length.toInt ∧ length.toUInt64 ≠ settings.maxLength
    · simp only [adoptLength, adopt, acceptsLength, if_pos h, decide_eq_true h, if_true]
    · simp only [adoptLength, adopt, acceptsLength, if_neg h, decide_eq_false h, Bool.false_eq_true, if_false]

/-- Settings are taken over one by one. -/
theorem apply_eq (settings : Settings) (document : Json) :
    settings.apply document =
      ((adoptDepth (limitChoice "maxNestingDepth" document) settings.maxDepth).1 ||
          (adoptLength (limitChoice "maxDecodedLength" document) settings.maxLength).1 ||
          (adoptTrace (traceChoice document) settings.trace).1,
        ⟨(adoptDepth (limitChoice "maxNestingDepth" document) settings.maxDepth).2,
          (adoptLength (limitChoice "maxDecodedLength" document) settings.maxLength).2,
          (adoptTrace (traceChoice document) settings.trace).2⟩) := by
  cases document
  case obj members =>
    unfold apply applyLimits limitChoice
    simp only [applyTrace_eq, Json.under?_obj]
    cases Json.member? "limits" members with
    | none => rfl
    | some value =>
      cases value
      case obj limits =>
        simp only [Option.bind_some, Json.obj?, applyDepth_eq, applyLength_eq]
        rfl
      all_goals rfl
  all_goals rfl

/-! ## Changes -/

/-- The depth that a document chooses, if it does, can be chosen. -/
def DepthFits (document : Json) : Prop :=
  ∀ depth, limitChoice "maxNestingDepth" document = some depth → depth.toInt ≤ depthLimit

theorem eq_iff {settings settings' : Settings} :
    settings = settings' ↔
      settings.maxDepth = settings'.maxDepth ∧ settings.maxLength = settings'.maxLength ∧ settings.trace = settings'.trace := by
  cases settings
  cases settings'
  simp

/-- What differs was taken for a change. -/
theorem apply_told (settings : Settings) (document : Json) (h : (settings.apply document).2 ≠ settings) :
    (settings.apply document).1 = true := by
  rw [apply_eq] at h ⊢
  simp only [Bool.or_eq_true]
  by_contra hnot
  simp only [not_or] at hnot
  obtain ⟨⟨hdepth, hlength⟩, htrace⟩ := hnot
  refine h (eq_iff.mpr ⟨?_, ?_, ?_⟩)
  · by_contra hne
    exact hdepth (adopt_told _ _ _ hne)
  · by_contra hne
    exact hlength (adopt_told _ _ _ hne)
  · by_contra hne
    exact htrace (adopt_told _ _ _ hne)

/-- The same document leaves what it has set. -/
theorem apply_stays (settings : Settings) (document : Json) :
    ((settings.apply document).2.apply document).2 = (settings.apply document).2 := by
  rw [apply_eq (settings.apply document).2, apply_eq settings]
  exact eq_iff.mpr ⟨adopt_stays _ _ _ _, adopt_stays _ _ _ _, adopt_stays _ _ _ _⟩

/-- What was taken for a change differs, if the depth can be chosen. -/
theorem apply_differs {settings : Settings} {document : Json} (hfits : DepthFits document)
    (h : (settings.apply document).1 = true) : (settings.apply document).2 ≠ settings := by
  have hdepth : Fresh acceptsDepth keptDepth (limitChoice "maxNestingDepth" document) := by
    intro depth hdepth current haccepts
    have hle := hfits depth hdepth
    rw [keptDepth, Nat.min_eq_left (by omega)]
    exact (of_decide_eq_true haccepts).2
  have hlength : Fresh acceptsLength Int64.toUInt64 (limitChoice "maxDecodedLength" document) := by
    intro length _ current haccepts
    exact (of_decide_eq_true haccepts).2
  have htrace : Fresh acceptsTrace levelOf (traceChoice document) := by
    intro name _ current haccepts
    exact of_decide_eq_true haccepts
  rw [apply_eq] at h ⊢
  simp only [Bool.or_eq_true] at h
  intro heq
  obtain ⟨hsameDepth, hsameLength, hsameTrace⟩ := eq_iff.mp heq
  rcases h with (h | h) | h
  · exact hdepth.differs h hsameDepth
  · exact hlength.differs h hsameLength
  · exact htrace.differs h hsameTrace

/-- A depth that cannot be chosen counts as a change where the greatest one is kept for it. -/
theorem apply_again {settings : Settings} {document : Json} (hsettings : settings.maxDepth ≤ depthLimit)
    (hfits : ¬DepthFits document) : ((settings.apply document).2.apply document).1 = true := by
  simp only [DepthFits, not_forall, Int.not_le] at hfits
  obtain ⟨depth, hdepth, hlimit⟩ := hfits
  rw [apply_eq (settings.apply document).2, apply_eq settings, hdepth]
  have hkept : keptDepth depth = depthLimit := Nat.min_eq_right (by omega)
  have haccepts : ∀ current ≤ depthLimit, adoptDepth (some depth) current = (true, depthLimit) := by
    intro current hcurrent
    have haccepts : acceptsDepth depth current = true := decide_eq_true (by omega)
    simp [adoptDepth, adopt, haccepts, hkept]
  simp [haccepts settings.maxDepth hsettings, haccepts depthLimit (Nat.le_refl _)]

/-- Taking over a document tells truly whether settings changed, and again tells of no change, if the depth that it chooses can be
chosen. In any case what differs is told as a change and stays when the document is taken over again; but then a depth that cannot
be chosen is told as a change once more, whatever the settings were. -/
theorem apply_truthful (settings : Settings) (document : Json) :
    (DepthFits document →
      ((settings.apply document).1 = true ↔ (settings.apply document).2 ≠ settings) ∧
        (settings.apply document).2.apply document = (false, (settings.apply document).2)) ∧
    ((settings.apply document).2 ≠ settings → (settings.apply document).1 = true) ∧
    ((settings.apply document).2.apply document).2 = (settings.apply document).2 ∧
    (settings.maxDepth ≤ depthLimit → ¬DepthFits document →
      (settings.apply document).2.apply document = (true, (settings.apply document).2)) := by
  have hstays := apply_stays settings document
  refine ⟨fun hfits => ⟨⟨apply_differs hfits, apply_told settings document⟩, ?_⟩, apply_told settings document, hstays, ?_⟩
  · have hagain : ((settings.apply document).2.apply document).1 = false := by
      rw [Bool.eq_false_iff]
      intro h
      exact apply_differs hfits h hstays
    exact Prod.ext hagain hstays
  · intro hsettings hfits
    exact Prod.ext (apply_again hsettings hfits) hstays

/-- A depth of five thousand million is kept as the greatest one, and told as a change again and again. -/
theorem not_apply_truthful_deep :
    let document : Json := .obj [("limits", .obj [("maxNestingDepth", .int 5000000000)])]
    let kept : Settings := { standard with maxDepth := depthLimit }
    standard.apply document = (true, kept) ∧ kept.apply document = (true, kept) := by
  decide +kernel

end Settings

end UnalignedPer
