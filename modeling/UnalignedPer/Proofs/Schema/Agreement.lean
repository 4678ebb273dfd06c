import UnalignedPer.Proofs.Schema.Spelling
import UnalignedPer.Schema.Parser

/-!
# Loading agrees with the spelling

Loading a schema goes through its nodes in an order, keeps the types that were read and reports what is wrong; `Spelling.type?`
does nothing of that. `Loading.Agrees` says that an action and a reading without a state come to the same: the action reports
an error or gives what is read, and where something is read it reports none.

While nothing went wrong, each type that was kept is the one of its definition, and its chains of references are no longer than
the number of types kept (`Loading.Ready`). The names under way have no types yet, so that what is read without them is read
by the action as well.
-/

namespace UnalignedPer

namespace Loading

open Spelling (Refs named?)

variable {α β : Type} {types : List (String × Json)} {active : List String}

/-- The number of errors reported. -/
def errors (l : Loading) : Nat :=
  Diagnostic.errorCount l.diagnostics

/-- The names of the types that were read. -/
def names (l : Loading) : List String :=
  l.resolved.map (·.1)

/-- Nothing went wrong so far, and some names are under way. -/
structure Ready (types : List (String × Json)) (active : List String) (l : Loading) : Prop where
  /-- No error was reported. -/
  errors_eq : l.errors = 0
  /-- No type failed. -/
  failed_eq : l.failed = []
  /-- The names under way. -/
  active_eq : l.active = active
  /-- Names that were read are not under way, and no name is either twice. -/
  nodup : (l.names ++ active).Nodup
  /-- All of them have a definition. -/
  defined : l.names ++ active ⊆ types.map (·.1)
  /-- What was read is the type of the definition. -/
  named : ∀ name type, (name, type) ∈ l.resolved → named? types l.resolved.length name = some type

/-- The types as far as they were read. -/
abbrev known (types : List (String × Json)) (l : Loading) : Refs :=
  named? types l.resolved.length

/-- An action and a reading without a state come to the same. -/
structure Agrees (types : List (String × Json)) (active : List String) (m : LoadM α) (reading : Refs → Option α) :
    Prop where
  /-- Errors are not taken back. -/
  errors_le : ∀ {l x l'}, m l = (x, l') → l.errors ≤ l'.errors
  /-- Where no error is reported, the result is what is read. -/
  silent : ∀ {l x l'}, Ready types active l → m l = (x, l') → l'.errors = 0 →
    Ready types active l' ∧ l.resolved.length ≤ l'.resolved.length ∧ reading (known types l') = some x
  /-- Where something is read without the names under way, no error is reported. -/
  sound : ∀ {l x l'}, Ready types active l → m l = (x, l') → ∀ bound, (∀ name ∈ active, named? types bound name = none) →
    (reading (named? types bound)).isSome = true → l'.errors = 0
  /-- What is read stays the same where more references stand for types. -/
  mono : ∀ {refs refs' : Refs}, refs'.Extends refs → ∀ x, reading refs = some x → reading refs' = some x

/-! ## How the statements chain -/

/-- Two actions in a row come to something by way of what the first one comes to. -/
theorem run_bind_eq {m : LoadM α} {f : α → LoadM β} {l : Loading} {y : β} {l'' : Loading}
    (h : (m >>= f) l = (y, l'')) : ∃ x l', m l = (x, l') ∧ f x l' = (y, l'') :=
  ⟨_, _, rfl, h⟩

/-- A reading may be put in other words. -/
theorem Agrees.congr {m : LoadM α} {reading reading' : Refs → Option α} (h : Agrees types active m reading)
    (heq : ∀ refs, reading' refs = reading refs) : Agrees types active m reading' :=
  (funext heq : reading' = reading) ▸ h

/-- A result alone is what is read. -/
theorem agrees_pure (x : α) : Agrees types active (pure x) fun _ => some x where
  errors_le h := by
    cases h
    exact Nat.le_refl _
  silent hl h _ := by
    cases h
    exact ⟨hl, Nat.le_refl _, rfl⟩
  sound hl h _ _ _ := by
    cases h
    exact hl.errors_eq
  mono _ _ h := h

/-- What was read before is read again. -/
theorem Agrees.eq_of_silent {m : LoadM α} {reading : Refs → Option α} (h : Agrees types active m reading) {l l' : Loading}
    {x y : α} (hl : Ready types active l) (hm : m l = (x, l')) (herr : l'.errors = 0) {bound : Nat}
    (hy : reading (named? types bound) = some y) : x = y := by
  obtain ⟨-, -, hx⟩ := h.silent hl hm herr
  have hx' := h.mono (Spelling.named?_mono (Nat.le_max_left _ bound)) _ hx
  have hy' := h.mono (Spelling.named?_mono (Nat.le_max_right l'.resolved.length bound)) _ hy
  exact Option.some.inj (hx'.symm.trans hy')

/-- Actions that agree with readings agree with them in a row. -/
theorem Agrees.bind {m : LoadM α} {f : α → LoadM β} {r : Refs → Option α} {s : α → Refs → Option β}
    (h : Agrees types active m r) (h' : ∀ x, Agrees types active (f x) (s x)) :
    Agrees types active (m >>= f) fun refs => (r refs).bind fun x => s x refs where
  errors_le hm := by
    obtain ⟨x, l', hx, hf⟩ := run_bind_eq hm
    exact Nat.le_trans (h.errors_le hx) ((h' x).errors_le hf)
  silent hl hm herr := by
    obtain ⟨x, l', hx, hf⟩ := run_bind_eq hm
    have herr' : l'.errors = 0 := Nat.le_zero.mp (herr ▸ (h' x).errors_le hf)
    obtain ⟨hl', hle, hread⟩ := h.silent hl hx herr'
    obtain ⟨hl'', hle', hnext⟩ := (h' x).silent hl' hf herr
    refine ⟨hl'', Nat.le_trans hle hle', Option.bind_eq_some_iff.mpr ⟨x, ?_, hnext⟩⟩
    exact h.mono (Spelling.named?_mono hle') x hread
  sound hl hm bound hactive hsome := by
    obtain ⟨x, l', hx, hf⟩ := run_bind_eq hm
    obtain ⟨y, hread⟩ := Option.isSome_iff_exists.mp hsome
    obtain ⟨x', hx', hnext⟩ := Option.bind_eq_some_iff.mp hread
    have herr' := h.sound hl hx bound hactive (Option.isSome_iff_exists.mpr ⟨_, hx'⟩)
    obtain rfl := h.eq_of_silent hl hx herr' hx'
    exact (h' x).sound (h.silent hl hx herr').1 hf bound hactive (Option.isSome_iff_exists.mpr ⟨_, hnext⟩)
  mono hrefs y hy := by
    obtain ⟨x, hx, hnext⟩ := Option.bind_eq_some_iff.mp hy
    exact Option.bind_eq_some_iff.mpr ⟨x, h.mono hrefs x hx, (h' x).mono hrefs y hnext⟩

/-- What follows a reading that gives nothing does not matter: an error was reported. -/
theorem Agrees.bind_some {m : LoadM (Option α)} {f : Option α → LoadM β} {r : Refs → Option α}
    {s : α → Refs → Option β} {t : Refs → Option β}
    (h : Agrees types active m fun refs => (r refs).map some) (h' : ∀ x, Agrees types active (f (some x)) (s x))
    (hnone : Agrees types active (f none) t) :
    Agrees types active (m >>= f) fun refs => (r refs).bind fun x => s x refs := by
  refine (h.bind (s := fun found refs => match found with
    | some x => s x refs
    | none => t refs) fun found => ?_).congr fun refs => ?_
  · cases found with
    | none => exact hnone
    | some x => exact h' x
  · cases r refs <;> rfl

/-- A function of the result is the same function of what is read. -/
theorem Agrees.map {m : LoadM α} {reading : Refs → Option α} (h : Agrees types active m reading) (f : α → β) :
    Agrees types active (f <$> m) fun refs => (reading refs).map f :=
  (h.bind fun x => agrees_pure (f x)).congr fun refs => by cases reading refs <;> rfl

/-- An action that only looks for what is to be passed over may come first. -/
theorem Agrees.after {m : LoadM Unit} {m' : LoadM α} {reading : Refs → Option α} (h : Agrees types active m' reading)
    (hm : Agrees types active m fun _ => some ()) : Agrees types active (m >>= fun _ => m') reading :=
  hm.bind fun _ => h

/-- A choice between actions that agree, each under its condition, agrees with the choice between the readings. -/
theorem agrees_ite {c : Prop} [Decidable c] {m m' : LoadM α} {reading reading' : Refs → Option α}
    (h : c → Agrees types active m reading) (h' : ¬c → Agrees types active m' reading') :
    Agrees types active (if c then m else m') fun refs => if c then reading refs else reading' refs := by
  by_cases hc : c
  · simp only [if_pos hc]
    exact h hc
  · simp only [if_neg hc]
    exact h' hc

/-- A report counts if it is an error. -/
theorem errors_report {severity : Severity} {location : Location} {text : String} {l : Loading} {x : Unit} {l' : Loading}
    (h : report severity location text l = (x, l')) : l'.errors = l.errors + if severity = .error then 1 else 0 := by
  cases h
  show Diagnostic.errorCount (l.diagnostics.push _) = _
  rw [Diagnostic.errorCount, Array.toList_push, List.countP_append, List.countP_singleton]
  simp only [decide_eq_true_eq]
  rfl

/-- A warning is no error, and nothing is read. -/
theorem agrees_warning (location : Location) (text : String) :
    Agrees types active (warning location text) fun _ => some () where
  errors_le h := errors_report h ▸ Nat.le_add_right ..
  silent hl h herr := by
    cases h
    exact ⟨⟨herr, hl.failed_eq, hl.active_eq, hl.nodup, hl.defined, hl.named⟩, Nat.le_refl _, rfl⟩
  sound hl h _ _ _ := (errors_report h).trans hl.errors_eq
  mono _ _ h := h

/-- Nothing is read where an error is reported. -/
theorem agrees_error (location : Location) (text : String) : Agrees types active (error location text) fun _ => none where
  errors_le h := errors_report h ▸ Nat.le_add_right ..
  silent _ h herr := absurd (errors_report h ▸ herr) (Nat.succ_ne_zero _)
  sound _ _ _ _ h := absurd h Bool.false_ne_true
  mono _ _ h := by cases h

/-- A refusal is an error, and nothing can be read. -/
theorem agrees_refuse (location : Location) (text : String) :
    Agrees types active (refuse location text : LoadM (Option α)) fun _ => none :=
  (agrees_error location text).bind fun _ => agrees_pure none

/-- Nothing is read where an error is reported first. -/
theorem Agrees.after_error {m : LoadM α} {reading : Refs → Option α} (h : Agrees types active m reading) (location : Location)
    (text : String) : Agrees types active (do error location text; m) fun _ => none :=
  (agrees_error location text).bind fun _ => h

end Loading

end UnalignedPer
