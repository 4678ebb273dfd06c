/-!
# Running actions

What an action does to a state, step by step. The statements about readers and writers are proved by running their actions, and
these equations are all that is needed of the actions for that.
-/

namespace UnalignedPer

variable {ε σ α β : Type}

/-- One action after another: the second one starts where the first one ends, and is not reached from a failure. -/
theorem run_bind (action : EStateM ε σ α) (next : α → EStateM ε σ β) (s : σ) :
    (action >>= next) s =
      match action s with
      | .ok result s' => next result s'
      | .error fault s' => .error fault s' := rfl

/-- A function of the result leaves failures and states alone. -/
theorem run_map (f : α → β) (action : EStateM ε σ α) (s : σ) :
    (f <$> action) s =
      match action s with
      | .ok result s' => .ok (f result) s'
      | .error fault s' => .error fault s' := rfl

/-- A result alone changes nothing. -/
theorem run_pure (result : α) (s : σ) : (pure result : EStateM ε σ α) s = .ok result s := rfl

/-- The state is read and stays as it is. -/
theorem run_get (s : σ) : (get : EStateM ε σ σ) s = .ok s s := rfl

/-- The state is changed, and there is no result to speak of. -/
theorem run_modify (change : σ → σ) (s : σ) : (modify change : EStateM ε σ Unit) s = .ok () (change s) := rfl

/-- What an action gives, if it succeeds. -/
def resultOf (action : EStateM ε σ α) (s : σ) : Option α :=
  match action s with
  | .ok result _ => some result
  | .error .. => none

/-- What an action fails with, if it fails. -/
def faultOf (action : EStateM ε σ α) (s : σ) : Option ε :=
  match action s with
  | .ok .. => none
  | .error fault _ => some fault

/-- An action has a result exactly where it succeeds with it. -/
theorem resultOf_eq_some {action : EStateM ε σ α} {s : σ} {result : α} :
    resultOf action s = some result ↔ ∃ s', action s = .ok result s' := by
  unfold resultOf
  split
  · rename_i x s' h
    simp [h]
  · rename_i h
    simp [h]

/-- An action has a fault exactly where it fails with it. -/
theorem faultOf_eq_some {action : EStateM ε σ α} {s : σ} {fault : ε} :
    faultOf action s = some fault ↔ ∃ s', action s = .error fault s' := by
  unfold faultOf
  split
  · rename_i h
    simp [h]
  · rename_i x s' h
    simp [h]

end UnalignedPer
