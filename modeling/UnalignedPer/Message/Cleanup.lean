/-!
# Leaving the state in order

An action may fail at any point and leaves its state as it was at the failure. What has to be put back in either case is put
back by `afterwards`.
-/

namespace UnalignedPer

/-- Runs an action and then changes the state, whether or not the action failed. -/
def afterwards {ε σ α : Type} (change : σ → σ) (action : EStateM ε σ α) : EStateM ε σ α := fun s =>
  match action s with
  | .ok result s => .ok result (change s)
  | .error fault s => .error fault (change s)

end UnalignedPer
