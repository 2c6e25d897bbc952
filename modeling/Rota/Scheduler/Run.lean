import Rota.Job.Detail

/-!
# Runs

A run is one execution of a job that was handed over. It waits until it begins, is at work or skips its work, and is
over when it ends; then it can be joined.
-/

namespace Rota

/-- How far a run has come. -/
inductive RunStatus
  /-- It is handed over and has not begun. -/
  | waiting
  /-- It is at work. -/
  | inside
  /-- It is a backup that found another run of it in progress, and does nothing. -/
  | skipping
  /-- It is over and not yet joined. -/
  | ended (panicked : Bool)
deriving DecidableEq

/-- A job in flight. -/
structure Run where
  id : Nat
  detail : Detail
  fireTime : Instant
  status : RunStatus := .waiting
deriving DecidableEq

namespace Run

/-- Whether a run is over, and if so whether it panicked. -/
def ended? (r : Run) : Option Bool :=
  match r.status with
  | .ended panicked => some panicked
  | _ => none

theorem ended?_eq_some_iff {r : Run} {panicked : Bool} : r.ended? = some panicked ↔ r.status = .ended panicked := by
  obtain ⟨_, _, _, s⟩ := r
  cases s <;> simp [ended?]

end Run

end Rota
