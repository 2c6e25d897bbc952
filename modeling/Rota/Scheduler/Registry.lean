import Rota.Job.Detail
import Rota.Trigger.Basic
import Std.Data.ExtTreeMap

/-!
# Registries

A registry keeps the recurring jobs of a scheduler by their keys, so that a backup out of turn can be derived from
them. Each derivation takes the next number of a sequence, which makes its key new.
-/

namespace Rota

/-- Jobs by key, and the number of the next derivation. -/
structure Registry where
  details : Std.ExtTreeMap Key Detail := ∅
  sequence : UInt64 := 0

namespace Registry

instance : Inhabited Registry := ⟨{}⟩

/-- Adds or replaces the job of a key. -/
def put (r : Registry) (key : Key) (d : Detail) : Registry := { r with details := r.details.insert key d }

def get? (r : Registry) (key : Key) : Option Detail := r.details[key]?

/-- Takes the job of a key out. -/
def remove (r : Registry) (key : Key) : Registry := { r with details := r.details.erase key }

/-- Takes all jobs out. The sequence goes on. -/
def clear (r : Registry) : Registry := { r with details := ∅ }

def keys (r : Registry) : List Key := r.details.keys

/-- The key of a backup of a routine out of turn, derived at an instant. -/
def adhocKey (routine : String) (now : Instant) (sequence : UInt64) : Key :=
  .full (routine ++ "-adhoc-" ++ toString now.millis ++ "-" ++ toString sequence.toNat)

/-- The full backup of a routine under a new key, to be made at once, if the routine has a full backup. -/
def deriveAdhoc (r : Registry) (routine : String) (now : Instant) : Registry × Option Detail :=
  match r.get? (.full routine) with
  | none => (r, none)
  | some d => ({ r with sequence := r.sequence + 1 }, some ⟨adhocKey routine now r.sequence, d.job⟩)

end Registry

end Rota
