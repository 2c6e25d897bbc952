import Rota.Config.Basic
import Rota.Job.Key
import Rota.Trigger.Recurring

/-!
# Schedule plans

A plan holds the triggers of every routine of a configuration, in the order of the routines' names. Building it reads
all expressions, so it fails at the first malformed one before anything is scheduled.
-/

namespace Rota

/-- The triggers of one routine. -/
structure Plan.Entry where
  name : String
  full : Recurring
  incremental : Option Recurring
deriving DecidableEq

/-- The triggers of every routine, in the order of the names. -/
structure Plan where
  entries : List Plan.Entry
deriving DecidableEq

/-- A malformed expression of a routine. -/
structure Plan.Fault where
  routine : String
  kind : Kind
  source : TriggerError
deriving DecidableEq

namespace Plan

/-- The trigger of an expression of a routine. -/
def read (routine : String) (kind : Kind) (expression : String) : Except Fault Recurring :=
  (Recurring.parse expression).mapError fun source => ⟨routine, kind, source⟩

/-- The triggers of one routine; its full expression is read first. -/
def entry (name : String) (r : Routine) : Except Fault Entry := do
  let full ← read name .full r.fullCron
  match r.incremental? with
  | none => .ok ⟨name, full, none⟩
  | some e => do
    let incremental ← read name .incremental e
    .ok ⟨name, full, some incremental⟩

/-- The plan of a configuration. -/
def build (c : Config) : Except Fault Plan :=
  (c.routines.toList.mapM fun (name, r) => entry name r).map fun es => ⟨es⟩

def names (p : Plan) : List String := p.entries.map Entry.name

end Plan

end Rota
