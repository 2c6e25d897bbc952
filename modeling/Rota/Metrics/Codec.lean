import Rota.Config.Codec
import Rota.Metrics.Basic

/-!
# Metrics as JSON

All ten values have to be given.
-/

namespace Rota.Metrics

def fields : List String :=
  ["jobs_scheduled", "jobs_fired", "jobs_panicked", "schedule_clears", "backups_skipped_full",
    "backups_skipped_incremental", "jobs_registered_current", "jobs_running_current", "job_execution_duration_count",
    "job_execution_duration_sum_micros"]

/-- The values in the order of their names. -/
def values (m : Metrics) : List UInt64 :=
  [m.scheduled, m.fired, m.panicked, m.clears, m.skippedFull, m.skippedIncremental, m.registered, m.running,
    m.durations.count, m.durations.sum]

def ofJson? (v : Json) : Option Metrics := do
  match ← (← Json.fields? true fields v).mapM fun f => f.bind Json.asWord64? with
  | [scheduled, fired, panicked, clears, skippedFull, skippedIncremental, registered, running, count, sum] =>
    some { scheduled, fired, panicked, clears, skippedFull, skippedIncremental, registered, running,
           durations := { count, sum } }
  | _ => none

def toJson (m : Metrics) : Json := Json.ofMembers (fields.zip (m.values.map fun n => Json.nat n.toNat))

def ofText? (s : String) : Option Metrics := (Json.parse s).bind ofJson?

def text (m : Metrics) : String := m.toJson.render

end Rota.Metrics
