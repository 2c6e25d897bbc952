import Rota.Job.Detail
import Rota.Text.Quoted
import Rota.Trigger.Basic

/-!
# Values as text for inspection

The text names the type of a value and its parts: `JobKey`, for instance, with a quoted name and a group.
-/

namespace Rota

/-- A type name and named parts between braces. -/
def inspectRecord (type : String) (parts : List (String × String)) : String :=
  type ++ " \x7b " ++ ", ".intercalate (parts.map fun (n, v) => n ++ ": " ++ v) ++ " \x7d"

/-- A kind by its name. -/
def Kind.inspect : Kind → String
  | full => "Full"
  | incremental => "Incremental"

/-- A key with its name and group. -/
def Key.inspect (k : Key) : String :=
  inspectRecord "JobKey" [("name", Text.quoted k.name),
    ("group", match k.kind with | none => "None" | some g => "Some(" ++ g.inspect ++ ")")]

/-- A trigger with its expression, or with its delay and how far it has come. -/
def Trigger.inspect : Trigger → String
  | recurring c => inspectRecord "CronTrigger" [("expression", Text.quoted c.expression)]
  | once o =>
    inspectRecord "RunOnceTrigger" [("delay", o.delay.text), ("state", match o.progress with
      | .unscheduled => "Unscheduled"
      | .pending => "Pending"
      | .expired => "Expired")]

/-- A job under a key, the job by its label. -/
def Detail.inspect (d : Detail) : String := inspectRecord "JobDetail" [("key", d.key.inspect), ("job", d.job.text)]

/-- A backup with its routine, its kind and whether it is in progress. -/
def Backup.inspect (b : Backup) (running : Bool) : String :=
  inspectRecord "BackupJob" [("routine", Text.quoted b.routine), ("group", b.kind.inspect),
    ("running", if running then "true" else "false")]

end Rota
