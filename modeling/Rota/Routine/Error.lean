import Rota.Config.Plan
import Rota.Scheduler.Error

/-!
# Why routines cannot be scheduled
-/

namespace Rota

/-- The reasons a configuration is not scheduled. -/
inductive ScheduleError
  | invalidCron (fault : Plan.Fault)
  | scheduler (e : SchedulerError)
deriving DecidableEq

namespace ScheduleError

def message : ScheduleError → String
  | invalidCron f =>
    "Routine '" ++ f.routine ++ "' has an invalid " ++ f.kind.text ++ " backup cron expression: " ++ f.source.message
  | scheduler e => e.message

def source? : ScheduleError → Option TriggerError
  | invalidCron f => some f.source
  | scheduler e => e.source?

end ScheduleError

/-- The reasons an engine has no handler for a routine. -/
inductive HandlerError
  | missingBackend (routine : String)
  | unknownReference (routine sort name : String)
  | construction (routine reason : String)
deriving DecidableEq, Inhabited

def HandlerError.message : HandlerError → String
  | missingBackend routine => "No storage backend bound to routine '" ++ routine ++ "'"
  | unknownReference routine sort name =>
    "Routine '" ++ routine ++ "' references unknown " ++ sort ++ " '" ++ name ++ "'"
  | construction routine reason => "Failed to create handler for routine '" ++ routine ++ "': " ++ reason

end Rota
