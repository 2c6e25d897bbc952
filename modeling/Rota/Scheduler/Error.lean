import Rota.Job.Key
import Rota.Trigger.Error

/-!
# Why a scheduler refuses a request
-/

namespace Rota

/-- The reasons a scheduler does not carry out a command. -/
inductive SchedulerError
  | notStarted
  | alreadyStarted
  | closed
  | unanswered
  | jobAlreadyExists (key : Key)
  | jobNotFound (key : Key)
  | invalidTrigger (key : Key) (source : TriggerError)
deriving DecidableEq, Inhabited

namespace SchedulerError

def message : SchedulerError → String
  | notStarted => "Scheduler has not been started."
  | alreadyStarted => "Scheduler has already been started."
  | closed => "Scheduler command channel is closed (dispatch loop stopped or panicked)."
  | unanswered => "Scheduler did not respond to the command (dispatch loop may have stopped)."
  | jobAlreadyExists key => "Job " ++ key.text ++ " is already scheduled."
  | jobNotFound key => "Job " ++ key.text ++ " not found."
  | invalidTrigger key source => "Cannot schedule job " ++ key.text ++ ": " ++ source.message

def source? : SchedulerError → Option TriggerError
  | invalidTrigger _ source => some source
  | _ => none

end SchedulerError

/-- The reasons a shutdown does not succeed. -/
inductive ShutdownError
  | notRunning
  | timeout
  | broken
deriving DecidableEq, Inhabited

def ShutdownError.message : ShutdownError → String
  | notRunning => "Scheduler was never started or has already been shut down."
  | timeout => "Timed out waiting for the dispatch loop and in-flight jobs to complete."
  | broken => "The dispatch loop panicked during shutdown."

end Rota
