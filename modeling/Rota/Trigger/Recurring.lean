import Rota.Cron.Expression
import Rota.Cron.Occurrence
import Rota.Trigger.Error

/-!
# Recurring triggers

A recurring trigger keeps the expression it was made from and the schedule the expression denotes. Its next fire time
after an instant is the next occurrence of the schedule; the search starts one second after the instant, so within the
last second of the calendar there is nothing to search.
-/

namespace Rota

/-- A trigger that fires at every occurrence of a cron expression. -/
structure Recurring where
  expression : String
  schedule : Cron.Schedule
deriving DecidableEq

namespace Recurring

/-- The reason given for every malformed expression. -/
def malformed : String := "Invalid expression: Invalid cron expression."

/-- The trigger of an expression. -/
def parse (expression : String) : Except TriggerError Recurring :=
  match Cron.Schedule.ofExpression? expression with
  | some schedule => .ok ⟨expression, schedule⟩
  | none => .error (.invalidCron expression malformed)

/-- The next fire time after an instant. -/
def next (c : Recurring) (since : Instant) : NextFire :=
  if Instant.lastSecond ≤ since.second then .overrun
  else match c.schedule.after? since with
    | some t => .due t
    | none => .refused (.noNextFireTime c.expression)

/-- A list of fire times, each the next one after the one before, and how the list ends: at its length, or early with
an answer that is no fire time. -/
def fireTimes (c : Recurring) : Nat → Instant → List Instant × Option NextFire
  | 0, _ => ([], none)
  | n + 1, since =>
    match c.next since with
    | .due t =>
      let (ts, stop) := c.fireTimes n t
      (t :: ts, stop)
    | answer => ([], some answer)

end Recurring

/-- Decides whether a full backup is to be made at once: if there never was one, if the schedule does not say when the
backup after the last one was due, or if it was due before `now`. There is no decision if the last backup lies at the
end of the calendar. -/
def needsFullBackup? (last : Option Instant) (full : Recurring) (now : Instant) : Option Bool :=
  match last with
  | none => some true
  | some t =>
    match full.next t with
    | .due next => some (decide (next < now))
    | .refused _ => some true
    | .overrun => none

end Rota
