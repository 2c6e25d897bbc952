import Rota.Trigger.Recurring

/-!
# Triggers

A trigger is recurring, or fires once after a delay. A run-once trigger hands out its fire time the first time it is
asked and is spent the second time; a delay that leads out of the calendar leaves it as it was.
-/

namespace Rota

/-! ## Run-once triggers -/

/-- How far a run-once trigger has come. -/
inductive Progress
  /-- No fire time is handed out yet. -/
  | unscheduled
  /-- The fire time is handed out, the firing is ahead. -/
  | pending
  /-- The firing is spent. -/
  | expired
deriving DecidableEq, Inhabited

/-- A trigger that fires once, a delay after the instant at which it is scheduled. -/
structure RunOnce where
  delay : Span
  progress : Progress := .unscheduled
deriving DecidableEq, Inhabited

namespace RunOnce

/-- The instant a delay after another, if the delay is one a calendar can have and the instant lies in the calendar.
-/
def target? (delay : Span) (since : Instant) : Option Instant :=
  if delay.nanos ≤ Span.longestDelay.nanos ∧ since + delay ≤ Instant.latest then some (since + delay) else none

/-- The trigger and its answer when it is asked for its fire time. -/
def next (o : RunOnce) (since : Instant) : RunOnce × NextFire :=
  match o.progress with
  | .unscheduled =>
    match target? o.delay since with
    | some t => ({ o with progress := .pending }, .due t)
    | none => (o, .refused (.invalidDelay o.delay))
  | .pending => ({ o with progress := .expired }, .refused .expired)
  | .expired => (o, .refused .expired)

end RunOnce

/-! ## Triggers -/

/-- What makes a job fire. -/
inductive Trigger
  | recurring (c : Recurring)
  | once (o : RunOnce)
deriving DecidableEq

namespace Trigger

/-- A trigger that fires once after a delay. -/
def after (delay : Span) : Trigger := .once { delay }

def immediate : Trigger := after Span.zero

/-- The trigger and its answer when it is asked for the next fire time after an instant. -/
def next (since : Instant) : Trigger → Trigger × NextFire
  | recurring c => (recurring c, c.next since)
  | once o => let (o, answer) := o.next since; (once o, answer)

def text : Trigger → String
  | recurring c => "CronTrigger::" ++ c.expression
  | once o =>
    "RunOnceTrigger::" ++ toString o.delay.millis ++ "ms::" ++
      match o.progress with
      | .unscheduled => "valid"
      | .pending => "pending"
      | .expired => "expired"

end Trigger

end Rota
