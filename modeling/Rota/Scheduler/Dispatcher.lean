import Rota.Metrics.Basic
import Rota.Scheduler.Error
import Rota.Scheduler.Registry

/-!
# The dispatcher

The dispatcher keeps the registered jobs with their triggers and, beside them, a queue of the pending fire times. It
carries out commands one at a time, and in a timer pass it hands every due job over to run and asks its trigger for
the next fire time. A trigger that is asked beyond the end of the calendar breaks the dispatcher down; `none` stands
for that.
-/

namespace Rota

/-- A registered job, its trigger and the fire time that is pending. -/
structure Registration where
  detail : Detail
  trigger : Trigger
  due : Instant
deriving DecidableEq

/-- A job handed over to run, and the fire time it was due at. -/
structure Dispatch where
  detail : Detail
  fireTime : Instant
deriving DecidableEq

/-- The stores of a dispatcher. -/
structure Dispatcher where
  jobs : Std.ExtTreeMap Key Registration := ∅
  /-- The pending fire time of each key. -/
  queue : Std.ExtTreeMap Key Instant := ∅
  registry : Registry := {}
  metrics : Metrics := {}

/-! ## Commands -/

/-- What can be asked of a dispatcher. -/
inductive Command
  | schedule (detail : Detail) (trigger : Trigger)
  | delete (key : Key)
  | clear
  | keys
  | info (key : Key)
deriving DecidableEq

/-- What a dispatcher answers to a command it carries out. -/
inductive Answer
  | done
  | keys (ks : List Key)
  | info (i : JobInfo)
deriving DecidableEq

namespace Dispatcher

instance : Inhabited Dispatcher := ⟨{}⟩

/-- The information on a registered job. -/
def jobInfo (key : Key) (r : Registration) : JobInfo := ⟨key, r.detail.job.text, r.trigger.text, .ofInstant r.due⟩

/-- Registers a job under a key that is free, at the first fire time of its trigger. -/
def schedule (d : Dispatcher) (now : Instant) (detail : Detail) (trigger : Trigger) :
    Option (Dispatcher × Except SchedulerError Answer) :=
  if detail.key ∈ d.jobs then some (d, .error (.jobAlreadyExists detail.key))
  else match trigger.next now with
    | (trigger, .due due) =>
      some ({ d with
        jobs := d.jobs.insert detail.key ⟨detail, trigger, due⟩
        queue := d.queue.insert detail.key due
        metrics := { d.metrics with scheduled := d.metrics.scheduled + 1 } }, .ok .done)
    | (_, .refused e) => some (d, .error (.invalidTrigger detail.key e))
    | (_, .overrun) => none

/-- Removes a registered job from all stores. -/
def delete (d : Dispatcher) (key : Key) : Dispatcher × Except SchedulerError Answer :=
  if key ∈ d.jobs then
    ({ d with jobs := d.jobs.erase key, queue := d.queue.erase key, registry := d.registry.remove key }, .ok .done)
  else (d, .error (.jobNotFound key))

/-- Empties all stores. -/
def clear (d : Dispatcher) : Dispatcher :=
  { jobs := ∅, queue := ∅, registry := d.registry.clear,
    metrics := { d.metrics with clears := d.metrics.clears + 1 } }

/-- Carries out a command at a clock reading. -/
def handle (d : Dispatcher) (now : Instant) : Command → Option (Dispatcher × Except SchedulerError Answer)
  | .schedule detail trigger => d.schedule now detail trigger
  | .delete key => some (d.delete key)
  | .clear => some (d.clear, .ok .done)
  | .keys => some (d, .ok (.keys d.jobs.keys))
  | .info key =>
    some (d, match d.jobs[key]? with
      | some r => .ok (.info (jobInfo key r))
      | none => .error (.jobNotFound key))

/-! ## Timer passes -/

/-- The entry that is due sooner; of two that are due together the first. -/
def sooner (a b : Key × Instant) : Key × Instant := if b.2 < a.2 then b else a

/-- The entry of the queue that is due first. -/
def earliest? (d : Dispatcher) : Option (Key × Instant) :=
  match d.queue.toList with
  | [] => none
  | e :: es => some (es.foldl sooner e)

def countFired (m : Metrics) : Metrics := { m with fired := m.fired + 1, running := m.running + 1 }

/-- A dispatcher after a timer pass, the jobs it handed over in their order, and whether it broke down. -/
structure Pass where
  dispatcher : Dispatcher
  fired : List Dispatch := []
  broken : Bool := false

/-- Puts a job that was handed over in front of the others. -/
def Pass.after (x : Dispatch) (p : Pass) : Pass := { p with fired := x :: p.fired }

/-- The part of a timer pass that handles at most the given number of entries. Each entry is taken off the queue; its
job is handed over and goes back to the queue with the next fire time of its trigger, or is removed if there is none.
An entry without a job is dropped. -/
def passFor (now : Instant) : Nat → Dispatcher → Pass
  | 0, d => { dispatcher := d }
  | n + 1, d =>
    match d.earliest? with
    | none => { dispatcher := d }
    | some (key, due) =>
      if now < due then { dispatcher := d }
      else
        let popped := { d with queue := d.queue.erase key }
        match d.jobs[key]? with
        | none => passFor now n popped
        | some r =>
          match r.trigger.next now with
          | (trigger, .due next) =>
            (passFor now n { popped with
              jobs := d.jobs.insert key ⟨r.detail, trigger, next⟩
              queue := popped.queue.insert key next
              metrics := countFired d.metrics }).after ⟨r.detail, due⟩
          | (_, .refused _) =>
            (passFor now n { popped with
              jobs := d.jobs.erase key
              metrics := countFired d.metrics }).after ⟨r.detail, due⟩
          | (_, .overrun) => { dispatcher := popped, broken := true }

/-- A timer pass at a clock reading. No entry is handled twice, as a trigger fires later than the reading. -/
def pass (d : Dispatcher) (now : Instant) : Pass := passFor now d.queue.size d

/-- Notes the number of registered jobs. -/
def noteRegistered (d : Dispatcher) : Dispatcher :=
  { d with metrics := { d.metrics with registered := UInt64.ofNat d.jobs.size } }

end Dispatcher

end Rota
