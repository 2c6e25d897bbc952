import Rota.Job.Guard
import Rota.Scheduler.Dispatcher
import Rota.Scheduler.Run

/-!
# Schedulers

A scheduler is a handle to a dispatch loop. Commands wait in an inbox until the loop takes them; the jobs it hands
over run beside it until the loop joins them. This module holds the state and the operations of the handle. Each of
them is one atomic step, as are those on runs and the turns of the loop, so that any interleaving is a sequence of
such steps.

- a start succeeds exactly on an idle scheduler (`start_eq_error_iff`).
-/

namespace Rota

/-! ## State -/

/-- How far the dispatch loop of a scheduler has come. -/
inductive Phase
  | idle
  | running
  | draining
  | stopped
  /-- The loop broke down, and its jobs, its queue and the runs that had not begun went with it. The scheduler keeps
  what there was of them, but nothing may be read off it: no job is registered any more, and a run that still waits may
  begin or never do. -/
  | broken
deriving DecidableEq, Inhabited

/-- A scheduler, its dispatch loop and the runs in flight. -/
structure Scheduler where
  phase : Phase := .idle
  /-- Whether the handle holds the loop, so that it can be shut down. -/
  attached : Bool := false
  /-- Whether the loop was told to stop. -/
  cancelled : Bool := false
  /-- Whether the handle exists. -/
  connected : Bool := true
  /-- The commands that wait, by the tickets of their senders. -/
  inbox : List (Nat × Command) := []
  nextTicket : Nat := 0
  dispatcher : Dispatcher := {}
  /-- The guards of the backups that ran here; a guard that is not here is free. -/
  guards : Std.ExtTreeMap Backup Guard := ∅
  runs : List Run := []
  nextRun : Nat := 0

namespace Scheduler

instance : Inhabited Scheduler := ⟨{}⟩

/-- Whether the scheduler was ever started. -/
def isStarted (s : Scheduler) : Bool := s.phase != .idle

/-- Whether the handle holds a loop that is not over. -/
def isRunning (s : Scheduler) : Bool := s.attached && (s.phase == .running || s.phase == .draining)

def registry (s : Scheduler) : Registry := s.dispatcher.registry

def metrics (s : Scheduler) : Metrics := s.dispatcher.metrics

def withRegistry (s : Scheduler) (f : Registry → Registry) : Scheduler :=
  { s with dispatcher := { s.dispatcher with registry := f s.dispatcher.registry } }

def withMetrics (s : Scheduler) (f : Metrics → Metrics) : Scheduler :=
  { s with dispatcher := { s.dispatcher with metrics := f s.dispatcher.metrics } }

def guard (s : Scheduler) (b : Backup) : Guard := s.guards.getD b {}

/-! ## The handle -/

/-- Starts the dispatch loop, once. -/
def start (s : Scheduler) : Except SchedulerError Scheduler :=
  if s.phase = .idle then
    .ok { s with phase := .running, attached := true, dispatcher := s.dispatcher.noteRegistered }
  else .error .alreadyStarted

/-- A start is refused exactly if the scheduler was started before. -/
theorem start_eq_error_iff {s : Scheduler} {e : SchedulerError} :
    s.start = .error e ↔ s.phase ≠ .idle ∧ e = .alreadyStarted := by
  unfold start
  split <;> simp_all [eq_comm]

/-- Cancels the token that the loop listens to. -/
def cancel (s : Scheduler) : Scheduler := { s with cancelled := true }

def drop (s : Scheduler) : Scheduler := { s with connected := false, attached := false }

/-- Sends a command to a loop that takes commands. The ticket finds the answer. -/
def submit (s : Scheduler) (c : Command) : Except SchedulerError (Scheduler × Nat) :=
  match s.phase with
  | .idle => .error .notStarted
  | .running => .ok ({ s with inbox := s.inbox ++ [(s.nextTicket, c)], nextTicket := s.nextTicket + 1 }, s.nextTicket)
  | _ => .error .closed

/-- Begins a shutdown: the handle lets go of the loop and tells it to stop. -/
def beginShutdown (s : Scheduler) : Except ShutdownError Scheduler :=
  if s.attached then .ok { s with attached := false, cancelled := true } else .error .notRunning

/-- What a shutdown that waits for the loop returns, once the loop is over. -/
def shutdownResult? (s : Scheduler) : Option (Except ShutdownError Unit) :=
  match s.phase with
  | .stopped => some (.ok ())
  | .broken => some (.error .broken)
  | _ => none

end Scheduler

end Rota
