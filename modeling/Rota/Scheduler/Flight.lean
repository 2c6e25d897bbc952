import Rota.Scheduler.Basic

/-!
# Runs in flight

The jobs that a loop hands over are launched as runs. A run begins, ends and is joined in three steps of its own, and
the steps of different runs come in any order. A backup gets to work only if its guard is free, and frees it when it
ends.
-/

namespace Rota.Scheduler

/-- Adds the jobs that were handed over to the runs in flight. -/
def launch (s : Scheduler) (xs : List Dispatch) : Scheduler :=
  xs.foldl (fun s x =>
    { s with runs := s.runs ++ [{ id := s.nextRun, detail := x.detail, fireTime := x.fireTime }]
             nextRun := s.nextRun + 1 }) s

def run? (s : Scheduler) (id : Nat) : Option Run := s.runs.find? (·.id == id)

def setStatus (s : Scheduler) (id : Nat) (status : RunStatus) : Scheduler :=
  { s with runs := s.runs.map fun r => if r.id = id then { r with status } else r }

/-- A run that waits begins: a backup only if its guard is free, otherwise the skip is counted; any other job at once.
-/
def beginRun (s : Scheduler) (id : Nat) : Scheduler :=
  match s.run? id with
  | some ⟨_, ⟨_, job⟩, _, .waiting⟩ =>
    match job with
    | .chore .. => s.setStatus id .inside
    | .backup b =>
      match (s.guard b).acquire? with
      | some g => { s with guards := s.guards.insert b g }.setStatus id .inside
      | none => (s.withMetrics (·.skip b.kind)).setStatus id .skipping
  | _ => s

/-- The backup that a waiting run gets to work on when it begins: the one of its job, if the guard is free. -/
def delegated? (s : Scheduler) (id : Nat) : Option Backup :=
  match s.run? id with
  | some ⟨_, ⟨_, .backup b⟩, _, .waiting⟩ => if (s.guard b).taken then none else some b
  | _ => none

/-- The call of a handler that a run makes when it begins at a clock reading. -/
def handlerCall? (s : Scheduler) (id : Nat) (now : Instant) : Option HandlerCall := (s.delegated? id).map (·.call now)

/-- Records the execution time of a run that returns. -/
def recordDuration (s : Scheduler) (took : Span) : Scheduler :=
  s.withMetrics fun m => { m with durations := m.durations.record took }

/-- Frees the guard of a backup. -/
def releaseGuard (s : Scheduler) : Job → Scheduler
  | .backup b => { s with guards := s.guards.insert b (s.guard b).release }
  | .chore .. => s

/-- A run that is at work ends: a backup frees its guard, also in a panic, and the execution time of a run that
returns is recorded. A run that skips its work returns. -/
def finishRun (s : Scheduler) (id : Nat) (panicked : Bool) (took : Span) : Scheduler :=
  match s.run? id with
  | some ⟨_, ⟨_, job⟩, _, .inside⟩ =>
    let s := s.releaseGuard job
    (if panicked then s else s.recordDuration took).setStatus id (.ended panicked)
  | some ⟨_, _, _, .skipping⟩ => (s.recordDuration took).setStatus id (.ended false)
  | _ => s

/-- A run that is over, if there is one: its number and whether it panicked. -/
def endedRun? (s : Scheduler) : Option (Nat × Bool) := s.runs.findSome? fun r => r.ended?.map fun p => (r.id, p)

/-- Takes a run that is over out of the runs in flight. -/
def join (s : Scheduler) (id : Nat) (panicked : Bool) : Scheduler :=
  { s with runs := s.runs.filter (·.id != id) }.withMetrics fun m =>
    { m with running := m.running - 1, panicked := if panicked then m.panicked + 1 else m.panicked }

end Rota.Scheduler
