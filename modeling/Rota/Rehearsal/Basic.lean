import Rota.Routine.Client

/-!
# Rehearsals

A rehearsal runs a scheduler on a clock that stands still except where it is set. Between two steps the loop and the
runs go on until nothing that is due at the clock is left to do (`goOn`). Runs either follow each other and never
overlap, or all runs that are due together begin before any of them ends; in the second case the rehearsal can also
hold backups, so that they stay at work until they are released.

The engine of a rehearsal binds to every routine the number of the binding, and looks up in tables when the last full
backup of a routine was made, whether its handler is refused and whether its backups panic.
-/

namespace Rota

/-! ## The engine -/

/-- Why the handler of a routine is refused. -/
inductive RefusalRule
  /-- It is always refused. -/
  | always
  /-- It needs a backend. -/
  | backend
  /-- It needs the policy that the routine names. -/
  | policy
deriving DecidableEq

/-- What a rehearsal knows of routines. -/
structure Cast where
  last : Std.ExtTreeMap String Instant := ∅
  refusals : Std.ExtTreeMap String RefusalRule := ∅
  /-- The routines whose backups panic. -/
  panics : List String := []

namespace Cast

/-- Whether the handler of a routine is refused under a rule. -/
def refusal? (c : Config) (routine : String) (backend : Option Nat) : RefusalRule → Option HandlerError
  | .always => some (.construction routine "forced failure")
  | .backend => if backend.isNone then some (.missingBackend routine) else none
  | .policy =>
    let policy := ((c.routine? routine).map Routine.policy).getD ""
    if policy ∈ c.policies then none else some (.unknownReference routine "policy" policy)

/-- The engine that follows the tables. -/
def engine (t : Cast) : Engine Nat where
  bind n c := c.routines.map fun _ _ => n + 1
  handler c routine backend :=
    match (t.refusals[routine]?).bind (refusal? c routine backend) with
    | some e => .error e
    | none => .ok ⟨routine, t.last[routine]?⟩

end Cast

/-! ## State -/

/-- Something that happened to a job: a backup was begun, or another job with the fire time it was due at. -/
inductive Occasion
  | backup (time : Instant) (kind : Kind) (routine : String)
  | chore (time : Instant) (key : Key) (due : Instant)
deriving DecidableEq

namespace Occasion

def time : Occasion → Instant
  | backup t _ _ => t
  | chore t _ _ => t

def word : Occasion → String
  | backup _ k _ => k.text
  | chore .. => "job"

/-- The routine of a backup, the key of another job. -/
def name : Occasion → String
  | backup _ _ r => r
  | chore _ k _ => k.text

/-- The fire time of a job that is no backup. -/
def due : Occasion → Instant
  | backup t _ _ => t
  | chore _ _ d => d

/-- Earlier occasions first, then by word, name and fire time. -/
def le (a b : Occasion) : Bool :=
  compareLex (compareOn fun o => o.time.nanos) (compareLex (compareOn word) (compareLex (compareOn name)
    (compareOn fun o => o.due.nanos))) a b != .gt

end Occasion

/-- A scheduler under rehearsal. -/
structure Rehearsal where
  world : World Nat := {}
  now : Instant
  /-- Whether runs that are due together overlap. -/
  overlap : Bool := false
  /-- Whether backups stay at work until they are released. -/
  holding : Bool := false
  /-- Whether the token that schedulers are started with is cancelled. -/
  cancelled : Bool := false
  catchUpDelay : Span := Span.zero
  cast : Cast := {}
  /-- What happened since the last step began. -/
  occasions : List Occasion := []
  /-- The backups at work that belong to schedulers given up. -/
  leftBehind : Nat := 0

namespace Rehearsal

def scheduler (r : Rehearsal) : Scheduler := r.world.scheduler

def withScheduler (r : Rehearsal) (f : Scheduler → Scheduler) : Rehearsal :=
  { r with world := { r.world with scheduler := f r.world.scheduler } }

def atWork (r : Rehearsal) : List Run := r.scheduler.runs.filter (·.status == .inside)

/-- Whether backups are being held. -/
def isHolding (r : Rehearsal) : Bool := !r.atWork.isEmpty || 0 < r.leftBehind

/-! ## Settling -/

/-- What is to be noted of a run that waits, once it begins: a call of a handler, or another job. -/
def occasion? (r : Rehearsal) (x : Run) : Option Occasion :=
  match x.detail.job with
  | .backup b => (r.scheduler.handlerCall? x.id r.now).map fun c => .backup c.time c.kind b.routine
  | .chore .. => some (.chore r.now x.detail.key x.fireTime)

/-- Lets a run that waits begin. -/
def begin (r : Rehearsal) (x : Run) : Rehearsal :=
  { r.withScheduler (·.beginRun x.id) with occasions := r.occasions ++ (r.occasion? x).toList }

/-- Whether a job ends in a panic. -/
def panics (r : Rehearsal) : Job → Bool
  | .backup b => r.cast.panics.contains b.routine
  | .chore _ panics => panics

def finish (r : Rehearsal) (x : Run) : Rehearsal :=
  r.withScheduler (·.finishRun x.id (r.panics x.detail.job) Span.zero)

/-- Whether a run is held: backups that are at work are, while backups are being held. -/
def holds (r : Rehearsal) (x : Run) : Bool :=
  r.overlap && r.holding && match x.detail.job, (r.scheduler.run? x.id).map Run.status with
    | .backup _, some .inside => true
    | _, _ => false

/-- Lets the runs that wait begin and those that are not held end. -/
def runAll (r : Rehearsal) : Rehearsal :=
  let waiting := r.scheduler.runs.filter (·.status == .waiting)
  if r.overlap then
    let r := waiting.foldl begin r
    waiting.foldl (fun r x => if r.holds x then r else r.finish x) r
  else waiting.foldl (fun r x => (r.begin x).finish x) r

/-- Lets the loop turn a number of times. -/
def turns (r : Rehearsal) : Nat → Rehearsal
  | 0 => r
  | n + 1 => (r.withScheduler fun s => (s.turn r.now).1).turns n

/-- Lets the loop and the runs go on until nothing that is due is left to do: at most one turn for each run that is
over, one that stops taking commands or fires what is due, and one that ends the loop. -/
def goOn (r : Rehearsal) : Rehearsal :=
  let r := (r.turns (r.scheduler.runs.length + 2)).runAll
  r.turns (r.scheduler.runs.length + 2)

/-- Whether the loop was told to stop before it took note of anything else. -/
def isUnaware (r : Rehearsal) : Bool := r.scheduler.phase == .running && r.scheduler.cancelled

/-- Lets the loop and the runs go on, except a loop that was started with a cancelled token: it takes note of that
when it is given its first command. -/
def settle (r : Rehearsal) : Rehearsal := if r.isUnaware then r else r.goOn

/-! ## The clock -/

/-- The earliest fire time, if the loop takes note of it. -/
def nextDue? (r : Rehearsal) : Option Instant :=
  if r.scheduler.phase = .running then r.scheduler.dispatcher.earliest?.map Prod.snd else none

/-- Moves the clock from fire time to fire time, at most a number of times, up to a reading. -/
def advanceFor (target : Instant) : Nat → Rehearsal → Rehearsal
  | 0, r => { r with now := target }.settle
  | n + 1, r =>
    match r.nextDue? with
    | some t => if t ≤ target then advanceFor target n { r with now := t }.settle else { r with now := target }.settle
    | none => { r with now := target }.settle

/-- Moves the clock up to a reading and stops at every fire time on the way. Each stop ends a second or uses up a
run-once trigger. -/
def advance (r : Rehearsal) (target : Instant) : Rehearsal :=
  advanceFor target ((target.second - r.now.second).toNat + r.scheduler.dispatcher.queue.size + 1) r

end Rehearsal

end Rota
