import Rota.Rehearsal.Basic

/-!
# Steps of a rehearsal

A step calls the scheduler or its clients, changes the clock, or changes what the rehearsal knows of routines. Its
result is a value or the reason it was refused, or it breaks down at the end of the calendar.
-/

namespace Rota

/-! ## Steps and results -/

/-- The source of a trigger: an expression, or the delay of a run-once trigger. -/
inductive TriggerSource
  | cron (expression : String)
  | delay (d : Span)

def TriggerSource.trigger : TriggerSource → Except TriggerError Trigger
  | cron e => (Recurring.parse e).map Trigger.recurring
  | delay d => .ok (.after d)

/-- The work of a job that a step schedules: a job that returns or panics, or a backup by a new handler. -/
inductive Work
  | plain
  | panicking
  | backup
deriving DecidableEq

/-- A step that needs the scheduler. -/
inductive SchedulerStep
  | start
  /-- Cancels the token and asks for the keys before the loop takes note. -/
  | cancelKeys
  /-- Shuts down, with a limit of time or without. -/
  | shutdown (limited : Bool)
  | schedule (key : Key) (source : TriggerSource) (work : Work) (register : Bool)
  | command (c : Command)
  | unregister (key : Key)
  | scheduleRoutines (c : Config)
  | apply (c : Config)
  | install (plan config : Config)
  | adhoc (routine : String)

/-- A step of a rehearsal. -/
inductive RehearsalStep
  | scheduler (s : SchedulerStep)
  /-- Drops the scheduler; a scheduler that was dropped before stays so. -/
  | drop
  | cancel
  | rebind (c : Config)
  /-- Starts a new scheduler with the routines of a configuration. -/
  | launch (c : Config)
  | setTime (target : Instant)
  | advance (target : Instant)
  | hold
  | release
  /-- Sets or forgets the time of the last full backup of a routine. -/
  | last (routine : String) (time : Option Instant)

/-- The value of a step that succeeds. -/
inductive StepValue
  | none
  | flag (b : Bool)
  | key (k : Option Key)
  | keys (ks : List Key)
  | info (i : JobInfo)

/-- Why a step is refused. -/
inductive StepError
  | trigger (e : TriggerError)
  | scheduler (e : SchedulerError)
  | schedule (e : ScheduleError)
  | shutdown (e : ShutdownError)
  /-- The scheduler was dropped. -/
  | noScheduler
  /-- The step would wait for backups that are held. -/
  | wouldHang

/-- The result of a step: a value, a reason, or nothing if it broke down. -/
abbrev StepResult := Option (Except StepError StepValue)

namespace Rehearsal

/-! ## Single steps -/

def ofAnswer : Answer → StepValue
  | .done => .none
  | .keys ks => .keys ks
  | .info i => .info i

def ofReply : Except SchedulerError Answer → StepResult
  | .ok a => some (.ok (ofAnswer a))
  | .error e => some (.error (.scheduler e))

def ofOutcome : Outcome → StepResult
  | .done => some (.ok .none)
  | .refused e => some (.error (.schedule e))
  | .broken => none

def withWorld {α : Type} (r : Rehearsal) (p : World Nat × α) : Rehearsal × α := ({ r with world := p.1 }, p.2)

/-- Sends a command. -/
def request (r : Rehearsal) (c : Command) : Rehearsal × StepResult :=
  let (r, reply) := r.withWorld (r.world.request r.now c)
  (r, ofReply reply)

/-- Makes a call of a client. -/
def call (r : Rehearsal) (f : Engine Nat → World Nat → World Nat × Outcome) : Rehearsal × StepResult :=
  let (r, o) := r.withWorld (f r.cast.engine r.world)
  (r, ofOutcome o)

/-- The job of a step that schedules one, and the handlers made for it. -/
def makeJob (handlers : Nat) (key : Key) : Work → Job × Nat
  | .plain => (.chore "plain job" false, handlers)
  | .panicking => (.chore "panicking job" true, handlers)
  | .backup => (.backup ⟨handlers, key.name, key.kind.getD .full⟩, handlers + 1)

/-- Schedules a job of its own. -/
def schedule (r : Rehearsal) (key : Key) (source : TriggerSource) (work : Work) (register : Bool) :
    Rehearsal × StepResult :=
  match source.trigger with
  | .error e => (r, some (.error (.trigger e)))
  | .ok trigger =>
    let (job, handlers) := makeJob r.world.handlers key work
    let detail : Detail := ⟨key, job⟩
    let w := { r.world with handlers }
    let w := if register then w.withRegistry (·.put key detail) else w
    { r with world := w }.request (.schedule detail trigger)

/-- Shuts the scheduler down and waits, unless the time is limited, until its runs are over. -/
def shutdown (r : Rehearsal) (limited : Bool) : Rehearsal × StepResult :=
  if !limited && r.isHolding then (r, some (.error .wouldHang))
  else match r.scheduler.beginShutdown with
    | .error e => (r, some (.error (.shutdown e)))
    | .ok s =>
      let r := (r.withScheduler fun _ => s).goOn
      (r, some (match r.scheduler.shutdownResult? with
        | some (.ok ()) => .ok .none
        | some (.error e) => .error (.shutdown e)
        | none => .error (.shutdown .timeout)))

/-- Starts a new scheduler in place of the old one. The backups of the old one that are at work go on. -/
def launch (r : Rehearsal) (c : Config) : Rehearsal × StepResult :=
  let held := r.atWork.length
  match r.world.launchScheduler r.cast.engine r.now r.catchUpDelay r.cancelled c with
  | (w, .done) => ({ r with world := w, leftBehind := r.leftBehind + held }, some (.ok .none))
  | (w, o) => ({ r with world := w }, ofOutcome o)

/-- Ends the hold on backups. -/
def release (r : Rehearsal) : Rehearsal :=
  r.atWork.foldl finish { r with holding := false, leftBehind := 0 }

/-- Carries out a step that needs the scheduler. -/
def schedulerStep (r : Rehearsal) : SchedulerStep → Rehearsal × StepResult
  | .start =>
    match r.scheduler.start with
    | .ok s => (r.withScheduler fun _ => s, some (.ok .none))
    | .error e => (r, some (.error (.scheduler e)))
  | .cancelKeys =>
    if r.isHolding then (r, some (.error .wouldHang))
    else ({ r with cancelled := true }.withScheduler Scheduler.cancel).request .keys
  | .shutdown limited => r.shutdown limited
  | .schedule key source work register => r.schedule key source work register
  | .command c => r.request c
  | .unregister key =>
    (r.withScheduler (·.withRegistry (·.remove key)),
      some (.ok (.flag (r.scheduler.registry.details.contains key))))
  | .scheduleRoutines c => r.call fun e => World.scheduleRoutines e r.now r.catchUpDelay c
  | .apply c => r.call fun e => World.applyConfig e r.now r.catchUpDelay c
  | .install plan c => r.call fun e w =>
    match Plan.build plan with
    | .ok p => World.install e r.now r.catchUpDelay c p w
    | .error f => (w, .refused (.invalidCron f))
  | .adhoc routine =>
    let (r, reply) := r.withWorld (World.scheduleAdhoc r.now routine r.world)
    (r, some ((reply.map StepValue.key).mapError StepError.scheduler))

def perform (r : Rehearsal) : RehearsalStep → Rehearsal × StepResult
  | .scheduler s => if r.scheduler.connected then r.schedulerStep s else (r, some (.error .noScheduler))
  | .drop => (r.withScheduler Scheduler.drop, some (.ok .none))
  | .cancel => (({ r with cancelled := true }.withScheduler Scheduler.cancel).goOn, some (.ok .none))
  | .rebind c => ({ r with world := r.world.rebind r.cast.engine c }, some (.ok .none))
  | .launch c => r.launch c
  | .setTime target => ({ r with now := target }, some (.ok .none))
  | .advance target => (r.advance target, some (.ok .none))
  | .hold => ({ r with holding := true }, some (.ok .none))
  | .release => (r.release, some (.ok .none))
  | .last routine time =>
    let last := match time with
      | some t => r.cast.last.insert routine t
      | none => r.cast.last.erase routine
    ({ r with cast := { r.cast with last } }, some (.ok .none))

/-! ## Reports -/

/-- What is to be seen after a step: its result, and the registered jobs in the order of their keys or the reason they
cannot be asked for. There are none to be asked for without a scheduler. -/
structure Report where
  result : StepResult
  jobs : Option (Except SchedulerError (List JobInfo))

/-- The information on the jobs with some keys. -/
def infos (r : Rehearsal) (ks : List Key) : Except SchedulerError (List JobInfo) := do
  let answers ← ks.mapM fun k => (r.scheduler.request r.now (.info k)).2
  .ok (answers.filterMap fun | .info i => some i | _ => none)

/-- Asks for the registered jobs. -/
def ask (r : Rehearsal) : Rehearsal × Except SchedulerError (List JobInfo) :=
  let (s, reply) := r.scheduler.request r.now .keys
  let r := (r.withScheduler fun _ => s).settle
  (r, reply.bind fun | .keys ks => r.infos ks | _ => .ok [])

/-- Settles and asks for the registered jobs, if there is a scheduler. -/
def inspect (r : Rehearsal) : Rehearsal × Option (Except SchedulerError (List JobInfo)) :=
  let r := r.settle
  if r.scheduler.connected then
    let (r, jobs) := r.ask
    (r, some jobs)
  else (r, none)

/-- Forgets what happened in the last step. -/
def fresh (r : Rehearsal) : Rehearsal := { r with occasions := [], world := { r.world with attempts := [] } }

/-- Carries out a step, settles and asks for the registered jobs. -/
def step (r : Rehearsal) (s : RehearsalStep) : Rehearsal × Report :=
  let (r, result) := r.fresh.perform s
  let (r, jobs) := r.inspect
  (r, ⟨result, jobs⟩)

/-- What happened in the last step, in order. -/
def history (r : Rehearsal) : List Occasion := r.occasions.mergeSort Occasion.le

end Rehearsal

end Rota
