import Rota.Routine.Engine
import Rota.Scheduler.Loop

/-!
# Clients

A client schedules the routines of a configuration, replaces a schedule by another one, or asks for a backup out of
turn. It does so step by step: a `World` holds what clients share, an `Act` is one atomic step on it, and a `Task` is
either an act or a step that first looks at the world and then decides which acts follow. What a client still has to
do is a list of tasks, so the steps of several clients can be mixed in any order (`World.step`); `World.perform` is
one client alone.
-/

namespace Rota

/-! ## Worlds -/

/-- A call of the engine for a handler: the routine, the backend it was given, and the refusal if there was one. -/
structure Attempt (β : Type) where
  routine : String
  backend : Option β
  refusal : Option HandlerError

/-- A scheduler, the backends that are bound, and the numbers of bindings and handlers made so far. -/
structure World (β : Type) where
  scheduler : Scheduler := {}
  bindings : Std.ExtTreeMap String β := ∅
  bound : Nat := 0
  handlers : Nat := 0
  /-- The calls for handlers, the newest last. -/
  attempts : List (Attempt β) := []

/-- How a call of a client ends: it succeeds, is refused, or breaks down at the end of the calendar. -/
inductive Outcome
  | done
  | refused (e : ScheduleError)
  | broken
deriving DecidableEq

/-! ## Steps -/

/-- One atomic step of a client. -/
inductive Act
  /-- Sends a command and waits until it is carried out. -/
  | request (c : Command)
  /-- Binds the backends of a configuration in place of the others. -/
  | rebind (c : Config)
  /-- Puts a job into the registry. -/
  | record (key : Key) (d : Detail)

/-- A step that a client has ahead of it. -/
inductive Task
  | act (a : Act)
  /-- Has the handler of a routine made and goes on with its registrations. -/
  | routine (c : Config) (catchUpDelay : Span) (e : Plan.Entry)
  /-- Derives a full backup of a routine from the registry and goes on with its registration. -/
  | adhoc (routine : String)

namespace World

variable {β : Type}

def withRegistry (w : World β) (f : Registry → Registry) : World β :=
  { w with scheduler := w.scheduler.withRegistry f }

/-- Sends a command and waits for its answer. -/
def request (w : World β) (now : Instant) (c : Command) : World β × Except SchedulerError Answer :=
  let (s, reply) := w.scheduler.request now c
  ({ w with scheduler := s }, reply)

/-- Binds the backends of a configuration in place of the others. -/
def rebind (w : World β) (e : Engine β) (c : Config) : World β :=
  { w with bindings := e.bind w.bound c, bound := w.bound + 1 }

def act (e : Engine β) (now : Instant) (w : World β) : Act → World β × Outcome
  | .request c =>
    match w.request now c with
    | (w, .ok _) => (w, .done)
    | (w, .error err) => (w, .refused (.scheduler err))
  | .rebind c => (w.rebind e c, .done)
  | .record key d => (w.withRegistry (·.put key d), .done)

/-- The registrations of a routine once its handler is made: the recurring full backup, a catch-up run if one is
needed, and the recurring incremental backup if the routine has one. The full backup and the catch-up run share one
job. -/
def registrations (handler : Nat) (h : Handler) (catchUp : Bool) (catchUpDelay : Span) (e : Plan.Entry) : List Act :=
  let full : Detail := ⟨.full e.name, .backup ⟨handler, h.routine, .full⟩⟩
  let incremental : Detail := ⟨.incremental e.name, .backup ⟨handler, h.routine, .incremental⟩⟩
  [.request (.schedule full (.recurring e.full)), .record full.key full] ++
    (if catchUp then [.request (.schedule ⟨.catchUp e.name, full.job⟩ (.after catchUpDelay))] else []) ++
    match e.incremental with
    | none => []
    | some t => [.request (.schedule incremental (.recurring t)), .record incremental.key incremental]

/-- A registration of a routine is of, or records, a backup of its handler. -/
theorem mem_registrations {n : Nat} {h : Handler} {catchUp : Bool} {delay : Span} {x : Plan.Entry} {a : Act}
    (ha : a ∈ registrations n h catchUp delay x) :
    ∃ (d : Detail) (kind : Kind), d.job = .backup ⟨n, h.routine, kind⟩ ∧
      ((∃ t, a = .request (.schedule d t)) ∨ a = .record d.key d) := by
  unfold registrations at ha
  rcases List.mem_append.1 ha with ha | ha
  · rcases List.mem_append.1 ha with ha | ha
    · rw [List.mem_cons, List.mem_singleton] at ha
      rcases ha with rfl | rfl
      · exact ⟨_, .full, rfl, .inl ⟨_, rfl⟩⟩
      · exact ⟨_, .full, rfl, .inr rfl⟩
    · cases catchUp with
      | false => cases ha
      | true =>
        cases List.mem_singleton.1 ha
        exact ⟨_, .full, rfl, .inl ⟨_, rfl⟩⟩
  · cases hi : x.incremental with
    | none =>
      rw [hi] at ha
      cases ha
    | some t =>
      rw [hi, List.mem_cons, List.mem_singleton] at ha
      rcases ha with rfl | rfl
      · exact ⟨_, .incremental, rfl, .inl ⟨_, rfl⟩⟩
      · exact ⟨_, .incremental, rfl, .inr rfl⟩

/-- Takes up a task: the acts that are to follow, or nothing if the decision on the catch-up run breaks down. A
routine whose handler is refused is left out. -/
def takeUp (e : Engine β) (now : Instant) (w : World β) : Task → World β × Option (List Act)
  | .act a => (w, some [a])
  | .routine c delay entry =>
    let backend := w.bindings[entry.name]?
    match e.handler c entry.name backend with
    | .error err => ({ w with attempts := w.attempts ++ [⟨entry.name, backend, some err⟩] }, some [])
    | .ok h =>
      ({ w with attempts := w.attempts ++ [⟨entry.name, backend, none⟩], handlers := w.handlers + 1 },
        (needsFullBackup? h.lastFull entry.full now).map fun catchUp =>
          registrations w.handlers h catchUp delay entry)
  | .adhoc routine =>
    let (r, derived) := w.scheduler.registry.deriveAdhoc routine now
    (w.withRegistry fun _ => r, some (derived.toList.map fun d => .request (.schedule d .immediate)))

/-! ## One client alone -/

/-- Carries out acts until one is refused. -/
def acts (e : Engine β) (now : Instant) : List Act → World β → World β × Outcome
  | [], w => (w, .done)
  | a :: as, w =>
    match act e now w a with
    | (w, .done) => acts e now as w
    | (w, o) => (w, o)

/-- Carries out tasks until one is refused. -/
def perform (e : Engine β) (now : Instant) : List Task → World β → World β × Outcome
  | [], w => (w, .done)
  | t :: ts, w =>
    match takeUp e now w t with
    | (w, none) => (w, .broken)
    | (w, some as) =>
      match acts e now as w with
      | (w, .done) => perform e now ts w
      | (w, o) => (w, o)

/-! ## Several clients -/

/-- One step of a client among others: the tasks it has ahead of it afterwards, or how its call ended. A routine or a
derivation is taken up in one step and its acts are carried out in further ones. -/
def step (e : Engine β) (now : Instant) (w : World β) : List Task → World β × (Outcome ⊕ List Task)
  | [] => (w, .inl .done)
  | .act a :: ts =>
    match act e now w a with
    | (w, .done) => (w, .inr ts)
    | (w, o) => (w, .inl o)
  | t :: ts =>
    match takeUp e now w t with
    | (w, none) => (w, .inl .broken)
    | (w, some as) => (w, .inr (as.map Task.act ++ ts))

/-! ## Calls -/

/-- The steps that schedule every routine of a plan. -/
def installTasks (c : Config) (delay : Span) (p : Plan) : List Task := p.entries.map (Task.routine c delay)

/-- The steps that replace the schedule by that of a plan: everything is cleared, the backends are bound anew and the
routines are scheduled. -/
def applyTasks (c : Config) (delay : Span) (p : Plan) : List Task :=
  .act (.request .clear) :: .act (.rebind c) :: installTasks c delay p

def install (e : Engine β) (now : Instant) (delay : Span) (c : Config) (p : Plan) (w : World β) : World β × Outcome :=
  perform e now (installTasks c delay p) w

/-- Schedules every routine of a configuration, unless one of its expressions is malformed. -/
def scheduleRoutines (e : Engine β) (now : Instant) (delay : Span) (c : Config) (w : World β) : World β × Outcome :=
  match Plan.build c with
  | .error f => (w, .refused (.invalidCron f))
  | .ok p => install e now delay c p w

/-- Replaces the schedule by that of a configuration, unless one of its expressions is malformed. -/
def applyConfig (e : Engine β) (now : Instant) (delay : Span) (c : Config) (w : World β) : World β × Outcome :=
  match Plan.build c with
  | .error f => (w, .refused (.invalidCron f))
  | .ok p => perform e now (applyTasks c delay p) w

/-- Starts a new scheduler in place of the old one and schedules every routine of a configuration on it. If that fails
the new scheduler is given up and the old one stays. The token of the new scheduler may be cancelled already. -/
def launchScheduler (e : Engine β) (now : Instant) (delay : Span) (cancelled : Bool) (c : Config) (w : World β) :
    World β × Outcome :=
  match ({ cancelled } : Scheduler).start with
  | .error err => (w, .refused (.scheduler err))
  | .ok s =>
    match scheduleRoutines e now delay c { w with scheduler := s } with
    | (w, .done) => (w, .done)
    | (w', o) => ({ w' with scheduler := w.scheduler }, o)

/-- Schedules a full backup of a routine out of turn, to be made at once. The answer is its key, or none if the
routine has no recurring full backup. -/
def scheduleAdhoc (now : Instant) (routine : String) (w : World β) : World β × Except SchedulerError (Option Key) :=
  let (r, derived) := w.scheduler.registry.deriveAdhoc routine now
  let w := w.withRegistry fun _ => r
  match derived with
  | none => (w, .ok none)
  | some d =>
    let (w, reply) := w.request now (.schedule d .immediate)
    (w, reply.map fun _ => some d.key)

end World

end Rota
