import Rota.Scheduler.Flight

/-!
# The dispatch loop

One `turn` of the loop prefers, in this order, a cancellation, a command, the end of a run and the timer. A cancelled
loop takes no more commands and fires nothing more; it joins the runs in flight and stops. A loop whose handle is gone
does the same once the inbox is empty.
-/

namespace Rota.Scheduler

/-! ## Turns -/

/-- The answers that commands get, by the tickets of their senders. -/
abbrev Replies := List (Nat × Except SchedulerError Answer)

/-- The commands that wait get no answer any more. -/
def abandonInbox (s : Scheduler) : Scheduler × Replies :=
  ({ s with inbox := [] }, s.inbox.map fun (ticket, _) => (ticket, .error .unanswered))

/-- The loop is back at its head and notes the number of registered jobs. -/
def atHead (s : Scheduler) : Scheduler := { s with dispatcher := s.dispatcher.noteRegistered }

/-- The loop carries out a command. If it breaks down over it, nothing may be read off the jobs and the queue that are
left, nor off the runs that wait (`Phase.broken`). -/
def takeCommand (s : Scheduler) (now : Instant) (ticket : Nat) (c : Command) : Scheduler × Replies :=
  match s.dispatcher.handle now c with
  | some (d, reply) => ({ s with dispatcher := d }.atHead, [(ticket, reply)])
  | none =>
    let (s, replies) := { s with phase := .broken }.abandonInbox
    (s, (ticket, .error .unanswered) :: replies)

/-- The timer of the loop elapses. What was handed over before the loop breaks down is launched; whether it ever begins
is open, and nothing may be read off the jobs and the queue that are left (`Phase.broken`). -/
def takePass (s : Scheduler) (now : Instant) : Scheduler × Replies :=
  let p := s.dispatcher.pass now
  let s := { s with dispatcher := p.dispatcher }.launch p.fired
  if p.broken then { s with phase := .broken }.abandonInbox else (s.atHead, [])

/-- One turn of a loop that takes commands. -/
def runningTurn (s : Scheduler) (now : Instant) : Scheduler × Replies :=
  if s.cancelled then ({ s with phase := .draining }, [])
  else match s.inbox with
    | (ticket, c) :: inbox => { s with inbox }.takeCommand now ticket c
    | [] =>
      if !s.connected then ({ s with phase := .draining }, [])
      else match s.endedRun? with
        | some (id, panicked) => ((s.join id panicked).atHead, [])
        | none => s.takePass now

/-- One turn of a loop that joins the runs in flight; without any it stops. -/
def drainingTurn (s : Scheduler) : Scheduler × Replies :=
  match s.endedRun? with
  | some (id, panicked) => (s.join id panicked, [])
  | none => if s.runs = [] then { s with phase := .stopped }.atHead.abandonInbox else (s, [])

/-- One turn of the loop at a clock reading. -/
def turn (s : Scheduler) (now : Instant) : Scheduler × Replies :=
  match s.phase with
  | .running => s.runningTurn now
  | .draining => s.drainingTurn
  | _ => (s, [])

/-! ## Requests -/

/-- Lets the loop turn until a ticket has its answer, at most a number of times. -/
def awaitReply (now : Instant) (ticket : Nat) : Nat → Scheduler → Scheduler × Except SchedulerError Answer
  | 0, s => (s, .error .unanswered)
  | n + 1, s =>
    let (s, replies) := s.turn now
    match replies.lookup ticket with
    | some reply => (s, reply)
    | none => awaitReply now ticket n s

/-- Sends a command and waits for its answer. The loop answers the commands that wait before anything else, unless it
is told to stop. -/
def request (s : Scheduler) (now : Instant) (c : Command) : Scheduler × Except SchedulerError Answer :=
  match s.submit c with
  | .error e => (s, .error e)
  | .ok (s, ticket) => awaitReply now ticket s.inbox.length s

end Rota.Scheduler
