import Rota.Scheduler.Loop

/-!
# Requests to a ready loop

A loop is ready if it takes commands, is not told to stop and has no command of another client waiting. A request to a
ready loop is one turn of it:

- the request gets the answer of the dispatcher and leaves the loop ready (`request_of_handle`, `Ready.answered`), or
  breaks the loop down together with the dispatcher (`request_of_handle_none`);
- a registration is accepted exactly if its key is free and its trigger has a fire time (`schedule_of_due`,
  `schedule_of_mem`, `schedule_of_refused`, `schedule_of_overrun`).
-/

namespace Rota

/-! ## Registrations -/

namespace Dispatcher

/-- A dispatcher with one more registration. -/
def enter (d : Dispatcher) (r : Registration) : Dispatcher :=
  { d with
    jobs := d.jobs.insert r.detail.key r
    queue := d.queue.insert r.detail.key r.due
    metrics := { d.metrics with scheduled := d.metrics.scheduled + 1 } }

section Schedule

variable {d : Dispatcher} {now : Instant} {detail : Detail} {trigger : Trigger}

/-- A registration under a free key is accepted at the first fire time of its trigger. -/
theorem schedule_of_due {t' : Trigger} {due : Instant} (hk : detail.key ∉ d.jobs)
    (ht : trigger.next now = (t', .due due)) :
    d.schedule now detail trigger = some (d.enter ⟨detail, t', due⟩, .ok .done) := by
  unfold schedule
  rw [if_neg hk, ht]
  rfl

/-- A registration under a key that is taken is refused. -/
theorem schedule_of_mem (hk : detail.key ∈ d.jobs) :
    d.schedule now detail trigger = some (d, .error (.jobAlreadyExists detail.key)) := by
  unfold schedule
  rw [if_pos hk]

/-- A registration whose trigger has no fire time is refused. -/
theorem schedule_of_refused {t' : Trigger} {e : TriggerError} (hk : detail.key ∉ d.jobs)
    (ht : trigger.next now = (t', .refused e)) :
    d.schedule now detail trigger = some (d, .error (.invalidTrigger detail.key e)) := by
  unfold schedule
  rw [if_neg hk, ht]

/-- A trigger that is asked beyond the end of the calendar breaks the dispatcher down. -/
theorem schedule_of_overrun {t' : Trigger} (hk : detail.key ∉ d.jobs) (ht : trigger.next now = (t', .overrun)) :
    d.schedule now detail trigger = none := by
  unfold schedule
  rw [if_neg hk, ht]

end Schedule

end Dispatcher

/-! ## Ready loops -/

namespace Scheduler

/-- The loop takes commands, is not told to stop, and no command waits. -/
structure Ready (s : Scheduler) : Prop where
  running : s.phase = .running
  uncancelled : s.cancelled = false
  idle : s.inbox = []

/-- The scheduler once its loop has answered a request. -/
def answered (s : Scheduler) (d : Dispatcher) : Scheduler :=
  { s with dispatcher := d.noteRegistered, nextTicket := s.nextTicket + 1 }

section Request

variable {s : Scheduler} {now : Instant} {c : Command} {d : Dispatcher}

/-- A loop that answered is ready again. -/
theorem Ready.answered (hs : s.Ready) (d : Dispatcher) : (s.answered d).Ready :=
  ⟨hs.running, hs.uncancelled, hs.idle⟩

/-- A ready loop takes a command in its next turn. -/
theorem turn_of_submitted (hs : s.Ready) :
    ({ s with inbox := [(s.nextTicket, c)], nextTicket := s.nextTicket + 1 } : Scheduler).turn now =
      ({ s with nextTicket := s.nextTicket + 1 } : Scheduler).takeCommand now s.nextTicket c := by
  unfold turn
  simp only [hs.running]
  unfold runningTurn
  simp only [hs.uncancelled, Bool.false_eq_true, ↓reduceIte]
  rw [hs.idle]

/-- A request gets the answer of the turn that takes it. -/
theorem request_of_takeCommand {s' : Scheduler} {replies : Replies} {reply : Except SchedulerError Answer}
    (hs : s.Ready)
    (ht : ({ s with nextTicket := s.nextTicket + 1 } : Scheduler).takeCommand now s.nextTicket c = (s', replies))
    (hr : replies.lookup s.nextTicket = some reply) : s.request now c = (s', reply) := by
  have hsub : s.submit c =
      .ok ({ s with inbox := [(s.nextTicket, c)], nextTicket := s.nextTicket + 1 }, s.nextTicket) := by
    unfold submit
    simp only [hs.running, hs.idle, List.nil_append]
  unfold request
  simp only [hsub, List.length_singleton, awaitReply, turn_of_submitted hs, ht, hr]

/-- A request gets the answer of the dispatcher. -/
theorem request_of_handle {reply : Except SchedulerError Answer} (hs : s.Ready)
    (h : s.dispatcher.handle now c = some (d, reply)) : s.request now c = (s.answered d, reply) := by
  have ht : ({ s with nextTicket := s.nextTicket + 1 } : Scheduler).takeCommand now s.nextTicket c =
      (s.answered d, [(s.nextTicket, reply)]) := by
    unfold takeCommand
    rw [h]
    rfl
  exact request_of_takeCommand hs ht (by simp)

/-- A request that breaks the dispatcher down gets no answer. -/
theorem request_of_handle_none (hs : s.Ready) (h : s.dispatcher.handle now c = none) :
    s.request now c =
      ({ s with phase := .broken, inbox := [], nextTicket := s.nextTicket + 1 }, .error .unanswered) := by
  have ht : ({ s with nextTicket := s.nextTicket + 1 } : Scheduler).takeCommand now s.nextTicket c =
      ({ s with phase := .broken, inbox := [], nextTicket := s.nextTicket + 1 },
        [(s.nextTicket, .error .unanswered)]) := by
    unfold takeCommand
    rw [h]
    simp [abandonInbox, hs.idle]
  exact request_of_takeCommand hs ht (by simp)

end Request

end Scheduler

end Rota
