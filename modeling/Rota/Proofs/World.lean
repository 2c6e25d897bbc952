import Rota.Proofs.Installed
import Rota.Proofs.Request

/-!
# Clients of a ready loop

What is seen of a world, and what the acts of a client do to a world whose loop is ready.

- a registration is added if its key is free and its trigger fires, and is refused otherwise (`act_schedule_cases`,
  `act_schedule_eq_done_iff`);
- acts in a row go through exactly if each does (`acts_cons_eq_done_iff`, `acts_append_eq_done_iff`).
-/

namespace Rota.World

variable {β : Type} {e : Engine β} {now : Instant} {delay : Span} {c : Config} {w w' w'' : World β}

/-! ## What is seen of a world -/

/-- The registered jobs. -/
def jobs (w : World β) : Std.ExtTreeMap Key Registration := w.scheduler.dispatcher.jobs

/-- The pending fire times. -/
def queue (w : World β) : Std.ExtTreeMap Key Instant := w.scheduler.dispatcher.queue

/-- The recorded jobs. -/
def details (w : World β) : Std.ExtTreeMap Key Detail := w.scheduler.registry.details

/-- The number of clear commands carried out. -/
def clears (w : World β) : UInt64 := w.scheduler.metrics.clears

/-- The loop takes commands and no other client is about. -/
def Ready (w : World β) : Prop := w.scheduler.Ready

/-- The world after a registration that was accepted. -/
def enter (w : World β) (r : Registration) : World β :=
  { w with scheduler := w.scheduler.answered (w.scheduler.dispatcher.enter r) }

/-- The world once the handler of a routine is made. -/
def withHandler (w : World β) (routine : String) : World β :=
  { w with attempts := w.attempts ++ [⟨routine, w.bindings[routine]?, none⟩], handlers := w.handlers + 1 }

/-- The world once the handler of a routine is refused. -/
def withRefusal (w : World β) (routine : String) (err : HandlerError) : World β :=
  { w with attempts := w.attempts ++ [⟨routine, w.bindings[routine]?, some err⟩] }

/-- The world after a job is put into the registry. -/
def record (w : World β) (d : Detail) : World β := w.withRegistry (·.put d.key d)

section Projections

variable (w : World β) (r : Registration) (d : Detail)

@[simp] theorem jobs_enter : (w.enter r).jobs = w.jobs.insert r.detail.key r := rfl

@[simp] theorem queue_enter : (w.enter r).queue = w.queue.insert r.detail.key r.due := rfl

@[simp] theorem details_enter : (w.enter r).details = w.details := rfl

@[simp] theorem jobs_record : (w.record d).jobs = w.jobs := rfl

@[simp] theorem queue_record : (w.record d).queue = w.queue := rfl

@[simp] theorem details_record : (w.record d).details = w.details.insert d.key d := rfl

end Projections

theorem Ready.enter (hw : w.Ready) (r : Registration) : (w.enter r).Ready := Scheduler.Ready.answered hw _

theorem Ready.record (hw : w.Ready) (d : Detail) : (w.record d).Ready := ⟨hw.running, hw.uncancelled, hw.idle⟩

/-! ## Acts -/

section Request

variable {s : Scheduler} {command : Command}

theorem act_request_ok {answer : Answer} (h : w.scheduler.request now command = (s, .ok answer)) :
    act e now w (.request command) = ({ w with scheduler := s }, .done) := by
  simp only [act, World.request, h]

theorem act_request_error {err : SchedulerError} (h : w.scheduler.request now command = (s, .error err)) :
    act e now w (.request command) = ({ w with scheduler := s }, .refused (.scheduler err)) := by
  simp only [act, World.request, h]

end Request

/-- A registration is added if its key is free and its trigger fires. Otherwise it is refused, and counts no clear. -/
theorem act_schedule_cases (e : Engine β) (now : Instant) (hw : w.Ready) (d : Detail) (t : Trigger) :
    (∃ t' due, d.key ∉ w.jobs ∧ t.next now = (t', .due due) ∧
      act e now w (.request (.schedule d t)) = (w.enter ⟨d, t', due⟩, .done)) ∨
    ((d.key ∈ w.jobs ∨ ∀ due, (t.next now).2 ≠ .due due) ∧
      ∃ v err, act e now w (.request (.schedule d t)) = (v, .refused (.scheduler err)) ∧ v.clears = w.clears ∧
        v.jobs = w.jobs) := by
  by_cases hk : d.key ∈ w.jobs
  · have hd : w.scheduler.dispatcher.schedule now d t = _ := Dispatcher.schedule_of_mem hk
    have hr := Scheduler.request_of_handle (c := .schedule d t) hw hd
    exact .inr ⟨.inl hk, _, _, act_request_error hr, rfl, rfl⟩
  · obtain ⟨⟨t', answer⟩, ht⟩ : ∃ q, t.next now = q := ⟨_, rfl⟩
    cases answer with
    | due due =>
      have hr := Scheduler.request_of_handle (c := .schedule d t) hw (Dispatcher.schedule_of_due hk ht)
      exact .inl ⟨t', due, hk, ht, act_request_ok hr⟩
    | refused err =>
      have hr := Scheduler.request_of_handle (c := .schedule d t) hw (Dispatcher.schedule_of_refused hk ht)
      exact .inr ⟨.inr (by simp [ht]), _, _, act_request_error hr, rfl, rfl⟩
    | overrun =>
      have hr := Scheduler.request_of_handle_none (c := .schedule d t) hw (Dispatcher.schedule_of_overrun hk ht)
      exact .inr ⟨.inr (by simp [ht]), _, _, act_request_error hr, rfl, rfl⟩

/-- A registration goes through exactly if its key is free and its trigger fires; then it is added. -/
theorem act_schedule_eq_done_iff (hw : w.Ready) {d : Detail} {t : Trigger} :
    act e now w (.request (.schedule d t)) = (w', .done) ↔
      d.key ∉ w.jobs ∧ ∃ t' due, t.next now = (t', .due due) ∧ w' = w.enter ⟨d, t', due⟩ := by
  rcases act_schedule_cases e now hw d t with ⟨t', due, hk, ht, ha⟩ | ⟨hn, v, err, ha, -, -⟩
  · rw [ha, ht]
    constructor
    · rintro ⟨⟩
      exact ⟨hk, t', due, rfl, rfl⟩
    · rintro ⟨-, _, _, ⟨⟩, rfl⟩
      rfl
  · rw [ha]
    constructor
    · rintro ⟨⟩
    · rintro ⟨hk, t', due, ht, -⟩
      rcases hn with hn | hn
      · exact absurd hn hk
      · exact absurd (by rw [ht]) (hn due)

/-- Acts in a row go through exactly if each does. -/
theorem acts_cons_eq_done_iff {a : Act} {as : List Act} :
    acts e now (a :: as) w = (w'', .done) ↔ ∃ w', act e now w a = (w', .done) ∧ acts e now as w' = (w'', .done) := by
  rw [acts]
  obtain ⟨v, o⟩ := act e now w a
  cases o <;> simp

theorem acts_append_eq_done_iff {as bs : List Act} :
    acts e now (as ++ bs) w = (w'', .done) ↔ ∃ w', acts e now as w = (w', .done) ∧ acts e now bs w' = (w'', .done) := by
  induction as generalizing w with
  | nil => simp [acts]
  | cons a as ih =>
    rw [List.cons_append, acts_cons_eq_done_iff]
    simp only [acts_cons_eq_done_iff, ih]
    constructor
    · rintro ⟨u, hu, v, hv, hb⟩
      exact ⟨v, ⟨u, hu, hv⟩, hb⟩
    · rintro ⟨v, ⟨u, hu, hv⟩, hb⟩
      exact ⟨u, hu, v, hv, hb⟩

theorem acts_append_of_done {as bs : List Act} (h : acts e now as w = (w', .done)) :
    acts e now (as ++ bs) w = acts e now bs w' := by
  induction as generalizing w with
  | nil =>
    cases h
    rfl
  | cons a as ih =>
    obtain ⟨u, hu, has⟩ := acts_cons_eq_done_iff.1 h
    rw [List.cons_append, acts, hu]
    exact ih has

end Rota.World
