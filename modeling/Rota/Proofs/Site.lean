import Mathlib.Logic.Relation
import Rota.Routine.Client

/-!
# Sites

A `Site` is a world with the calls of its clients that are under way. What happens there happens in atomic steps, each
an `Event`: an operation of the handle, a turn of the loop, the begin or the end of a run, a new call, or one step of a
client. Clients call for the routines of a configuration, for a new configuration, or for a backup out of turn.

To its scheduler an event is a sequence of the scheduler's own steps (`Scheduler.Step`), whose parameter says which
backups come in from outside.

- every event is such a sequence (`Site.steps_happen`).
-/

namespace Rota

/-! ## Steps of a scheduler -/

/-- A command that registers a backup. -/
def Command.Carries (b : Backup) : Command → Prop
  | .schedule d _ => d.job = .backup b
  | _ => False

/-- A registry that records a backup. -/
def Registry.Carries (b : Backup) (r : Registry) : Prop :=
  ∃ (k : Key) (d : Detail), r.details[k]? = some d ∧ d.job = .backup b

namespace Scheduler

/-- One atomic step of a scheduler, in which no backup but those of `A` comes in. -/
inductive Step (A : Backup → Prop) : Scheduler → Scheduler → Prop
  | start {s s' : Scheduler} (h : s.start = .ok s') : Step A s s'
  | cancel (s : Scheduler) : Step A s s.cancel
  | drop (s : Scheduler) : Step A s s.drop
  | shutdown {s s' : Scheduler} (h : s.beginShutdown = .ok s') : Step A s s'
  | submit {s s' : Scheduler} {c : Command} {ticket : Nat} (h : s.submit c = .ok (s', ticket))
      (hA : ∀ b, c.Carries b → A b) : Step A s s'
  | turn (s : Scheduler) (now : Instant) : Step A s (s.turn now).1
  | beginRun (s : Scheduler) (id : Nat) : Step A s (s.beginRun id)
  | finishRun (s : Scheduler) (id : Nat) (panicked : Bool) (took : Span) : Step A s (s.finishRun id panicked took)
  | registry (s : Scheduler) (r : Registry) (hA : ∀ b, r.Carries b → s.registry.Carries b ∨ A b) :
      Step A s (s.withRegistry fun _ => r)

/-- Any number of steps. -/
abbrev Steps (A : Backup → Prop) : Scheduler → Scheduler → Prop := Relation.ReflTransGen (Step A)

variable {A : Backup → Prop}

theorem Step.mono {A' : Backup → Prop} (hA : ∀ b, A b → A' b) {s s' : Scheduler} (h : Step A s s') : Step A' s s' := by
  cases h with
  | start h => exact .start h
  | cancel => exact .cancel s
  | drop => exact .drop s
  | shutdown h => exact .shutdown h
  | submit h hc => exact .submit h fun b hb => hA b (hc b hb)
  | turn => exact .turn s _
  | beginRun => exact .beginRun s _
  | finishRun => exact .finishRun s _ _ _
  | registry r hr => exact .registry s r fun b hb => (hr b hb).imp id (hA b)

theorem steps_awaitReply (now : Instant) (ticket : Nat) :
    ∀ (n : Nat) (s : Scheduler), Steps A s (awaitReply now ticket n s).1
  | 0, _ => .refl
  | n + 1, s => by
    obtain ⟨⟨s', replies⟩, hs⟩ : ∃ q, s.turn now = q := ⟨_, rfl⟩
    have hturn : Step A s s' := by
      have h := Step.turn (A := A) s now
      rwa [hs] at h
    simp only [awaitReply, hs]
    cases replies.lookup ticket with
    | some reply => exact .single hturn
    | none => exact .head hturn (steps_awaitReply now ticket n s')

theorem steps_request (s : Scheduler) (now : Instant) {c : Command} (hA : ∀ b, c.Carries b → A b) :
    Steps A s (s.request now c).1 := by
  unfold request
  cases h : s.submit c with
  | error err => exact .refl
  | ok q =>
    obtain ⟨s', ticket⟩ := q
    exact .head (.submit h hA) (steps_awaitReply now ticket _ s')

end Scheduler

/-! ## Steps of a client -/

/-- An act that registers or records a backup. -/
def Act.Carries (b : Backup) : Act → Prop
  | .request c => c.Carries b
  | .record _ d => d.job = .backup b
  | .rebind _ => False

/-- A task that registers or records a backup without making or deriving it first. -/
def Task.Carries (b : Backup) : Task → Prop
  | .act a => a.Carries b
  | _ => False

namespace World

variable {β : Type} {e : Engine β} {now : Instant}

variable (e now) in
theorem steps_act (w : World β) (a : Act) :
    Scheduler.Steps (fun b => a.Carries b) w.scheduler (act e now w a).1.scheduler := by
  cases a with
  | request c =>
    obtain ⟨⟨s, reply⟩, hs⟩ : ∃ q, w.scheduler.request now c = q := ⟨_, rfl⟩
    have h := Scheduler.steps_request (A := fun b => c.Carries b) (c := c) w.scheduler now fun _ hb => hb
    rw [hs] at h
    simp only [act, World.request, hs]
    cases reply <;> exact h
  | rebind c => exact .refl
  | record key d =>
    refine .single (.registry w.scheduler _ fun b => ?_)
    rintro ⟨k, d', hd', hb⟩
    rw [Registry.put, Std.ExtTreeMap.getElem?_insert] at hd'
    split at hd'
    · cases hd'
      exact .inr hb
    · exact .inl ⟨k, d', hd', hb⟩

/-- A derivation leaves the recorded jobs as they are, and what it derives is one of them under a new key. -/
theorem deriveAdhoc_spec (r : Registry) (routine : String) (now : Instant) :
    (r.deriveAdhoc routine now).1.details = r.details ∧
      ∀ d, (r.deriveAdhoc routine now).2 = some d → ∃ d', r.details[Key.full routine]? = some d' ∧ d.job = d'.job := by
  unfold Registry.deriveAdhoc Registry.get?
  cases hd : r.details[Key.full routine]? with
  | none => simp
  | some d' =>
    refine ⟨rfl, ?_⟩
    rintro d ⟨⟩
    exact ⟨d', rfl, rfl⟩

variable (e now) in
/-- A client that takes up a task does nothing to the scheduler but count a derivation. -/
theorem steps_takeUp (w : World β) (t : Task) :
    Scheduler.Steps (fun b => t.Carries b) w.scheduler (takeUp e now w t).1.scheduler := by
  cases t with
  | act a => exact .refl
  | routine c delay x =>
    have hsame : (takeUp e now w (.routine c delay x)).1.scheduler = w.scheduler := by
      simp only [takeUp]
      split <;> rfl
    rw [hsame]
  | adhoc routine =>
    obtain ⟨hdetails, -⟩ := deriveAdhoc_spec w.scheduler.registry routine now
    refine .single (.registry w.scheduler (w.scheduler.registry.deriveAdhoc routine now).1 fun b => ?_)
    rintro ⟨k, d, hd, hb⟩
    exact .inl ⟨k, d, hdetails ▸ hd, hb⟩

/-- A task that is no act is taken up, and its acts are what the client has ahead of it next. -/
theorem step_of_forall_ne (w : World β) {t : Task} (ht : ∀ a, t ≠ .act a) (ts : List Task) :
    step e now w (t :: ts) = ((takeUp e now w t).1,
      match (takeUp e now w t).2 with
      | none => .inl .broken
      | some as => .inr (as.map Task.act ++ ts)) := by
  obtain ⟨⟨w', as⟩, hw'⟩ : ∃ q, takeUp e now w t = q := ⟨_, rfl⟩
  rw [step, hw']
  · cases as <;> rfl
  · exact ht

variable (e now) in
/-- A step of a client lets in the backups of its task. -/
theorem steps_step (w : World β) (t : Task) (ts : List Task) :
    Scheduler.Steps (fun b => t.Carries b) w.scheduler (step e now w (t :: ts)).1.scheduler := by
  cases t with
  | act a =>
    have h := steps_act e now w a
    obtain ⟨⟨w', o⟩, hw'⟩ : ∃ q, act e now w a = q := ⟨_, rfl⟩
    rw [hw'] at h
    rw [step, hw']
    cases o <;> exact h
  | routine c delay x =>
    rw [step_of_forall_ne w (by simp)]
    exact steps_takeUp e now w _
  | adhoc routine =>
    rw [step_of_forall_ne w (by simp)]
    exact steps_takeUp e now w _

end World

/-! ## Events -/

/-- A world, and what the calls that are under way have ahead of them. -/
structure Site (β : Type) where
  world : World β := {}
  clients : List (List Task) := []

/-- What can happen at a site. -/
inductive Event
  | start
  | cancel
  | drop
  | shutdown
  /-- Asks for a job to be removed. -/
  | delete (key : Key)
  /-- Asks for all jobs to be removed. -/
  | clear
  /-- Asks for the registered keys. -/
  | keys
  /-- Asks for a registered job. -/
  | info (key : Key)
  /-- Lets the loop take a turn. -/
  | turn (now : Instant)
  | beginRun (id : Nat)
  | finishRun (id : Nat) (panicked : Bool) (took : Span)
  /-- Calls for the routines of a configuration to be scheduled. -/
  | schedule (c : Config) (delay : Span)
  /-- Calls for the schedule to be replaced by that of a configuration. -/
  | apply (c : Config) (delay : Span)
  /-- Calls for a full backup of a routine out of turn. -/
  | adhoc (routine : String)
  /-- Lets a client take its next step. -/
  | client (i : Nat) (now : Instant)

namespace Site

variable {β : Type}

/-- The site with another scheduler. -/
def withScheduler (s : Site β) (f : Scheduler → Scheduler) : Site β :=
  { s with world := { s.world with scheduler := f s.world.scheduler } }

/-- Sends a command without waiting for the answer. -/
def submit (s : Site β) (c : Command) : Site β :=
  s.withScheduler fun r => match r.submit c with
    | .ok (r, _) => r
    | .error _ => r

/-- Adds a call. -/
def call (s : Site β) (ts : List Task) : Site β := { s with clients := s.clients ++ [ts] }

/-- The site after an event; an event that is not possible changes nothing. -/
def happen (e : Engine β) (s : Site β) : Event → Site β
  | .start => s.withScheduler fun r => match r.start with
    | .ok r => r
    | .error _ => r
  | .cancel => s.withScheduler Scheduler.cancel
  | .drop => s.withScheduler Scheduler.drop
  | .shutdown => s.withScheduler fun r => match r.beginShutdown with
    | .ok r => r
    | .error _ => r
  | .delete key => s.submit (.delete key)
  | .clear => s.submit .clear
  | .keys => s.submit .keys
  | .info key => s.submit (.info key)
  | .turn now => s.withScheduler fun r => (r.turn now).1
  | .beginRun id => s.withScheduler fun r => r.beginRun id
  | .finishRun id panicked took => s.withScheduler fun r => r.finishRun id panicked took
  | .schedule c delay =>
    match Plan.build c with
    | .ok p => s.call (World.installTasks c delay p)
    | .error _ => s
  | .apply c delay =>
    match Plan.build c with
    | .ok p => s.call (World.applyTasks c delay p)
    | .error _ => s
  | .adhoc routine => s.call [.adhoc routine]
  | .client i now =>
    match s.clients[i]? with
    | none => s
    | some ts =>
      match World.step e now s.world ts with
      | (w, .inr ts) => { world := w, clients := s.clients.set i ts }
      | (w, .inl _) => { world := w, clients := s.clients.set i [] }

/-- The site after events in a row. -/
def run (e : Engine β) (s : Site β) (evs : List Event) : Site β := evs.foldl (happen e) s

/-- A backup that a client has ahead of it. -/
def Ahead (s : Site β) (b : Backup) : Prop := ∃ ts ∈ s.clients, ∃ t ∈ ts, t.Carries b

theorem steps_submit (s : Site β) (c : Command) (hc : ∀ b, ¬ c.Carries b) (A : Backup → Prop) :
    Scheduler.Steps A s.world.scheduler (s.submit c).world.scheduler := by
  simp only [submit, withScheduler]
  cases h : s.world.scheduler.submit c with
  | error err => exact .refl
  | ok q => exact .single (.submit h fun b hb => absurd hb (hc b))

/-- To the scheduler an event is a sequence of its own steps, in which only backups come in that a client had ahead. -/
theorem steps_happen (e : Engine β) (s : Site β) (ev : Event) :
    Scheduler.Steps s.Ahead s.world.scheduler (happen e s ev).world.scheduler := by
  cases ev with
  | start =>
    simp only [happen, withScheduler]
    cases h : s.world.scheduler.start with
    | error err => exact .refl
    | ok r => exact .single (.start h)
  | cancel => exact .single (.cancel _)
  | drop => exact .single (.drop _)
  | shutdown =>
    simp only [happen, withScheduler]
    cases h : s.world.scheduler.beginShutdown with
    | error err => exact .refl
    | ok r => exact .single (.shutdown h)
  | delete key => exact steps_submit s _ (fun _ => id) _
  | clear => exact steps_submit s _ (fun _ => id) _
  | keys => exact steps_submit s _ (fun _ => id) _
  | info key => exact steps_submit s _ (fun _ => id) _
  | turn now => exact .single (.turn _ now)
  | beginRun id => exact .single (.beginRun _ id)
  | finishRun id panicked took => exact .single (.finishRun _ id panicked took)
  | schedule c delay =>
    simp only [happen]
    split <;> exact .refl
  | apply c delay =>
    simp only [happen]
    split <;> exact .refl
  | adhoc routine => exact .refl
  | client i now =>
    simp only [happen]
    cases hi : s.clients[i]? with
    | none => exact .refl
    | some ts =>
      cases ts with
      | nil => exact .refl
      | cons t ts =>
        have h := World.steps_step e now s.world t ts
        have hmem : t :: ts ∈ s.clients := List.mem_of_getElem? hi
        have hahead : ∀ b, t.Carries b → s.Ahead b := fun b hb => ⟨_, hmem, t, List.mem_cons_self, hb⟩
        have h' := Relation.ReflTransGen.mono (fun _ _ => Scheduler.Step.mono hahead) _ _ h
        obtain ⟨⟨w, next⟩, hw⟩ : ∃ q, World.step e now s.world (t :: ts) = q := ⟨_, rfl⟩
        rw [hw] at h'
        simp only [hw]
        cases next <;> exact h'

end Site

end Rota
