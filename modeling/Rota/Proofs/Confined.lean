import Rota.Proofs.Recorded
import Rota.Proofs.Removal

/-!
# Jobs that have a property

A property of jobs that holds of all that is registered, recorded, waiting in the inbox and in flight since some run
goes on to hold, as long as what is sent has it.

- a command and a pass bring no other job into a dispatcher (`Dispatcher.Confined.handle`,
  `Dispatcher.Confined.passFor`);
- whatever runs ran before or was handed over (`Scheduler.mem_runs_move`), so no move brings in another job
  (`Scheduler.Confined.move`);
- a client registers and records the jobs it has ahead and the backups of the handlers it makes (`World.confined_act`,
  `World.confined_takeUp`).
-/

namespace Rota

/-! ## Jobs on their way -/

/-- The job that a command registers. -/
def Command.job? : Command → Option Job
  | .schedule d _ => some d.job
  | _ => none

/-- The job that a task registers or records. -/
def Task.job? : Task → Option Job
  | .act (.request c) => c.job?
  | .act (.record _ d) => some d.job
  | _ => none

variable {P : Job → Prop} {base n : Nat} {now : Instant}

namespace Dispatcher

variable {d d' : Dispatcher}

/-- All registered and recorded jobs have a property. -/
structure Confined (P : Job → Prop) (d : Dispatcher) : Prop where
  registered : ∀ {k : Key} {r : Registration}, d.jobs[k]? = some r → P r.detail.job
  recorded : ∀ {k : Key} {x : Detail}, d.registry.details[k]? = some x → P x.job

theorem Confined.handle {c : Command} {reply : Except SchedulerError Answer} (hd : d.Confined P)
    (hc : ∀ j ∈ c.job?, P j) (h : d.handle now c = some (d', reply)) : d'.Confined P := by
  rcases handle_cases h with ⟨rfl, -⟩ | ⟨r, t, rfl, -, -, rfl, -⟩ | ⟨k', -, -, rfl, -⟩ | ⟨-, rfl, -⟩
  · exact hd
  · refine ⟨fun {k r'} hr' => ?_, hd.recorded⟩
    simp only [Dispatcher.enter, Std.ExtTreeMap.getElem?_insert] at hr'
    split at hr'
    · cases hr'
      exact hc _ rfl
    · exact hd.registered hr'
  · refine ⟨fun {k r'} hr' => ?_, fun {k x} hx => ?_⟩
    · rw [Std.ExtTreeMap.getElem?_erase] at hr'
      split at hr'
      · cases hr'
      · exact hd.registered hr'
    · simp only [Registry.remove, Std.ExtTreeMap.getElem?_erase] at hx
      split at hx
      · cases hx
      · exact hd.recorded hx
  · exact ⟨by simp [Dispatcher.clear], by simp [Dispatcher.clear, Registry.clear]⟩

/-- A timer pass brings in no job, however far it comes. -/
theorem Confined.passFor {m : Nat} (hd : d.Confined P) (htidy : d.Tidy) :
    (Dispatcher.passFor now m d).dispatcher.Confined P := by
  induction m generalizing d with
  | zero => exact hd
  | succ m ih =>
    rcases passFor_succ_cases htidy now m with ⟨hp, -⟩ | ⟨k, r, hr, -, ⟨hp, -⟩ | ⟨hp, -⟩⟩
    · rw [hp]
      exact hd
    · rw [hp]
      have hregistry : (d.settle k (r.fire now)).registry = d.registry := by cases r.fire now <;> rfl
      refine ih ⟨fun {k' r'} hr' => ?_, hregistry ▸ hd.recorded⟩ (htidy.settle hr)
      rw [getElem?_jobs_settle] at hr'
      split at hr'
      · rw [(Registration.fire_eq_some_iff.1 hr').1]
        exact hd.registered hr
      · exact hd.registered hr'
    · rw [hp]
      exact ⟨hd.registered, hd.recorded⟩

end Dispatcher

/-! ## Schedulers -/

namespace Scheduler

variable {s s' : Scheduler} {c : Command} {m : Move}

/-- A run that is launched is one of the jobs handed over, and has a new number. -/
theorem mem_runs_launch {xs : List Dispatch} {x : Run} (hx : x ∈ (s.launch xs).runs) :
    x ∈ s.runs ∨ ∃ y ∈ xs, x.detail = y.detail := by
  induction xs generalizing s with
  | nil => exact .inl hx
  | cons y xs ih =>
    rcases ih hx with hold | ⟨z, hz, heq⟩
    · rcases List.mem_append.1 hold with hold | hnew
      · exact .inl hold
      · cases List.mem_singleton.1 hnew
        exact .inr ⟨y, List.mem_cons_self, rfl⟩
    · exact .inr ⟨z, List.mem_cons_of_mem _ hz, heq⟩

theorem mem_runs_setStatus {id : Nat} {status : RunStatus} {x : Run} (hx : x ∈ (s.setStatus id status).runs) :
    ∃ r ∈ s.runs, r.id = x.id ∧ r.detail = x.detail := by
  obtain ⟨r, hr, rfl⟩ := List.mem_map.1 hx
  refine ⟨r, hr, ?_⟩
  split <;> exact ⟨rfl, rfl⟩

/-- A turn that makes no timer pass launches nothing. -/
theorem mem_runs_turn {x : Run} (h : s.deed? ≠ some .pass) (hx : x ∈ (s.turn now).1.runs) : x ∈ s.runs := by
  cases hdeed : s.deed? with
  | none =>
    rcases turn_of_idle hdeed now with ⟨-, ht⟩ | ⟨id, panicked, -, ⟨-, ht⟩ | ⟨-, ht⟩⟩ | ⟨-, -, ht⟩ | ⟨-, ht⟩ <;>
      rw [ht] at hx
    · exact hx
    · exact List.mem_of_mem_filter hx
    · exact List.mem_of_mem_filter hx
    · exact hx
    · exact hx
  | some y =>
    cases y with
    | command c => rcases turn_of_command hdeed now with ⟨_, _, _, _, -, -, ht⟩ | ⟨-, ht, -⟩ <;> rwa [ht] at hx
    | pass => exact absurd hdeed h

/-- A run in flight after a move was there before, or the move handed its job over. -/
theorem mem_runs_move {x : Run} (hx : x ∈ (s.move m).runs) :
    (∃ r ∈ s.runs, r.id = x.id ∧ r.detail = x.detail) ∨ ∃ y ∈ s.handedOver m, x.detail = y.detail := by
  have hsame : x ∈ s.runs → ∃ r ∈ s.runs, r.id = x.id ∧ r.detail = x.detail := fun h => ⟨x, h, rfl, rfl⟩
  cases m with
  | turn now =>
    by_cases hdeed : s.deed? = some .pass
    · change x ∈ (s.turn now).1.runs at hx
      rw [turn_of_pass hdeed, runs_takePass] at hx
      rw [handedOver_of_pass hdeed]
      exact (mem_runs_launch hx).imp hsame id
    · exact .inl (hsame (mem_runs_turn hdeed hx))
  | beginRun id =>
    refine .inl ?_
    change x ∈ (s.beginRun id).runs at hx
    rcases beginRun_cases s id with h | ⟨guards, h⟩ | ⟨kind, h⟩ <;> rw [h] at hx
    · exact hsame hx
    · exact mem_runs_setStatus hx
    · exact mem_runs_setStatus hx
  | finishRun id panicked took =>
    refine .inl ?_
    change x ∈ (s.finishRun id panicked took).runs at hx
    rcases finishRun_cases s id panicked took with h | ⟨guards, p, h | h⟩ <;> rw [h] at hx
    · exact hsame hx
    · exact mem_runs_setStatus hx
    · exact mem_runs_setStatus hx
  | start =>
    refine .inl (hsame ?_)
    rcases move_start_cases s with h | ⟨-, h⟩ <;> rwa [h] at hx
  | shutdown =>
    refine .inl (hsame ?_)
    rcases move_shutdown_cases s with h | h <;> rwa [h] at hx
  | submit c =>
    refine .inl (hsame ?_)
    rcases move_submit_cases s c with ⟨-, h⟩ | ⟨-, h⟩ <;> rwa [h] at hx
  | _ => exact .inl (hsame hx)

/-- All jobs that are registered, recorded or waiting to be registered have a property, and so do those of the runs that
were handed over since the scheduler gave out a number. -/
structure Confined (P : Job → Prop) (base : Nat) (s : Scheduler) : Prop where
  dispatcher : s.dispatcher.Confined P
  waiting : ∀ x ∈ s.inbox, ∀ j ∈ x.2.job?, P j
  launched : ∀ r ∈ s.runs, base ≤ r.id → P r.detail.job

/-- What is handed over is registered before. -/
theorem Confined.launched_move (h : s.Confined P base) (hs : s.Ordered) (m : Move) :
    ∀ r ∈ (s.move m).runs, base ≤ r.id → P r.detail.job := by
  intro x hx hbase
  rcases mem_runs_move hx with ⟨r, hr, hid, hdetail⟩ | ⟨y, hy, hdetail⟩
  · rw [← hdetail]
    exact h.launched r hr (hid ▸ hbase)
  · obtain ⟨-, r, hr, rfl⟩ := exists_of_mem_handedOver hs hy
    rw [hdetail]
    exact h.dispatcher.registered hr

/-- What leaves the stores alone brings in no job. -/
theorem Confined.of_same (h : s.Confined P base) (hsame : SameStores s s')
    (hlaunched : ∀ r ∈ s'.runs, base ≤ r.id → P r.detail.job) : s'.Confined P base := by
  have hregistry : s'.dispatcher.registry = s.dispatcher.registry := hsame.registry
  refine ⟨⟨hsame.jobs ▸ h.dispatcher.registered, hregistry ▸ h.dispatcher.recorded⟩, fun x hx => ?_, hlaunched⟩
  rcases hsame.inbox with hi | hi
  · exact h.waiting x (hi ▸ hx)
  · rw [hi] at hx
    cases hx

theorem Confined.turn (h : s.Confined P base) (hs : s.Ordered) (now : Instant) : (s.turn now).1.Confined P base := by
  have hlaunched := h.launched_move hs (.turn now)
  cases hdeed : s.deed? with
  | none => exact h.of_same (sameStores_turn hdeed now) hlaunched
  | some x =>
    refine ⟨?_, fun x hx => h.waiting x (mem_inbox_turn hx), hlaunched⟩
    cases x with
    | command c =>
      obtain ⟨ticket, hmem⟩ := exists_mem_inbox hdeed
      rcases turn_of_command hdeed now with ⟨ticket', inbox, d, reply, -, hd, ht⟩ | ⟨-, ht, -⟩
      · have hconfined := h.dispatcher.handle (h.waiting _ hmem) hd
        rw [ht]
        exact ⟨hconfined.registered, hconfined.recorded⟩
      · rw [ht]
        exact h.dispatcher
    | pass =>
      have hphase : s.phase ≠ .broken := by simp [(running_of_deed hdeed).1]
      have hconfined : (s.dispatcher.pass now).dispatcher.Confined P := h.dispatcher.passFor (hs.tidy hphase)
      obtain ⟨noted, hdispatcher, -⟩ := dispatcher_takePass s now
      rw [turn_of_pass hdeed, hdispatcher]
      exact ⟨hconfined.registered, hconfined.recorded⟩

theorem Confined.submit {ticket : Nat} (h : s.Confined P base) (hc : ∀ j ∈ c.job?, P j)
    (hsubmit : s.submit c = .ok (s', ticket)) : s'.Confined P base := by
  unfold Scheduler.submit at hsubmit
  split at hsubmit <;> cases hsubmit
  refine ⟨h.dispatcher, fun x hx => ?_, h.launched⟩
  rcases List.mem_append.1 hx with hx | hx
  · exact h.waiting x hx
  · cases List.mem_singleton.1 hx
    exact hc

/-- A move that sends no job brings in none. -/
theorem Confined.move (h : s.Confined P base) (hs : s.Ordered) (hsubmit : ∀ c, m = .submit c → c.job? = none)
    (hregistry : ∀ r, m ≠ .registry r) : (s.move m).Confined P base := by
  have hlaunched := h.launched_move hs m
  cases m with
  | turn now => exact h.turn hs now
  | submit c =>
    have hc : ∀ j ∈ c.job?, P j := by simp [hsubmit c rfl]
    unfold Scheduler.move
    dsimp only
    split
    · exact h.submit hc ‹_›
    · exact h
  | registry r => exact absurd rfl (hregistry r)
  | _ => exact h.of_same (sameStores_move (by simp) (by simp) (by simp)) hlaunched

theorem Confined.awaitReply (h : s.Confined P base) (hs : s.Ordered) (ticket k : Nat) :
    (awaitReply now ticket k s).1.Confined P base := by
  induction k generalizing s with
  | zero => exact h
  | succ k ih =>
    have hturn := h.turn hs now
    have hordered := hs.turn now
    obtain ⟨⟨s', replies⟩, ht⟩ : ∃ q, s.turn now = q := ⟨_, rfl⟩
    rw [ht] at hturn hordered
    simp only [Scheduler.awaitReply, ht]
    cases replies.lookup ticket with
    | some reply => exact hturn
    | none => exact ih hturn hordered

/-- A request brings in no job but its own. -/
theorem Confined.request (h : s.Confined P base) (hs : s.Ordered) (hparsed : c.Parsed) (hc : ∀ j ∈ c.job?, P j) :
    (s.request now c).1.Confined P base := by
  unfold Scheduler.request
  cases hsubmit : s.submit c with
  | error err => exact h
  | ok q =>
    obtain ⟨s', ticket⟩ := q
    have hordered : (s.move (.submit c)).Ordered := hs.move hparsed
    rw [Scheduler.move, hsubmit] at hordered
    exact (h.submit hc hsubmit).awaitReply hordered ticket _

end Scheduler

/-! ## Clients -/

namespace World

variable {β : Type} {e : Engine β} {w : World β}

theorem confined_act (h : w.scheduler.Confined P base) (hw : w.scheduler.Ordered) {a : Act}
    (hparsed : (Task.act a).Parsed) (ha : ∀ j ∈ (Task.act a).job?, P j) :
    (act e now w a).1.scheduler.Confined P base := by
  cases a with
  | request c =>
    have hrequest : (w.scheduler.request now c).1.Confined P base := h.request hw hparsed ha
    obtain ⟨⟨s, reply⟩, hs⟩ : ∃ q, w.scheduler.request now c = q := ⟨_, rfl⟩
    rw [hs] at hrequest
    simp only [act, World.request, hs]
    cases reply <;> exact hrequest
  | rebind c => exact h
  | record k d =>
    refine ⟨⟨h.dispatcher.registered, fun {k' x} hx => ?_⟩, h.waiting, h.launched⟩
    change (w.scheduler.registry.details.insert k d)[k']? = some x at hx
    rw [Std.ExtTreeMap.getElem?_insert] at hx
    split at hx
    · cases hx
      exact ha _ rfl
    · exact h.dispatcher.recorded hx

/-- A client that takes up a task goes on with a job of it, a recorded job or a backup of a new handler. -/
theorem confined_takeUp (h : w.scheduler.Confined P base) (hnew : ∀ b : Backup, w.handlers ≤ b.handler → P (.backup b))
    {t : Task} (ht : ∀ j ∈ t.job?, P j) :
    (takeUp e now w t).1.scheduler.Confined P base ∧ w.handlers ≤ (takeUp e now w t).1.handlers ∧
      ∀ as, (takeUp e now w t).2 = some as → ∀ a ∈ as, ∀ j ∈ (Task.act a).job?, P j := by
  cases t with
  | act a =>
    refine ⟨h, Nat.le_refl _, fun as has a' ha' => ?_⟩
    cases has
    cases List.mem_singleton.1 ha'
    exact ht
  | routine c delay x =>
    simp only [takeUp]
    split
    · refine ⟨h, Nat.le_refl _, fun as has a ha => ?_⟩
      cases has
      cases ha
    · refine ⟨h, Nat.le_succ _, fun as has a ha j hj => ?_⟩
      obtain ⟨catchUp, -, rfl⟩ := Option.map_eq_some_iff.1 has
      obtain ⟨d, kind, hjob, ⟨t, rfl⟩ | rfl⟩ := mem_registrations ha
      · cases hj
        rw [hjob]
        exact hnew _ (Nat.le_refl _)
      · cases hj
        rw [hjob]
        exact hnew _ (Nat.le_refl _)
  | adhoc routine =>
    obtain ⟨hdetails, hderived⟩ := deriveAdhoc_spec w.scheduler.registry routine now
    refine ⟨⟨⟨h.dispatcher.registered, fun {k x} hx => ?_⟩, h.waiting, h.launched⟩, Nat.le_refl _,
      fun as has a ha j hj => ?_⟩
    · change (w.scheduler.registry.deriveAdhoc routine now).1.details[k]? = some x at hx
      rw [hdetails] at hx
      exact h.dispatcher.recorded hx
    · simp only [takeUp, Option.some.injEq] at has
      subst has
      obtain ⟨d, hd, rfl⟩ := List.mem_map.1 ha
      obtain ⟨d', hd', hjob⟩ := hderived d (Option.mem_toList.1 hd)
      cases hj
      rw [hjob]
      exact h.dispatcher.recorded hd'

end World

end Rota
