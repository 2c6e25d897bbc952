import Rota.Proofs.Answer
import Rota.Proofs.Confined

/-!
# What is left after a clear

When the schedule is cleared, everything that is registered, recorded or waiting in the inbox goes. From then on all
that is handed over is new or was ahead of a client.

- a property of jobs that holds of all that a site holds and has ahead, and of the backups of new handlers, holds of
  every job that is handed over from then on (`Site.confined_happen`, `Site.confined_run`);
- after a clear this is the property of being new or ahead of a client (`Site.confined_of_clear`).
-/

namespace Rota

variable {P : Job → Prop} {base n : Nat} {now : Instant}

/-! ## Events -/

/-- The calls of an event have no job ahead of them yet. -/
theorem Event.job?_of_call? {ev : Event} {ts : List Task} (h : ev.call? = some ts) : ∀ t ∈ ts, t.job? = none := by
  have hinstall : ∀ (c : Config) (delay : Span) (p : Plan), ∀ t ∈ World.installTasks c delay p, t.job? = none := by
    intro c delay p t ht
    obtain ⟨x, -, rfl⟩ := List.mem_map.1 ht
    rfl
  intro t ht
  cases ev with
  | schedule c delay =>
    obtain ⟨p, -, rfl⟩ := Option.map_eq_some_iff.1 h
    exact hinstall c delay p t ht
  | apply c delay =>
    obtain ⟨p, -, rfl⟩ := Option.map_eq_some_iff.1 h
    rw [World.applyTasks, List.mem_cons, List.mem_cons] at ht
    rcases ht with rfl | rfl | ht
    · rfl
    · rfl
    · exact hinstall c delay p t ht
  | adhoc routine =>
    cases h
    cases List.mem_singleton.1 ht
    rfl
  | _ => cases h

namespace Site

variable {β : Type} {e : Engine β} {s : Site β} {ev : Event}

/-- The jobs that clients have ahead of them, to be registered or recorded. -/
def jobsAhead (s : Site β) : List Job := s.clients.flatten.filterMap Task.job?

theorem mem_jobsAhead_iff {j : Job} : j ∈ s.jobsAhead ↔ ∃ ts ∈ s.clients, ∃ t ∈ ts, t.job? = some j := by
  simp only [jobsAhead, List.mem_filterMap, List.mem_flatten]
  constructor
  · rintro ⟨t, ⟨ts, hts, ht⟩, hj⟩
    exact ⟨ts, hts, t, ht, hj⟩
  · rintro ⟨ts, hts, t, ht, hj⟩
    exact ⟨t, ⟨ts, hts, ht⟩, hj⟩

/-- All jobs at a scheduler and ahead of its clients have a property, and at least a number of handlers is made. -/
structure Confined (P : Job → Prop) (base n : Nat) (s : Site β) : Prop where
  scheduler : s.world.scheduler.Confined P base
  ahead : ∀ j ∈ s.jobsAhead, P j
  handlers : n ≤ s.world.handlers

variable (hnew : ∀ b : Backup, n ≤ b.handler → P (.backup b))
include hnew

theorem Confined.client (h : s.Confined P base n) (hs : s.Ordered) (i : Nat) (now : Instant) :
    (s.happen e (.client i now)).Confined P base n := by
  cases hi : s.clients[i]? with
  | none => rw [happen_client_idle (.inl hi)]; exact h
  | some ts =>
    cases ts with
    | nil => rw [happen_client_idle (.inr hi)]; exact h
    | cons t ts =>
      have hclient : ∀ t' ∈ t :: ts, t'.Parsed ∧ ∀ j ∈ t'.job?, P j := fun t' ht' =>
        ⟨hs.clients _ (List.mem_of_getElem? hi) t' ht',
          fun j hj => h.ahead j (mem_jobsAhead_iff.2 ⟨_, List.mem_of_getElem? hi, t', ht', hj⟩)⟩
      have hrest : ∀ t' ∈ ts, ∀ j ∈ t'.job?, P j := fun t' ht' => (hclient t' (List.mem_cons_of_mem _ ht')).2
      -- It is enough to look at the world and at what the client has ahead of it next.
      suffices hstep : (World.step e now s.world (t :: ts)).1.scheduler.Confined P base ∧
          n ≤ (World.step e now s.world (t :: ts)).1.handlers ∧
          ∀ t' ∈ (World.step e now s.world (t :: ts)).2.elim (fun _ => []) id, ∀ j ∈ t'.job?, P j by
        rw [happen_client hi]
        refine ⟨hstep.1, fun j hj => ?_, hstep.2.1⟩
        obtain ⟨ts', hts', t', ht', hj⟩ := mem_jobsAhead_iff.1 hj
        rcases List.mem_or_eq_of_mem_set hts' with hts' | rfl
        · exact h.ahead j (mem_jobsAhead_iff.2 ⟨ts', hts', t', ht', hj⟩)
        · exact hstep.2.2 t' ht' j hj
      obtain ⟨hparsed, hjob⟩ := hclient t List.mem_cons_self
      by_cases hact : ∃ a, t = .act a
      · obtain ⟨a, rfl⟩ := hact
        have hhandlers : (World.act e now s.world a).1.handlers = s.world.handlers := by
          cases a with
          | request c =>
            obtain ⟨⟨r, reply⟩, hr⟩ : ∃ q, s.world.scheduler.request now c = q := ⟨_, rfl⟩
            simp only [World.act, World.request, hr]
            cases reply <;> rfl
          | _ => rfl
        rw [World.step_act]
        refine ⟨World.confined_act h.scheduler hs.scheduler hparsed hjob, hhandlers ▸ h.handlers, ?_⟩
        cases (World.act e now s.world a).2 with
        | done => exact hrest
        | _ => simp
      · rw [World.step_of_forall_ne _ fun a ha => hact ⟨a, ha⟩]
        obtain ⟨hconfined, hhandlers, has⟩ := World.confined_takeUp (e := e) h.scheduler
          (fun b hb => hnew b (Nat.le_trans h.handlers hb)) hjob
        refine ⟨hconfined, Nat.le_trans h.handlers hhandlers, ?_⟩
        cases hacts : (World.takeUp e now s.world t).2 with
        | none => simp
        | some as =>
          intro t' ht'
          rcases List.mem_append.1 ht' with ht' | ht'
          · obtain ⟨a, ha, rfl⟩ := List.mem_map.1 ht'
            exact has as hacts a ha
          · exact hrest t' ht'

/-- An event brings in no job but the backups of a handler it makes. -/
theorem confined_happen (h : s.Confined P base n) (hs : s.Ordered) (ev : Event) :
    (s.happen e ev).Confined P base n := by
  cases hmove : ev.move? with
  | some m =>
    rw [happen_of_move? hmove]
    refine ⟨h.scheduler.move hs.scheduler (fun c hc => ?_) (fun r hr => ?_), h.ahead, h.handlers⟩
    · subst hc
      cases ev <;> cases hmove <;> rfl
    · subst hr
      cases ev <;> cases hmove
  | none =>
    by_cases hclient : ∃ i now, ev = .client i now
    · obtain ⟨i, now, rfl⟩ := hclient
      exact h.client hnew hs i now
    · rcases happen_of_call (e := e) (s := s) hmove (fun i now hev => hclient ⟨i, now, hev⟩) with
        ⟨ts, hts, hcall⟩ | hcall
      · rw [hcall]
        refine ⟨h.scheduler, fun j hj => ?_, h.handlers⟩
        obtain ⟨ts', hts', t, ht, hj⟩ := mem_jobsAhead_iff.1 hj
        rcases List.mem_append.1 hts' with hts' | hts'
        · exact h.ahead j (mem_jobsAhead_iff.2 ⟨ts', hts', t, ht, hj⟩)
        · cases List.mem_singleton.1 hts'
          rw [Event.job?_of_call? hts t ht] at hj
          cases hj
      · rw [hcall]
        exact h

theorem confined_run (h : s.Confined P base n) (hs : s.Ordered) (evs : List Event) :
    (s.run e evs).Confined P base n := by
  induction evs generalizing s with
  | nil => exact h
  | cons ev evs ih => exact ih (confined_happen hnew h hs ev) (ordered_happen hs ev)

end Site

/-! ## After a clear -/

/-- A backup whose handler was made after the first handlers, up to a number. -/
def Job.IsNew (n : Nat) : Job → Prop
  | .backup b => n ≤ b.handler
  | .chore .. => False

instance (n : Nat) : DecidablePred (Job.IsNew n)
  | .backup b => inferInstanceAs (Decidable (n ≤ b.handler))
  | .chore .. => inferInstanceAs (Decidable False)

/-- A request to clear the schedule that succeeds leaves a loop that is ready and has nothing registered or recorded. -/
theorem World.clear_of_done {β : Type} {e : Engine β} {w : World β} (hw : w.scheduler.Ticketed)
    (h : (World.act e now w (.request .clear)).2 = .done) :
    ∃ r : Scheduler, (World.act e now w (.request .clear)).1 = { w with scheduler := r } ∧ r.Ready ∧
      r.dispatcher.jobs = ∅ ∧ r.registry.details = ∅ := by
  obtain ⟨⟨r, reply⟩, hr⟩ : ∃ q, w.scheduler.request now .clear = q := ⟨_, rfl⟩
  cases reply with
  | error err =>
    rw [World.act_request_error hr] at h
    cases h
  | ok answer =>
    obtain ⟨r', d, hready, hd, heq⟩ := Scheduler.request_of_ok hw (congrArg Prod.snd hr)
    rw [hr] at heq
    change r = _ at heq
    cases hd
    subst heq
    exact ⟨_, congrArg Prod.fst (World.act_request_ok hr), ⟨hready.running, hready.uncancelled, hready.idle⟩, rfl, rfl⟩

namespace Site

variable {β : Type} {e : Engine β} {s : Site β} {i : Nat} {ts : List Task}

/-- What a site is like right after the schedule was cleared for a client. -/
theorem happen_clear_spec (hs : s.world.scheduler.Ticketed) (hi : s.clients[i]? = some (.act (.request .clear) :: ts))
    (hclear : (World.act e now s.world (.request .clear)).2 = .done) :
    (s.happen e (.client i now)).world.Ready ∧ (s.happen e (.client i now)).world.jobs = ∅ ∧
      (s.happen e (.client i now)).world.details = ∅ ∧
      (s.happen e (.client i now)).world.handlers = s.world.handlers ∧
      (s.happen e (.client i now)).clients = s.clients.set i ts := by
  obtain ⟨r, hw, hready, hjobs, hdetails⟩ := World.clear_of_done hs hclear
  have hstep : World.step e now s.world (.act (.request .clear) :: ts) =
      ({ s.world with scheduler := r }, .inr ts) := by
    rw [World.step_act, hclear, hw]
  rw [happen_client hi, hstep]
  exact ⟨hready, hjobs, hdetails, rfl, rfl⟩

/-- After a clear all jobs about are new or ahead of a client. -/
theorem confined_of_clear (hs : s.world.scheduler.Ticketed) (hi : s.clients[i]? = some (.act (.request .clear) :: ts))
    (hclear : (World.act e now s.world (.request .clear)).2 = .done)
    (hsound : (s.happen e (.client i now)).world.scheduler.Sound) :
    (s.happen e (.client i now)).Confined
      (fun j => j.IsNew s.world.handlers ∨ j ∈ (s.happen e (.client i now)).jobsAhead)
      (s.happen e (.client i now)).world.scheduler.nextRun s.world.handlers := by
  obtain ⟨hready, hjobs, hdetails, hhandlers, -⟩ := happen_clear_spec hs hi hclear
  refine ⟨⟨⟨fun {k r} hr => ?_, fun {k x} hx => ?_⟩, fun x hx => ?_, fun r hr hbase => ?_⟩, fun j => .inr,
    Nat.le_of_eq hhandlers.symm⟩
  · change (s.happen e (.client i now)).world.jobs[k]? = some r at hr
    rw [hjobs] at hr
    simp at hr
  · change (s.happen e (.client i now)).world.details[k]? = some x at hx
    rw [hdetails] at hx
    simp at hx
  · rw [hready.idle] at hx
    cases hx
  · exact absurd (hsound.fresh r hr) (Nat.not_lt.2 hbase)

end Site

end Rota
