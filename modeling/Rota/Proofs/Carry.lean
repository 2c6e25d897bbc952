import Rota.Proofs.Flight

/-!
# Backups in circulation

A backup is in circulation at a site while it is registered or recorded, while a command that registers it waits, while
a run of it is not over, or while a client has its registration ahead (`Site.Carries`).

- no step of a scheduler brings a backup into circulation unless it comes in from outside (`carries_steps`);
- at a site only a new handler brings backups into circulation, and they are its own (`carries_happen`).
-/

namespace Rota

variable {b : Backup} {now : Instant}

/-! ## Dispatchers -/

namespace Dispatcher

variable {d d' : Dispatcher}

/-- A dispatcher that has a backup registered or recorded. -/
def Carries (b : Backup) (d : Dispatcher) : Prop :=
  (∃ (k : Key) (r : Registration), d.jobs[k]? = some r ∧ r.detail.job = .backup b) ∨ d.registry.Carries b

theorem carries_insert {jobs : Std.ExtTreeMap Key Registration} {key : Key} {r : Registration}
    (h : ∃ (k : Key) (r' : Registration), (jobs.insert key r)[k]? = some r' ∧ r'.detail.job = .backup b) :
    r.detail.job = .backup b ∨ ∃ (k : Key) (r' : Registration), jobs[k]? = some r' ∧ r'.detail.job = .backup b := by
  obtain ⟨k, r', hr', hb⟩ := h
  rw [Std.ExtTreeMap.getElem?_insert] at hr'
  split at hr'
  · cases hr'
    exact .inl hb
  · exact .inr ⟨k, r', hr', hb⟩

theorem carries_erase {jobs : Std.ExtTreeMap Key Registration} {key : Key}
    (h : ∃ (k : Key) (r' : Registration), (jobs.erase key)[k]? = some r' ∧ r'.detail.job = .backup b) :
    ∃ (k : Key) (r' : Registration), jobs[k]? = some r' ∧ r'.detail.job = .backup b := by
  obtain ⟨k, r', hr', hb⟩ := h
  rw [Std.ExtTreeMap.getElem?_erase] at hr'
  split at hr'
  · cases hr'
  · exact ⟨k, r', hr', hb⟩

/-- A command brings in no backup but the one it registers. -/
theorem carries_handle {c : Command} {reply : Except SchedulerError Answer} (h : d.handle now c = some (d', reply))
    (hb : d'.Carries b) : d.Carries b ∨ c.Carries b := by
  cases c with
  | schedule detail trigger =>
    simp only [handle, schedule] at h
    split at h
    · cases h
      exact .inl hb
    · split at h
      · cases h
        rcases hb with hb | hb
        · exact (carries_insert hb).symm.imp .inl id
        · exact .inl (.inr hb)
      · cases h
        exact .inl hb
      · cases h
  | delete key =>
    simp only [handle, delete] at h
    split at h
    · cases h
      refine .inl (hb.imp carries_erase ?_)
      rintro ⟨k, x, hx, hxb⟩
      rw [Registry.remove, Std.ExtTreeMap.getElem?_erase] at hx
      split at hx
      · cases hx
      · exact ⟨k, x, hx, hxb⟩
    · cases h
      exact .inl hb
  | clear =>
    cases h
    rcases hb with ⟨k, r, hr, -⟩ | ⟨k, x, hx, -⟩
    · simp [clear] at hr
    · simp [clear, Registry.clear] at hx
  | keys =>
    cases h
    exact .inl hb
  | info key =>
    cases h
    exact .inl hb

/-- A timer pass hands over and keeps only backups that were registered or recorded before. -/
theorem carries_passFor (n : Nat) (d : Dispatcher)
    (h : (passFor now n d).dispatcher.Carries b ∨ ∃ x ∈ (passFor now n d).fired, x.detail.job = .backup b) :
    d.Carries b := by
  induction n generalizing d with
  | zero => exact h.elim id (by simp [passFor])
  | succ n ih =>
    cases he : d.earliest? with
    | none =>
      simp only [passFor, he] at h
      exact h.elim id (by simp)
    | some q =>
      obtain ⟨key, due⟩ := q
      simp only [passFor, he] at h
      split at h
      · exact h.elim id (by simp)
      cases hj : d.jobs[key]? with
      | none =>
        simp only [hj] at h
        exact ih { d with queue := d.queue.erase key } h
      | some r =>
        have hcarries : r.detail.job = .backup b → d.Carries b := fun hb => .inl ⟨key, r, hj, hb⟩
        obtain ⟨⟨trigger, answer⟩, ht⟩ : ∃ q, r.trigger.next now = q := ⟨_, rfl⟩
        simp only [hj, ht] at h
        cases answer with
        | due next =>
          have hrest := ih { d with
            queue := (d.queue.erase key).insert key next
            jobs := d.jobs.insert key ⟨r.detail, trigger, next⟩
            metrics := countFired d.metrics }
          simp only [Pass.after, List.mem_cons, exists_eq_or_imp] at h
          rcases h with hb | hb | hb
          · exact (hrest (.inl hb)).elim (fun hi => (carries_insert hi).elim hcarries .inl) .inr
          · exact hcarries hb
          · exact (hrest (.inr hb)).elim (fun hi => (carries_insert hi).elim hcarries .inl) .inr
        | refused err =>
          have hrest := ih { d with
            queue := d.queue.erase key
            jobs := d.jobs.erase key
            metrics := countFired d.metrics }
          simp only [Pass.after, List.mem_cons, exists_eq_or_imp] at h
          rcases h with hb | hb | hb
          · exact (hrest (.inl hb)).imp carries_erase id
          · exact hcarries hb
          · exact (hrest (.inr hb)).imp carries_erase id
        | overrun => exact h.elim id (by simp)

end Dispatcher

/-! ## Schedulers -/

namespace Scheduler

variable {A : Backup → Prop} {s s' : Scheduler}

/-- A scheduler where a backup is registered or recorded, where a command that registers it waits, or where a run of it
is not over. -/
def Carries (b : Backup) (s : Scheduler) : Prop :=
  s.dispatcher.Carries b ∨ (∃ q ∈ s.inbox, q.2.Carries b) ∨ ∃ r ∈ s.runs, r.detail.job = .backup b ∧ r.ended? = none

theorem carries_launch {xs : List Dispatch} (h : (s.launch xs).Carries b) :
    s.Carries b ∨ ∃ x ∈ xs, x.detail.job = .backup b := by
  induction xs generalizing s with
  | nil => exact .inl h
  | cons x xs ih =>
    rcases ih h with (hb | hb | ⟨r, hr, hb⟩) | ⟨y, hy, hb⟩
    · exact .inl (.inl hb)
    · exact .inl (.inr (.inl hb))
    · rcases List.mem_append.1 hr with hr | hr
      · exact .inl (.inr (.inr ⟨r, hr, hb⟩))
      · cases List.mem_singleton.1 hr
        exact .inr ⟨x, List.mem_cons_self, hb.1⟩
    · exact .inr ⟨y, List.mem_cons_of_mem _ hy, hb⟩

theorem carries_takeCommand {ticket : Nat} {c : Command} (h : (s.takeCommand now ticket c).1.Carries b) :
    s.Carries b ∨ c.Carries b := by
  unfold takeCommand at h
  cases hd : s.dispatcher.handle now c with
  | none =>
    rw [hd] at h
    rcases h with hb | ⟨q, hq, -⟩ | hb
    · exact .inl (.inl hb)
    · cases hq
    · exact .inl (.inr (.inr hb))
  | some q =>
    obtain ⟨d, reply⟩ := q
    rw [hd] at h
    rcases h with hb | hb | hb
    · exact (Dispatcher.carries_handle hd hb).imp .inl id
    · exact .inl (.inr (.inl hb))
    · exact .inl (.inr (.inr hb))

theorem carries_takePass (h : (s.takePass now).1.Carries b) : s.Carries b := by
  have hlaunch : (({ s with dispatcher := (s.dispatcher.pass now).dispatcher } : Scheduler).launch
      (s.dispatcher.pass now).fired).Carries b := by
    unfold takePass at h
    dsimp only at h
    split at h
    · rcases h with hb | ⟨q, hq, -⟩ | hb
      · exact .inl hb
      · cases hq
      · exact .inr (.inr hb)
    · exact h
  rcases carries_launch hlaunch with (hb | hb) | hb
  · exact .inl (Dispatcher.carries_passFor _ _ (.inl hb))
  · exact .inr hb
  · exact .inl (Dispatcher.carries_passFor _ _ (.inr hb))

theorem carries_join (id : Nat) (panicked : Bool) (h : (s.join id panicked).Carries b) : s.Carries b := by
  rcases h with hb | hb | ⟨r, hr, hb⟩
  · exact .inl hb
  · exact .inr (.inl hb)
  · exact .inr (.inr ⟨r, List.mem_of_mem_filter hr, hb⟩)

theorem carries_turn (h : (s.turn now).1.Carries b) : s.Carries b := by
  unfold turn at h
  split at h
  · unfold runningTurn at h
    split at h
    · exact h
    · split at h
      case h_1 ticket c inbox hi =>
        rcases carries_takeCommand h with (hb | ⟨q, hq, hb⟩ | hb) | hb
        · exact .inl hb
        · exact .inr (.inl ⟨q, hi ▸ List.mem_cons_of_mem _ hq, hb⟩)
        · exact .inr (.inr hb)
        · exact .inr (.inl ⟨(ticket, c), hi ▸ List.mem_cons_self, hb⟩)
      case h_2 =>
        split at h
        · exact h
        · split at h
          case h_1 id panicked _ => exact carries_join id panicked h
          case h_2 => exact carries_takePass h
  · unfold drainingTurn at h
    split at h
    case h_1 id panicked _ => exact carries_join id panicked h
    case h_2 =>
      split at h
      · rcases h with hb | ⟨q, hq, -⟩ | hb
        · exact .inl hb
        · cases hq
        · exact .inr (.inr hb)
      · exact h
  · exact h

/-- A change of the status of a run that is not over brings in nothing. -/
theorem carries_setStatus (hs : s.Sound) {id : Nat} {r : Run} (hr : s.run? id = some r) (hended : r.ended? = none)
    {status : RunStatus} (hruns : s'.runs = (s.setStatus id status).runs) (hinbox : s'.inbox = s.inbox)
    (hjobs : s'.dispatcher.jobs = s.dispatcher.jobs) (hregistry : s'.registry = s.registry) (h : s'.Carries b) :
    s.Carries b := by
  obtain ⟨l, l', hsplit, hset⟩ := exists_split_of_run? hs.ids hr
  rcases h with hb | hb | ⟨x, hx, hb⟩
  · rw [Dispatcher.Carries, hjobs] at hb
    rcases hb with hb | hb
    · exact .inl (.inl hb)
    · refine .inl (.inr ?_)
      rw [← registry, ← hregistry]
      exact hb
  · exact .inr (.inl (hinbox ▸ hb))
  · refine .inr (.inr ?_)
    rw [hruns, hset] at hx
    rcases List.mem_append.1 hx with hx | hx
    · exact ⟨x, hsplit ▸ List.mem_append_left _ hx, hb⟩
    · rcases List.mem_cons.1 hx with rfl | hx
      · exact ⟨r, List.mem_of_find?_eq_some hr, hb.1, hended⟩
      · exact ⟨x, hsplit ▸ List.mem_append_right _ (List.mem_cons_of_mem _ hx), hb⟩

theorem carries_beginRun (hs : s.Sound) {id : Nat} (h : (s.beginRun id).Carries b) : s.Carries b := by
  unfold beginRun at h
  split at h
  case h_2 => exact h
  case h_1 i key job fireTime hr =>
    cases job with
    | chore label panics => exact carries_setStatus hs hr rfl rfl rfl rfl rfl h
    | backup b' =>
      dsimp only at h
      split at h
      · exact carries_setStatus hs hr rfl rfl rfl rfl rfl h
      · exact carries_setStatus hs hr rfl rfl rfl rfl rfl h

theorem carries_finishRun (hs : s.Sound) {id : Nat} {panicked : Bool} {took : Span}
    (h : (s.finishRun id panicked took).Carries b) : s.Carries b := by
  unfold finishRun at h
  split at h
  case h_3 => exact h
  case h_2 i detail fireTime hr => exact carries_setStatus hs hr rfl rfl rfl rfl rfl h
  case h_1 i key job fireTime hr =>
    cases job with
    | chore label panics => cases panicked <;> exact carries_setStatus hs hr rfl rfl rfl rfl rfl h
    | backup b' => cases panicked <;> exact carries_setStatus hs hr rfl rfl rfl rfl rfl h

/-- A step brings in no backup but those that come in from outside. -/
theorem carries_step (h : Step A s s') (hs : s.Sound) (hb : s'.Carries b) : s.Carries b ∨ A b := by
  cases h with
  | start h =>
    unfold start at h
    split at h
    · cases h
      exact .inl hb
    · cases h
  | cancel => exact .inl hb
  | drop => exact .inl hb
  | shutdown h =>
    unfold beginShutdown at h
    split at h
    · cases h
      exact .inl hb
    · cases h
  | submit h hA =>
    unfold submit at h
    split at h
    · cases h
    · cases h
      rcases hb with hb | ⟨q, hq, hb⟩ | hb
      · exact .inl (.inl hb)
      · rcases List.mem_append.1 hq with hq | hq
        · exact .inl (.inr (.inl ⟨q, hq, hb⟩))
        · cases List.mem_singleton.1 hq
          exact .inr (hA b hb)
      · exact .inl (.inr (.inr hb))
    · cases h
  | turn now => exact .inl (carries_turn hb)
  | beginRun id => exact .inl (carries_beginRun hs hb)
  | finishRun id panicked took => exact .inl (carries_finishRun hs hb)
  | registry r hA =>
    rcases hb with (hb | hb) | hb
    · exact .inl (.inl (.inl hb))
    · exact (hA b hb).imp (fun hb => .inl (.inr hb)) id
    · exact .inl (.inr hb)

theorem carries_steps (h : Steps A s s') (hs : s.Sound) (hb : s'.Carries b) : s.Carries b ∨ A b := by
  induction h with
  | refl => exact .inl hb
  | tail hsteps hstep ih =>
    rcases carries_step hstep (sound_steps hsteps hs) hb with hb | hA
    · exact ih hb
    · exact .inr hA

end Scheduler

/-! ## Sites -/

/-- The registrations of a routine carry the backups of its handler. -/
theorem World.carries_registrations {n : Nat} {h : Handler} {catchUp : Bool} {delay : Span} {x : Plan.Entry} {a : Act}
    (ha : a ∈ registrations n h catchUp delay x) (hb : a.Carries b) : b.handler = n ∧ b.routine = h.routine := by
  obtain ⟨d, kind, hjob, ⟨t, rfl⟩ | rfl⟩ := mem_registrations ha
  · cases hjob.symm.trans hb
    exact ⟨rfl, rfl⟩
  · cases hjob.symm.trans hb
    exact ⟨rfl, rfl⟩

namespace Site

variable {β : Type} {e : Engine β} {s : Site β} {ev : Event}

/-- A backup is in circulation at the scheduler, or a client has it ahead. -/
def Carries (b : Backup) (s : Site β) : Prop := s.world.scheduler.Carries b ∨ s.Ahead b

/-- The routine whose handler an event makes, if it makes one. -/
def makes? (e : Engine β) (s : Site β) : Event → Option String
  | .client i _ =>
    match s.clients[i]? with
    | some (.routine c _ x :: _) => (e.handler c x.name s.world.bindings[x.name]?).toOption.map Handler.routine
    | _ => none
  | _ => none

/-- An act that follows a task carries what the task carried, what is recorded, or a backup of a new handler. -/
theorem carries_of_takeUp {w : World β} {t : Task} {as : List Act} (h : (World.takeUp e now w t).2 = some as)
    {a : Act} (ha : a ∈ as) (hb : a.Carries b) :
    t.Carries b ∨ w.scheduler.registry.Carries b ∨
      ∃ c delay x h, t = .routine c delay x ∧ e.handler c x.name w.bindings[x.name]? = .ok h ∧
        b.routine = h.routine ∧ b.handler = w.handlers := by
  cases t with
  | act a' =>
    cases h
    cases List.mem_singleton.1 ha
    exact .inl hb
  | routine c delay x =>
    cases hh : e.handler c x.name w.bindings[x.name]? with
    | error err =>
      simp only [World.takeUp, hh, Option.some.injEq] at h
      subst h
      cases ha
    | ok h' =>
      simp only [World.takeUp, hh, Option.map_eq_some_iff] at h
      obtain ⟨needed, -, rfl⟩ := h
      obtain ⟨hhandler, hroutine⟩ := World.carries_registrations ha hb
      exact .inr (.inr ⟨c, delay, x, h', rfl, hh, hroutine, hhandler⟩)
  | adhoc routine =>
    obtain ⟨-, hderived⟩ := World.deriveAdhoc_spec w.scheduler.registry routine now
    simp only [World.takeUp, Option.some.injEq] at h
    subst h
    obtain ⟨d, hd, rfl⟩ := List.mem_map.1 ha
    obtain ⟨d', hd', hjob⟩ := hderived d (Option.mem_toList.1 hd)
    exact .inr (.inl ⟨_, d', hd', hjob ▸ hb⟩)

/-- What a client has ahead after a step carries what it carried before, what is recorded, or a backup of a new handler.
-/
theorem carries_of_step {w : World β} {t : Task} {ts ts' : List Task} (h : (World.step e now w (t :: ts)).2 = .inr ts')
    {t' : Task} (ht' : t' ∈ ts') (hb : t'.Carries b) :
    (∃ t'' ∈ t :: ts, t''.Carries b) ∨ w.scheduler.registry.Carries b ∨
      ∃ c delay x h, t = .routine c delay x ∧ e.handler c x.name w.bindings[x.name]? = .ok h ∧
        b.routine = h.routine ∧ b.handler = w.handlers := by
  have hrest : t' ∈ ts → ∃ t'' ∈ t :: ts, t''.Carries b := fun hmem => ⟨t', List.mem_cons_of_mem _ hmem, hb⟩
  by_cases hact : ∃ a, t = .act a
  · obtain ⟨a, rfl⟩ := hact
    obtain ⟨⟨w', o⟩, ha⟩ : ∃ q, World.act e now w a = q := ⟨_, rfl⟩
    rw [World.step, ha] at h
    cases o <;> cases h
    exact .inl (hrest ht')
  · rw [World.step_of_forall_ne w (fun a ha => hact ⟨a, ha⟩)] at h
    cases has : (World.takeUp e now w t).2 with
    | none =>
      rw [has] at h
      cases h
    | some as =>
      rw [has] at h
      cases h
      rcases List.mem_append.1 ht' with hmem | hmem
      · obtain ⟨a, ha, rfl⟩ := List.mem_map.1 hmem
        exact (carries_of_takeUp has ha hb).imp (fun hb => ⟨t, List.mem_cons_self, hb⟩) id
      · exact .inl (hrest hmem)

theorem ahead_client {i : Nat} (hb : (happen e s (.client i now)).Ahead b) :
    s.Carries b ∨ (s.makes? e (.client i now) = some b.routine ∧ b.handler = s.world.handlers) := by
  have hset : ∀ {w : World β} {ts : List Task},
      ({ world := w, clients := s.clients.set i ts } : Site β).Ahead b → s.Ahead b ∨ ∃ t ∈ ts, t.Carries b := by
    rintro w ts ⟨ts', hts', t, ht, htb⟩
    rcases List.mem_or_eq_of_mem_set hts' with hmem | rfl
    · exact .inl ⟨ts', hmem, t, ht, htb⟩
    · exact .inr ⟨t, ht, htb⟩
  have hnil : ∀ {w : World β}, ({ world := w, clients := s.clients.set i [] } : Site β).Ahead b → s.Carries b := by
    intro w h
    rcases hset h with h | ⟨t, ht, -⟩
    · exact .inr h
    · cases ht
  simp only [happen] at hb
  cases hi : s.clients[i]? with
  | none =>
    rw [hi] at hb
    exact .inl (.inr hb)
  | some ts =>
    obtain ⟨⟨w, next⟩, hstep⟩ : ∃ q, World.step e now s.world ts = q := ⟨_, rfl⟩
    simp only [hi, hstep] at hb
    cases next with
    | inl o => exact .inl (hnil hb)
    | inr ts' =>
      cases ts with
      | nil => cases hstep
      | cons t ts =>
        rcases hset hb with hb | ⟨t', ht', hb⟩
        · exact .inl (.inr hb)
        · rcases carries_of_step (congrArg Prod.snd hstep) ht' hb with ⟨t'', ht'', hb⟩ | hb | hmade
          · exact .inl (.inr ⟨_, List.mem_of_getElem? hi, t'', ht'', hb⟩)
          · exact .inl (.inl (.inl (.inr hb)))
          · obtain ⟨c, delay, x, h, rfl, hh, hroutine, hhandler⟩ := hmade
            exact .inr ⟨by simp [makes?, hi, hh, hroutine, Except.toOption], hhandler⟩

/-- What an event brings into circulation at a site are backups of a handler it makes. -/
theorem carries_happen (hs : s.world.scheduler.Sound) (hb : (happen e s ev).Carries b) :
    s.Carries b ∨ (s.makes? e ev = some b.routine ∧ b.handler = s.world.handlers) := by
  rcases hb with hb | hb
  · exact .inl (Scheduler.carries_steps (steps_happen e s ev) hs hb)
  -- Only a call adds tasks, and the tasks of a call carry nothing yet; only a step of a client changes them.
  have hcall : ∀ {ts : List Task}, (∀ t ∈ ts, ¬ t.Carries b) → (s.call ts).Ahead b → s.Ahead b := by
    rintro ts hts ⟨ts', hts', t, ht, htb⟩
    rcases List.mem_append.1 hts' with hmem | hmem
    · exact ⟨ts', hmem, t, ht, htb⟩
    · cases List.mem_singleton.1 hmem
      exact absurd htb (hts t ht)
  have hinstall : ∀ (c : Config) (delay : Span) (p : Plan), ∀ t ∈ World.installTasks c delay p, ¬ t.Carries b := by
    intro c delay p t ht
    obtain ⟨x, -, rfl⟩ := List.mem_map.1 ht
    exact id
  cases ev with
  | client i now => exact ahead_client hb
  | schedule c delay =>
    simp only [happen] at hb
    split at hb
    · exact .inl (.inr (hcall (hinstall c delay _) hb))
    · exact .inl (.inr hb)
  | apply c delay =>
    simp only [happen] at hb
    split at hb
    case h_1 p _ =>
      refine .inl (.inr (hcall (fun t ht => ?_) hb))
      rw [World.applyTasks, List.mem_cons, List.mem_cons] at ht
      rcases ht with rfl | rfl | ht
      · exact id
      · exact id
      · exact hinstall c delay p t ht
    case h_2 => exact .inl (.inr hb)
  | adhoc routine =>
    refine .inl (.inr (hcall (fun t ht => ?_) hb))
    cases List.mem_singleton.1 ht
    exact id
  | start => exact .inl (.inr hb)
  | cancel => exact .inl (.inr hb)
  | drop => exact .inl (.inr hb)
  | shutdown => exact .inl (.inr hb)
  | delete key => exact .inl (.inr hb)
  | clear => exact .inl (.inr hb)
  | keys => exact .inl (.inr hb)
  | info key => exact .inl (.inr hb)
  | turn now => exact .inl (.inr hb)
  | beginRun id => exact .inl (.inr hb)
  | finishRun id panicked took => exact .inl (.inr hb)

end Site

end Rota
