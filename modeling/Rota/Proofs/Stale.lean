import Rota.Proofs.AfterClear

/-!
# Jobs of a schedule that was replaced

A job that was there before a clear comes back only through a client that had it ahead when the schedule was cleared: a
request for a backup out of turn that had derived its job and not yet sent it.

- a client that has a job ahead can send it, and the job is handed over and gets to work (`Site.exists_run_of_ahead`);
- so all that is handed over after the clear of a new configuration is new or was ahead of a client, and if the other
  calls are for backups out of turn, it is always new exactly if no client has an old job ahead
  (`Site.onlyNew_iff_of_clear`).
-/

namespace Rota

variable {n : Nat} {now : Instant}

/-! ## Old jobs come back -/

namespace Scheduler

variable {s : Scheduler} {x : Dispatch}

theorem mem_runs_launch_of_mem {xs : List Dispatch} {r : Run} (hr : r ∈ s.runs) : r ∈ (s.launch xs).runs := by
  induction xs generalizing s with
  | nil => exact hr
  | cons x xs ih => exact ih (List.mem_append_left _ hr)

/-- What is launched gets a new number. -/
theorem exists_run_of_mem_launch {xs : List Dispatch} (hx : x ∈ xs) :
    ∃ r ∈ (s.launch xs).runs, s.nextRun ≤ r.id ∧ r.detail = x.detail := by
  induction xs generalizing s with
  | nil => cases hx
  | cons y xs ih =>
    rcases List.mem_cons.1 hx with rfl | hx
    · have hnew : (⟨s.nextRun, x.detail, x.fireTime, .waiting⟩ : Run) ∈ (s.launch (x :: xs)).runs :=
        mem_runs_launch_of_mem (s := s.launch [x]) (List.mem_append_right _ (List.mem_singleton_self _))
      exact ⟨_, hnew, Nat.le_refl _, rfl⟩
    · obtain ⟨r, hr, hid, hdetail⟩ := ih hx
      exact ⟨r, hr, Nat.le_of_succ_le hid, hdetail⟩

/-- What is handed over is in flight under a new number. -/
theorem exists_run_of_mem_handedOver (hdeed : s.deed? = some .pass) (hx : x ∈ s.handedOver (.turn now)) :
    ∃ r ∈ (s.move (.turn now)).runs, s.nextRun ≤ r.id ∧ r.detail = x.detail := by
  rw [handedOver_of_pass hdeed] at hx
  obtain ⟨r, hr, hid, hdetail⟩ := exists_run_of_mem_launch
    (s := { s with dispatcher := (s.dispatcher.pass now).dispatcher }) hx
  refine ⟨r, ?_, hid, hdetail⟩
  rw [move, turn_of_pass hdeed, runs_takePass]
  exact hr

/-- A loop that has nothing else to do makes a timer pass once all runs that are over are joined. -/
theorem exists_pass_of_ready (hs : s.Ready) (hconnected : s.connected = true) (now : Instant) :
    ∃ k, (s.moves (List.replicate k (.turn now))).deed? = some .pass ∧
      (s.moves (List.replicate k (.turn now))).dispatcher.jobs = s.dispatcher.jobs ∧
      (s.moves (List.replicate k (.turn now))).nextRun = s.nextRun := by
  obtain ⟨l, hl⟩ : ∃ l, l = s.runs.length := ⟨_, rfl⟩
  induction l using Nat.strong_induction_on generalizing s with
  | h l ih =>
    cases hended : s.endedRun? with
    | none => exact ⟨0, by simp [moves, deed?, hs.running, hs.uncancelled, hs.idle, hconnected, hended], rfl, rfl⟩
    | some q =>
      obtain ⟨id, panicked⟩ := q
      have hturn : s.move (.turn now) = (s.join id panicked).atHead := by
        show (s.turn now).1 = _
        unfold turn
        rw [hs.running]
        dsimp only
        rw [runningTurn_of_connected hs.uncancelled hs.idle hconnected, hended]
      have hshorter : (s.join id panicked).runs.length < l := by
        obtain ⟨r, hr, hid, -⟩ := exists_of_endedRun? hended
        rw [hl]
        exact List.length_filter_lt_length_iff_exists.2 ⟨r, hr, by simp [hid]⟩
      have hready : (s.join id panicked).atHead.Ready := ⟨hs.running, hs.uncancelled, hs.idle⟩
      obtain ⟨k, hdeed, hjobs, hnext⟩ := ih _ hshorter hready hconnected rfl
      refine ⟨k + 1, ?_⟩
      rw [List.replicate_succ, moves, List.foldl_cons, hturn]
      exact ⟨hdeed, hjobs, hnext⟩

end Scheduler

namespace Site

variable {β : Type} {e : Engine β} {s : Site β} {i : Nat} {ts : List Task}

/-- Whatever happens at a site, every job that is handed over from now on is new. -/
def OnlyNew (e : Engine β) (n : Nat) (s : Site β) : Prop :=
  ∀ evs, ∀ r ∈ (s.run e evs).world.scheduler.runs, s.world.scheduler.nextRun ≤ r.id → r.detail.job.IsNew n

/-- A call for a backup out of turn, however far it has come: it has its job ahead of it once the job is derived. -/
def IsAdhoc (ts : List Task) : Prop :=
  ts = [] ∨ (∃ routine, ts = [.adhoc routine]) ∨ ∃ d, ts = [.act (.request (.schedule d .immediate))]

theorem run_turns (s : Site β) (now : Instant) (k : Nat) :
    (s.run e (List.replicate k (.turn now))).world.scheduler =
      s.world.scheduler.moves (List.replicate k (.turn now)) := by
  induction k generalizing s with
  | zero => rfl
  | succ k ih =>
    rw [List.replicate_succ, List.replicate_succ]
    exact ih _

/-- A job that a call for a backup out of turn has ahead can be handed over when nothing is registered. -/
theorem exists_run_of_ahead (hs : s.Ordered) (hready : s.world.Ready) (hconnected : s.world.scheduler.connected = true)
    (hjobs : s.world.jobs = ∅) {d : Detail} (hi : s.clients[i]? = some [.act (.request (.schedule d .immediate))]) :
    ∃ evs, ∃ r ∈ (s.run e evs).world.scheduler.runs, s.world.scheduler.nextRun ≤ r.id ∧ r.detail = d := by
  have hnext : Trigger.immediate.next (.ofSecond 0) =
      (.once ⟨Span.zero, .pending⟩, .due (.ofSecond 0)) := by decide +kernel
  obtain ⟨r, hr⟩ : ∃ r : Registration, r = ⟨d, .once ⟨Span.zero, .pending⟩, .ofSecond 0⟩ := ⟨_, rfl⟩
  -- The request is sent and accepted.
  have hact : World.act e (.ofSecond 0) s.world (.request (.schedule d .immediate)) = (s.world.enter r, .done) :=
    (World.act_schedule_eq_done_iff hready).2
      ⟨hjobs ▸ Std.ExtTreeMap.not_mem_empty, _, _, hnext, by rw [hr]⟩
  have hsent : (s.happen e (.client i (.ofSecond 0))).world = s.world.enter r := by
    rw [happen_client hi, World.step_act, hact]
  have hordered := (ordered_happen (e := e) hs (.client i (.ofSecond 0))).scheduler
  rw [hsent] at hordered
  -- The loop joins the runs that are over and fires it.
  obtain ⟨k, hdeed, hkeep, hnumber⟩ := Scheduler.exists_pass_of_ready (World.Ready.enter hready r)
    (show (s.world.enter r).scheduler.connected = true from hconnected) (.ofSecond 0)
  have hturns : ∀ m ∈ List.replicate k (Scheduler.Move.turn (.ofSecond 0)), m.Parsed := fun m hm =>
    (List.mem_replicate.1 hm).2 ▸ trivial
  have hordered' := hordered.moves hturns
  obtain ⟨s', hs'⟩ : ∃ s', s' = (s.world.enter r).scheduler.moves (List.replicate k (.turn (.ofSecond 0))) := ⟨_, rfl⟩
  rw [← hs'] at hdeed hkeep hnumber hordered'
  have hphase : s'.phase ≠ .broken := by simp [(Scheduler.running_of_deed hdeed).1]
  have hunbroken : (s'.dispatcher.pass (.ofSecond 0)).broken = false := by
    by_contra hbroken
    have hlate := Dispatcher.second_of_broken (hordered'.tidy hphase) (Bool.not_eq_false _ ▸ hbroken)
    exact absurd hlate (by decide)
  have hfired := Dispatcher.fired_pass (hordered'.tidy hphase) (hordered'.parsed hphase) hunbroken d.key
  have hregistered : s'.dispatcher.jobs[d.key]? = some r := by
    rw [hkeep, hr]
    exact Std.ExtTreeMap.getElem?_insert_self
  rw [hregistered, Option.bind_some, Registration.dispatch?_of_le (by rw [hr]; exact Int.le_refl _)] at hfired
  have hover : (⟨d, .ofSecond 0⟩ : Dispatch) ∈ s'.handedOver (.turn (.ofSecond 0)) := by
    rw [Scheduler.handedOver_of_pass hdeed]
    refine List.mem_of_mem_filter (p := (·.detail.key = d.key)) ?_
    rw [hfired, hr]
    exact List.mem_singleton_self _
  obtain ⟨x, hx, hid, hdetail⟩ := Scheduler.exists_run_of_mem_handedOver hdeed hover
  refine ⟨.client i (.ofSecond 0) :: List.replicate (k + 1) (.turn (.ofSecond 0)), x, ?_, hnumber ▸ hid, hdetail⟩
  rw [List.replicate_succ', ← List.cons_append, run_append]
  change x ∈ (((s.happen e (.client i (.ofSecond 0))).run e
    (List.replicate k (.turn (.ofSecond 0)))).world.scheduler.move (.turn (.ofSecond 0))).runs
  rw [run_turns, hsent, ← hs']
  exact hx

/-- A site to which events lead from a new scheduler without clients. -/
def Reachable (e : Engine β) (s : Site β) : Prop := ∃ w evs, (fresh w).run e evs = s

theorem Reachable.ordered (hs : s.Reachable e) : s.Ordered := by
  obtain ⟨w, evs, rfl⟩ := hs
  exact ordered_run (ordered_fresh w) evs

theorem Reachable.ticketed (hs : s.Reachable e) : s.world.scheduler.Ticketed := by
  obtain ⟨w, evs, rfl⟩ := hs
  exact ticketed_run (fun _ hx => by cases hx) evs

theorem Reachable.sound (hs : s.Reachable e) : s.world.scheduler.Sound := by
  obtain ⟨w, evs, rfl⟩ := hs
  exact sound_run e Scheduler.sound_default evs

theorem Reachable.happen (hs : s.Reachable e) (ev : Event) : (s.happen e ev).Reachable e := by
  obtain ⟨w, evs, rfl⟩ := hs
  exact ⟨w, evs ++ [ev], run_append ..⟩

/-- Once the schedule is cleared for a new configuration, every job that is handed over, whatever happens, is a backup
of a handler made since, or a client had it ahead at that moment. If the handle exists and the other calls are for
backups out of turn, all that is handed over is new exactly if no client has an old job ahead at that moment. -/
theorem onlyNew_iff_of_clear {c : Config} {delay : Span} {p : Plan} (hs : s.Reachable e)
    (hi : s.clients[i]? = some (World.applyTasks c delay p))
    (hclear : (World.act e now s.world (.request .clear)).2 = .done) :
    (∀ evs, ∀ r ∈ ((s.happen e (.client i now)).run e evs).world.scheduler.runs,
      (s.happen e (.client i now)).world.scheduler.nextRun ≤ r.id →
      r.detail.job.IsNew s.world.handlers ∨ r.detail.job ∈ (s.happen e (.client i now)).jobsAhead) ∧
    ((s.happen e (.client i now)).world.scheduler.connected = true →
      (∀ j ts, j ≠ i → (s.happen e (.client i now)).clients[j]? = some ts → IsAdhoc ts) →
      ((s.happen e (.client i now)).OnlyNew e s.world.handlers ↔
        ∀ j ∈ (s.happen e (.client i now)).jobsAhead, j.IsNew s.world.handlers)) := by
  have hs₁ := hs.happen (.client i now)
  have hconfined := confined_of_clear hs.ticketed hi hclear hs₁.sound
  obtain ⟨hready, hjobs, -, -, hclients⟩ := happen_clear_spec hs.ticketed hi hclear
  have honly : ∀ evs, ∀ r ∈ ((s.happen e (.client i now)).run e evs).world.scheduler.runs,
      (s.happen e (.client i now)).world.scheduler.nextRun ≤ r.id →
      r.detail.job.IsNew s.world.handlers ∨ r.detail.job ∈ (s.happen e (.client i now)).jobsAhead := fun evs =>
    (confined_run (fun b hb => .inl hb) hconfined hs₁.ordered evs).scheduler.launched
  refine ⟨honly, fun hconnected hadhoc => ⟨fun honlyNew j hj => ?_, fun hnone evs r hr hid => ?_⟩⟩
  · obtain ⟨ts, hts, t, ht, hjob⟩ := mem_jobsAhead_iff.1 hj
    obtain ⟨i', hi'⟩ := List.mem_iff_getElem?.1 hts
    by_cases hii' : i' = i
    · -- The client itself binds and installs next, and has no job ahead yet.
      subst hii'
      rw [hclients, List.getElem?_set_self (List.getElem?_eq_some_iff.1 hi).1] at hi'
      cases hi'
      rcases List.mem_cons.1 ht with rfl | ht
      · cases hjob
      · obtain ⟨x, -, rfl⟩ := List.mem_map.1 ht
        cases hjob
    · rcases hadhoc i' ts hii' hi' with rfl | ⟨routine, rfl⟩ | ⟨d, rfl⟩
      · cases ht
      · cases List.mem_singleton.1 ht
        cases hjob
      · cases List.mem_singleton.1 ht
        cases hjob
        obtain ⟨evs, r, hr, hid, hdetail⟩ := exists_run_of_ahead (e := e) hs₁.ordered hready hconnected hjobs hi'
        exact hdetail ▸ honlyNew evs r hr hid
  · exact (honly evs r hr hid).elim id (hnone _)

/-! ### A request across a new configuration -/

/-- The hourly routine is scheduled, and a request for a backup of it out of turn derives its job. -/
def derived : List Event :=
  [.start, .schedule World.hourly .zero] ++ List.replicate 3 (.client 0 World.noon) ++
    [.adhoc "hourly", .client 1 World.noon]

/-- The hourly routine is to be read anew after some events. -/
def rereading (evs : List Event) : Site Unit :=
  (fresh {}).run (World.plainEngine (some World.noon)) (evs ++ [.apply World.hourly .zero])

theorem reachable_rereading (evs : List Event) : (rereading evs).Reachable (World.plainEngine (some World.noon)) :=
  ⟨{}, _, rfl⟩

/-- The newest client has the whole new configuration ahead of it. -/
theorem clients_rereading (evs : List Event)
    (hi : ((fresh {}).run (World.plainEngine (some World.noon)) evs).clients.length = i) :
    ∃ p, (rereading evs).clients[i]? = some (World.applyTasks World.hourly .zero p) := by
  have hok : (Plan.build World.hourly).toOption.isSome = true := by decide +kernel
  cases hp : Plan.build World.hourly with
  | error f =>
    rw [hp] at hok
    cases hok
  | ok p =>
    refine ⟨p, ?_⟩
    rw [rereading, run_append]
    simp only [run, List.foldl_cons, List.foldl_nil, happen, hp, call] at hi ⊢
    rw [← hi, List.getElem?_append_right (Nat.le_refl _), Nat.sub_self]
    rfl

/-- A request that sends its job before the schedule is cleared is gone with it, and all that fires afterwards is new.
-/
theorem onlyNew_hourly :
    ((rereading (derived ++ [.client 1 World.noon])).happen (World.plainEngine (some World.noon))
      (.client 2 World.noon)).OnlyNew (World.plainEngine (some World.noon)) 1 := by
  obtain ⟨p, hi⟩ := clients_rereading (derived ++ [.client 1 World.noon]) (i := 2) (by decide +kernel)
  have hclear : (World.act (World.plainEngine (some World.noon)) World.noon
      (rereading (derived ++ [.client 1 World.noon])).world (.request .clear)).2 = .done := by decide +kernel
  have hhandlers : (rereading (derived ++ [.client 1 World.noon])).world.handlers = 1 := by decide +kernel
  obtain ⟨-, hiff⟩ := onlyNew_iff_of_clear (reachable_rereading _) hi hclear
  rw [hhandlers] at hiff
  refine (hiff (by decide +kernel) fun j ts hj hts => ?_).2 ?_
  · -- The other calls are over.
    have hlengths : ((rereading (derived ++ [.client 1 World.noon])).happen (World.plainEngine (some World.noon))
        (.client 2 World.noon)).clients.map List.length = [0, 0, 2] := by decide +kernel
    have hlength := congrArg (·[j]?) hlengths
    simp only [List.getElem?_map, hts, Option.map_some] at hlength
    match j, hj with
    | 0, _ => exact .inl (List.eq_nil_of_length_eq_zero (Option.some.inj hlength))
    | 1, _ => exact .inl (List.eq_nil_of_length_eq_zero (Option.some.inj hlength))
    | j + 3, _ => cases hlength
  · have hnone : ((rereading (derived ++ [.client 1 World.noon])).happen (World.plainEngine (some World.noon))
        (.client 2 World.noon)).jobsAhead = [] := by decide +kernel
    rw [hnone]
    simp

/-- The new configuration is installed, and then the request sends its job and a timer pass comes. -/
def sentLate : List Event :=
  List.replicate 4 (.client 2 World.noon) ++ [.client 1 World.noon, .turn World.noon]

/-- A request that sends its job once the new configuration is installed gets it registered and fired: a backup of the
handler that was made for the configuration before. -/
theorem oldJob_fires :
    (∃ p, (rereading derived).clients[2]? = some (World.applyTasks World.hourly .zero p)) ∧
    (World.act (World.plainEngine (some World.noon)) World.noon (rereading derived).world (.request .clear)).2 = .done ∧
    (rereading derived).world.handlers = 1 ∧
    (((rereading derived).happen (World.plainEngine (some World.noon)) (.client 2 World.noon)).run
      (World.plainEngine (some World.noon)) sentLate).world.scheduler.runs.map (fun r => (r.id, r.detail.job)) =
      [(0, .backup ⟨0, "hourly", .full⟩)] ∧
    (((rereading derived).happen (World.plainEngine (some World.noon)) (.client 2 World.noon)).run
      (World.plainEngine (some World.noon)) sentLate).world.jobs[Key.full "hourly"]?.map (·.detail.job) =
      some (.backup ⟨1, "hourly", .full⟩) ∧
    ¬ ((rereading derived).happen (World.plainEngine (some World.noon)) (.client 2 World.noon)).OnlyNew
      (World.plainEngine (some World.noon)) 1 := by
  have hfires : (((rereading derived).happen (World.plainEngine (some World.noon)) (.client 2 World.noon)).run
      (World.plainEngine (some World.noon)) sentLate).world.scheduler.runs.map (fun r => (r.id, r.detail.job)) =
      [(0, .backup ⟨0, "hourly", .full⟩)] := by decide +kernel
  have hnext : ((rereading derived).happen (World.plainEngine (some World.noon)) (.client 2
      World.noon)).world.scheduler.nextRun = 0 := by decide +kernel
  refine ⟨clients_rereading derived (by decide +kernel), by decide +kernel, by decide +kernel, hfires,
    by decide +kernel, fun honly => ?_⟩
  obtain ⟨r, hr, hjob⟩ := List.mem_map.1 (hfires ▸ List.mem_singleton_self _)
  have hnew := honly sentLate r hr (hnext ▸ Nat.zero_le _)
  rw [(Prod.mk.inj hjob).2] at hnew
  exact absurd hnew (by decide)

end Site

end Rota
