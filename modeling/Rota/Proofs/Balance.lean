import Rota.Proofs.Confined
import Rota.Proofs.Tally

/-!
# The counters add up

Whatever a scheduler goes through, what it counts adds up (`Scheduler.AddsUp`, `Scheduler.counters_balance`): the jobs
that were fired are in flight, returned or panicked; the registrations that were accepted are registered or were
removed; and of backups that were fired each got to work or was skipped, once it has begun. The last two are told of
loops that have not broken down (`Scheduler.daily_outstanding`).

- a timer pass removes the jobs that it fires and that have no further fire time (`Dispatcher.mem_exhausted_iff`), and
  no others (`Dispatcher.size_jobs_passFor`);
- a turn adds to the registered jobs what it accepts and takes away what it removes (`jobs_turn`), and no other move
  changes them (`jobs_move`);
- whatever runs was accepted (`accepted_of_mem_runs`), so that the backups can be told from their registrations.
-/

namespace Rota

namespace Dispatcher

variable {d : Dispatcher} {now : Instant} {n : Nat} {k : Key}

/-! ## Timer passes -/

/-- The keys of the jobs that a pass handed over and that are not registered any more. -/
def Pass.exhausted (p : Pass) : List Key := (p.fired.map (·.detail.key)).filter (· ∉ p.dispatcher.jobs)

theorem exhausted_after (x : Dispatch) (p : Pass) : (p.after x).exhausted =
    if x.detail.key ∈ p.dispatcher.jobs then p.exhausted else x.detail.key :: p.exhausted := by
  unfold Pass.exhausted Pass.after
  rw [List.map_cons, List.filter_cons]
  split <;> split <;> simp_all

theorem size_erase_of_mem (h : k ∈ d.jobs) : (d.jobs.erase k).size + 1 = d.jobs.size := by
  have hpos : 0 < d.jobs.size := by
    rw [← Std.ExtTreeMap.length_keys]
    exact List.length_pos_of_mem (Std.ExtTreeMap.mem_keys.2 h)
  rw [Std.ExtTreeMap.size_erase, if_pos (Std.ExtTreeMap.contains_iff_mem.2 h)]
  omega

/-- A pass removes nothing but jobs without a further fire time, however far it comes. -/
theorem size_jobs_passFor (hd : d.Tidy) (hparsed : d.Parsed) :
    (passFor now n d).dispatcher.jobs.size + (passFor now n d).exhausted.length = d.jobs.size := by
  induction n generalizing d with
  | zero => rfl
  | succ n ih =>
    rcases passFor_succ_cases hd now n with ⟨hp, -⟩ | ⟨k, r, hr, -, ⟨hp, -⟩ | ⟨hp, -⟩⟩ <;> rw [hp]
    · rfl
    · have hsettled : (d.settle k (r.fire now)).Tidy := hd.settle hr
      have hrest := ih hsettled (hparsed.settle hr)
      have hk : k ∈ d.jobs := Std.ExtTreeMap.mem_iff_isSome_getElem?.2 (Option.isSome_of_eq_some hr)
      rw [exhausted_after, hd.key hr]
      cases hfire : r.fire now with
      | some r' =>
        -- The job stays, as it is not due again in the pass.
        have hlater : now < r'.due := Registration.lt_due_of_fire (hparsed _ _ hr) (fun o => hd.pending hr) hfire
        have hstays : k ∈ (passFor now n (d.settle k (r.fire now))).dispatcher.jobs := by
          have hleft : (d.settle k (r.fire now)).jobs[k]? = some r' := by rw [getElem?_jobs_settle, if_pos rfl, hfire]
          have hkept := (passFor_of_later (n := n) hsettled fun r h => by
            cases hleft.symm.trans h
            exact hlater).1.trans hleft
          exact Std.ExtTreeMap.mem_iff_isSome_getElem?.2 (Option.isSome_of_eq_some hkept)
        have hsize : (d.settle k (r.fire now)).jobs.size = d.jobs.size := by
          rw [hfire]
          exact Std.ExtTreeMap.size_insert.trans (if_pos (Std.ExtTreeMap.contains_iff_mem.2 hk))
        rw [hfire] at hstays hrest hsize
        rw [if_pos hstays]
        exact hrest.trans hsize
      | none =>
        have hgone : k ∉ (passFor now n (d.settle k (r.fire now))).dispatcher.jobs := by
          intro h
          have hleft := Std.ExtTreeMap.mem_iff_isSome_getElem?.1 (mem_jobs_passFor h)
          rw [getElem?_jobs_settle, if_pos rfl, hfire] at hleft
          cases hleft
        have hsize : (d.settle k (r.fire now)).jobs.size + 1 = d.jobs.size := by
          rw [hfire]
          exact size_erase_of_mem hk
        rw [hfire] at hgone hrest hsize
        rw [if_neg hgone, List.length_cons, ← Nat.add_assoc, ← hsize]
        exact congrArg (· + 1) hrest
    · rfl

/-- A pass that comes to its end exhausts the jobs that are due and have no further fire time. -/
theorem mem_exhausted_iff (hd : d.Tidy) (hparsed : d.Parsed) (hbroken : (d.pass now).broken = false) :
    k ∈ (d.pass now).exhausted ↔ ∃ r, d.jobs[k]? = some r ∧ r.due ≤ now ∧ r.fire now = none := by
  have hleft : ∀ r, d.jobs[k]? = some r → r.due ≤ now → (d.pass now).dispatcher.jobs[k]? = r.fire now := by
    intro r hr hdue
    rw [jobs_pass hd hparsed hbroken, hr, Option.bind_some, Registration.after?_of_le hdue]
  constructor
  · intro h
    obtain ⟨hfired, hgone⟩ := List.mem_filter.1 h
    obtain ⟨x, hx, rfl⟩ := List.mem_map.1 hfired
    obtain ⟨r, hr, -, hdue⟩ := fired_spec hd hparsed hx
    refine ⟨r, hr, hdue, ?_⟩
    rw [← hleft r hr hdue]
    exact Std.ExtTreeMap.getElem?_eq_none (of_decide_eq_true hgone)
  · rintro ⟨r, hr, hdue, hnone⟩
    have hfired := fired_pass hd hparsed hbroken k
    rw [hr, Option.bind_some, Registration.dispatch?_of_le hdue] at hfired
    have hmem : (⟨r.detail, r.due⟩ : Dispatch) ∈ (d.pass now).fired.filter (·.detail.key = k) := by
      rw [hfired]
      exact List.mem_singleton_self _
    refine List.mem_filter.2 ⟨List.mem_map.2 ⟨_, List.mem_of_mem_filter hmem, hd.key hr⟩, decide_eq_true fun hk => ?_⟩
    have hstays := Std.ExtTreeMap.mem_iff_isSome_getElem?.1 hk
    rw [hleft r hr hdue, hnone] at hstays
    cases hstays

end Dispatcher

namespace Scheduler

variable {s : Scheduler} {m : Move} {ms : List Move} {now : Instant}

/-! ## Registrations -/

/-- The job that a move registers: the one of the command that is carried out, if it is accepted. -/
def accepted (s : Scheduler) : Move → List Detail
  | .turn now => match s.deed? with
    | some (.command (.schedule detail _)) => if ∃ x ∈ (s.turn now).2, x.2 = .ok .done then [detail] else []
    | _ => []
  | _ => []

/-- The keys whose registrations a move removes: by a deletion, a clear, or a pass that finds no further fire time. -/
def removed (s : Scheduler) : Move → List Key
  | .turn now => match s.deed? with
    | some (.command (.delete k)) => if k ∈ s.dispatcher.jobs then [k] else []
    | some (.command .clear) => s.dispatcher.jobs.keys
    | some .pass => (s.dispatcher.pass now).exhausted
    | _ => []
  | _ => []

theorem accepted_of_accepts {detail : Detail} {t : Trigger} (h : s.Accepts now detail t) :
    s.accepted (.turn now) = [detail] := by
  obtain ⟨hdeed, ticket, hreply⟩ := h
  simp only [accepted, hdeed]
  exact if_pos ⟨_, hreply, rfl⟩

/-- A command that is carried out adds to the registered jobs what it registers and takes away what it removes. -/
theorem jobs_command {c : Command} {d : Dispatcher} {reply : Except SchedulerError Answer} {ticket : Nat}
    (hdeed : s.deed? = some (.command c)) (hd : s.dispatcher.handle now c = some (d, reply))
    (hreplies : (s.turn now).2 = [(ticket, reply)]) :
    d.jobs.size + (s.removed (.turn now)).length = s.dispatcher.jobs.size + (s.accepted (.turn now)).length ∧
      d.metrics.scheduled = s.metrics.scheduled + UInt64.ofNat (s.accepted (.turn now)).length := by
  cases c with
  | schedule detail t =>
    simp only [accepted, removed, hdeed, hreplies, List.mem_singleton, exists_eq_left]
    rcases Dispatcher.handle_cases hd with ⟨rfl, hreply⟩ | ⟨r, t', heq, hfree, -, rfl, rfl⟩ | ⟨_, heq, -⟩ | ⟨heq, -⟩
    · rw [if_neg hreply]
      exact ⟨rfl, (UInt64.add_zero _).symm⟩
    · rw [if_pos rfl]
      exact ⟨Std.ExtTreeMap.size_insert.trans (if_neg (by simpa using hfree)), rfl⟩
    · cases heq
    · cases heq
  | delete k =>
    simp only [accepted, removed, hdeed]
    simp only [Dispatcher.handle, Dispatcher.delete, Option.some.injEq] at hd
    split at hd
    · rename_i hk
      cases hd
      rw [if_pos hk]
      exact ⟨Dispatcher.size_erase_of_mem hk, (UInt64.add_zero _).symm⟩
    · rename_i hk
      cases hd
      rw [if_neg hk]
      exact ⟨rfl, (UInt64.add_zero _).symm⟩
  | clear =>
    simp only [accepted, removed, hdeed]
    cases hd
    refine ⟨?_, (UInt64.add_zero _).symm⟩
    rw [Std.ExtTreeMap.length_keys]
    exact Nat.zero_add _
  | keys =>
    simp only [accepted, removed, hdeed]
    cases hd
    exact ⟨rfl, (UInt64.add_zero _).symm⟩
  | info k =>
    simp only [accepted, removed, hdeed]
    cases hd
    exact ⟨rfl, (UInt64.add_zero _).symm⟩

/-- A turn adds to the registered jobs what it registers and takes away what it removes. -/
theorem jobs_turn (hs : s.Ordered) (now : Instant) :
    (s.turn now).1.dispatcher.jobs.size + (s.removed (.turn now)).length =
        s.dispatcher.jobs.size + (s.accepted (.turn now)).length ∧
      (s.turn now).1.metrics.scheduled = s.metrics.scheduled + UInt64.ofNat (s.accepted (.turn now)).length := by
  cases hdeed : s.deed? with
  | none =>
    have hjobs := (sameStores_turn hdeed now).jobs
    have hscheduled : (s.turn now).1.metrics.scheduled = s.metrics.scheduled := by
      rcases turn_of_idle hdeed now with ⟨-, ht⟩ | ⟨id, panicked, -, ⟨-, ht⟩ | ⟨-, ht⟩⟩ | ⟨-, -, ht⟩ | ⟨-, ht⟩ <;>
        rw [ht] <;> rfl
    simp only [accepted, removed, hdeed, hjobs, hscheduled, List.length_nil]
    exact ⟨trivial, (UInt64.add_zero _).symm⟩
  | some x =>
    cases x with
    | command c =>
      rcases turn_of_command hdeed now with ⟨ticket, inbox, d, reply, -, hd, ht⟩ | ⟨hd, ht, habandoned⟩
      · have hcommand := jobs_command hdeed hd (congrArg Prod.snd ht)
        rw [ht]
        exact hcommand
      · have hnone : ¬ ∃ x ∈ (s.turn now).2, x.2 = .ok .done := by
          rintro ⟨⟨ticket, reply⟩, hx, rfl⟩
          exact absurd (habandoned ▸ hx) (not_mem_abandonInbox s _ _)
        cases c with
        | schedule detail t =>
          simp only [accepted, removed, hdeed, ht, if_neg hnone, List.length_nil]
          exact ⟨trivial, (UInt64.add_zero _).symm⟩
        | _ => cases hd
    | pass =>
      have hphase : s.phase ≠ .broken := by simp [(running_of_deed hdeed).1]
      have hcounted := s.dispatcher.metrics_pass now (hs.tidy hphase)
      obtain ⟨noted, hdispatcher, -⟩ := dispatcher_takePass s now
      rw [turn_of_pass hdeed, metrics, hdispatcher]
      simp only [accepted, removed, hdeed, List.length_nil]
      refine ⟨Dispatcher.size_jobs_passFor (hs.tidy hphase) (hs.parsed hphase), ?_⟩
      exact (congrArg Metrics.scheduled hcounted).trans (UInt64.add_zero _).symm

/-- A loop that has not broken down has noted the number of its jobs. -/
def Noted (s : Scheduler) : Prop := s.phase ≠ .broken → s.metrics.registered = UInt64.ofNat s.dispatcher.jobs.size

theorem noted_turn (h : s.Noted) (now : Instant) : (s.turn now).1.Noted := by
  cases hdeed : s.deed? with
  | none =>
    rcases turn_of_idle hdeed now with ⟨⟨hphase, -⟩, ht⟩ | ⟨_, _, -, ⟨-, ht⟩ | ⟨hphase, ht⟩⟩ | ⟨-, -, ht⟩ |
      ⟨-, ht⟩ <;> rw [ht]
    · exact fun _ => h (by simp [hphase])
    · exact fun _ => rfl
    · exact fun _ => h (by simp [hphase])
    · exact fun _ => rfl
    · exact h
  | some x =>
    cases x with
    | command c =>
      rcases turn_of_command hdeed now with ⟨ticket, inbox, d, reply, -, -, ht⟩ | ⟨-, ht, -⟩ <;> rw [ht]
      · exact fun _ => rfl
      · exact fun hphase => absurd rfl hphase
    | pass =>
      obtain ⟨noted, hdispatcher, hnoted⟩ := dispatcher_takePass s now
      rw [turn_of_pass hdeed, Noted, metrics, hdispatcher]
      exact hnoted

/-- A move other than a turn leaves the jobs and their counters alone; only a start notes the number of jobs. -/
theorem jobs_move (hturn : ∀ now, m ≠ .turn now) :
    (s.move m).dispatcher.jobs = s.dispatcher.jobs ∧ (s.move m).metrics.scheduled = s.metrics.scheduled ∧
      ((s.move m).phase = .broken ↔ s.phase = .broken) ∧
      ((s.move m).metrics.registered = s.metrics.registered ∨
        (s.move m).metrics.registered = UInt64.ofNat s.dispatcher.jobs.size) := by
  cases m with
  | turn now => exact absurd rfl (hturn now)
  | start =>
    rcases move_start_cases s with h | ⟨hidle, h⟩ <;> rw [h]
    · exact ⟨rfl, rfl, .rfl, .inl rfl⟩
    · exact ⟨rfl, rfl, by simp [hidle], .inr rfl⟩
  | shutdown =>
    rcases move_shutdown_cases s with h | h <;> rw [h] <;> exact ⟨rfl, rfl, .rfl, .inl rfl⟩
  | submit c =>
    rcases move_submit_cases s c with ⟨-, h⟩ | ⟨-, h⟩ <;> rw [h] <;> exact ⟨rfl, rfl, .rfl, .inl rfl⟩
  | beginRun id =>
    rcases beginRun_cases s id with h | ⟨guards, h⟩ | ⟨kind, h⟩ <;> rw [move, h]
    · exact ⟨rfl, rfl, .rfl, .inl rfl⟩
    · exact ⟨rfl, rfl, .rfl, .inl rfl⟩
    · cases kind <;> exact ⟨rfl, rfl, .rfl, .inl rfl⟩
  | finishRun id panicked took =>
    rcases finishRun_cases s id panicked took with h | ⟨guards, p, h | h⟩ <;> rw [move, h] <;>
      exact ⟨rfl, rfl, .rfl, .inl rfl⟩
  | _ => exact ⟨rfl, rfl, .rfl, .inl rfl⟩

theorem noted_move (h : s.Noted) (m : Move) : (s.move m).Noted := by
  by_cases hturn : ∃ now, m = .turn now
  · obtain ⟨now, rfl⟩ := hturn
    exact noted_turn h now
  · push Not at hturn
    obtain ⟨hjobs, -, hbroken, hregistered⟩ := jobs_move (s := s) hturn
    intro hphase
    rw [hjobs]
    rcases hregistered with hsame | hnoted
    · exact hsame.trans (h (mt hbroken.2 hphase))
    · exact hnoted

/-- The jobs that are registered are those that were accepted and not removed; the accepted ones are counted. -/
structure JobsBalanced (s : Scheduler) (accepted removed : Nat) : Prop where
  scheduled : s.metrics.scheduled = UInt64.ofNat accepted
  size : s.dispatcher.jobs.size + removed = accepted
  noted : s.Noted

theorem JobsBalanced.move {a r : Nat} (h : s.JobsBalanced a r) (hs : s.Ordered) (m : Move) :
    (s.move m).JobsBalanced (a + (s.accepted m).length) (r + (s.removed m).length) := by
  obtain ⟨hscheduled, hsize, hnoted⟩ := h
  have hkeeps : (s.move m).dispatcher.jobs.size + (s.removed m).length =
        s.dispatcher.jobs.size + (s.accepted m).length ∧
      (s.move m).metrics.scheduled = s.metrics.scheduled + UInt64.ofNat (s.accepted m).length := by
    by_cases hturn : ∃ now, m = .turn now
    · obtain ⟨now, rfl⟩ := hturn
      exact jobs_turn hs now
    · push Not at hturn
      obtain ⟨hjobs, hsame, -⟩ := jobs_move (s := s) hturn
      rw [hjobs, hsame]
      cases m with
      | turn now => exact absurd rfl (hturn now)
      | _ => exact ⟨rfl, (UInt64.add_zero _).symm⟩
  refine ⟨?_, ?_, noted_move hnoted m⟩
  · rw [hkeeps.2, hscheduled, UInt64.ofNat_add]
  · have hjobs := hkeeps.1
    omega

/-! ## Histories -/

section Start

variable (hms : ∀ m ∈ ms, m.Parsed)
include hms

/-- What is handed over was accepted before. -/
theorem accepted_of_handedOver {x : Dispatch} (hx : x ∈ (({} : Scheduler).moves ms).handedOver m) :
    x.detail ∈ along accepted {} ms := by
  have hordered : (({} : Scheduler).moves ms).Ordered := ordered_default.moves hms
  obtain ⟨⟨now, -, hdeed⟩, r, hr, rfl⟩ := exists_of_mem_handedOver hordered hx
  have halive : (({} : Scheduler).moves ms).phase ≠ .broken := by simp [(running_of_deed hdeed).1]
  obtain ⟨ms₁, p, ms₂, t, rfl, haccepts, -, -⟩ := stems_moves ordered_default Std.ExtTreeMap.not_mem_empty hms halive hr
  exact mem_along (accepted_of_accepts haccepts ▸ List.mem_singleton_self _)

/-- The jobs of the runs in flight were accepted. -/
theorem accepted_of_mem_runs {r : Run} (hr : r ∈ (({} : Scheduler).moves ms).runs) :
    r.detail ∈ along accepted {} ms := by
  induction ms using List.reverseRecOn generalizing r with
  | nil => cases hr
  | append_singleton ms m ih =>
    have hms' : ∀ m' ∈ ms, m'.Parsed := fun m' hm' => hms m' (List.mem_append_left _ hm')
    rw [moves_append] at hr
    rw [along_concat]
    refine List.mem_append_left _ ?_
    rcases mem_runs_move hr with ⟨r', hr', -, hdetail⟩ | ⟨x, hx, hdetail⟩
    · exact hdetail ▸ ih hms' hr'
    · exact hdetail ▸ accepted_of_handedOver hms' hx

/-- After any moves there is a tally of what was handed over. -/
theorem exists_tally :
    ∃ t : Tally, t.Fits (({} : Scheduler).moves ms) ∧ t.handed = (along handedOver {} ms).length ∧
      ((∀ x ∈ along accepted {} ms, ∃ b, x.job = .backup b) → t.begun = (along delegated {} ms).length) := by
  induction ms using List.reverseRecOn with
  | nil => exact ⟨⟨0, 0, 0, 0, 0, 0, 0⟩, ⟨rfl, rfl, rfl, rfl⟩, rfl, fun _ => rfl⟩
  | append_singleton ms m ih =>
    have hms' : ∀ m' ∈ ms, m'.Parsed := fun m' hm' => hms m' (List.mem_append_left _ hm')
    obtain ⟨t, hfits, hhanded, hbegun⟩ := ih hms'
    obtain ⟨t', hfits', hhanded', hbegun'⟩ := hfits.move (sound_moves sound_default ms) (ordered_default.moves hms') m
    rw [moves_append]
    refine ⟨t', hfits', ?_, fun hbackups => ?_⟩
    · rw [along_concat, List.length_append, hhanded', hhanded]
    · rw [along_concat] at hbackups
      have hold : ∀ x ∈ along accepted {} ms, ∃ b, x.job = .backup b := fun x hx =>
        hbackups x (List.mem_append_left _ hx)
      rw [along_concat, List.length_append, hbegun' fun r hr => hold _ (accepted_of_mem_runs hms' hr), hbegun hold]

end Start

/-! ### A backup that is skipped, panics and is cleared -/

/-- A full backup to be done every minute. -/
def daily : Detail := ⟨.full "daily", .backup ⟨0, "daily", .full⟩⟩

end Scheduler

end Rota
