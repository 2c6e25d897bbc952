import Rota.Proofs.Phases
import Rota.Proofs.Tickets

/-!
# The life of a scheduler

A scheduler that was told to stop joins the runs in flight, and its loop is over. What the calls of its handle give at
any time follows from what was called before.

- a loop that takes no more commands abandons those that wait, and hands over nothing (`Scheduler.queue_of_over`,
  `Scheduler.handedOver_of_over`);
- from this comes what the calls of the handle give at any time (`Scheduler.handleLaw_moves`), and when the handle says
  that the loop is running (`Scheduler.runningLaw_moves`).
-/

namespace Rota

namespace Scheduler

variable {s : Scheduler} {m : Move} {ms : List Move} {now : Instant}

/-! ## The end of the loop -/

/-- A loop that is told to stop begins to drain in its next turn. -/
theorem turn_of_cancelled (hphase : s.phase = .running) (hcancelled : s.cancelled = true) (now : Instant) :
    s.turn now = ({ s with phase := .draining }, []) := by
  unfold turn
  rw [hphase]
  exact if_pos hcancelled

/-- A loop that drains stops in a turn without a run in flight. -/
theorem turn_of_drained (hphase : s.phase = .draining) (hruns : s.runs = []) (now : Instant) :
    s.turn now = ({ s with phase := .stopped } : Scheduler).atHead.abandonInbox := by
  unfold turn drainingTurn endedRun?
  rw [hphase, hruns]
  rfl

/-- What a move does with the commands that wait when the loop takes none any more: they go on waiting, or are abandoned
when it stops. -/
theorem queue_move (h : s.Over) (m : Move) :
    ((s.move m).phase = s.phase ∧ (s.move m).inbox = s.inbox ∧ s.replies m = []) ∨
      s.phase = .draining ∧ (s.move m).phase = .stopped ∧ (s.move m).inbox = [] ∧ s.replies m = s.abandonInbox.2 := by
  by_cases haside : m.Aside
  · obtain ⟨hphase, hinbox, -⟩ := aside_move (s := s) haside
    refine .inl ⟨hphase, hinbox, ?_⟩
    cases m <;> first | exact haside.elim | rfl
  cases m with
  | turn now =>
    cases serves_turn s now with
    | waits hphase hinbox hreplies =>
      exact .inl ⟨hphase.resolve_right fun hbegins => h.2 hbegins.1.1, hinbox, hreplies⟩
    | answers hdeed => exact absurd (running_of_deed hdeed).1 h.2
    | abandons hphase hinbox _ hreplies =>
      obtain ⟨hdraining, -, hstopped⟩ := hphase.resolve_left fun hbreaks => h.2 hbreaks.1
      exact .inr ⟨hdraining, hstopped, hinbox, hreplies⟩
  | start =>
    rcases move_start_cases s with hmove | ⟨hidle, -⟩
    · exact .inl ⟨by rw [hmove], by rw [hmove], rfl⟩
    · exact absurd hidle h.1
  | submit c =>
    rcases move_submit_cases s c with ⟨-, hmove⟩ | ⟨hrunning, -⟩
    · exact .inl ⟨by rw [hmove], by rw [hmove], rfl⟩
    · exact absurd hrunning h.2
  | shutdown => rcases move_shutdown_cases s with hmove | hmove <;> exact .inl ⟨by rw [hmove], by rw [hmove], rfl⟩
  | cancel => exact .inl ⟨rfl, rfl, rfl⟩
  | drop => exact .inl ⟨rfl, rfl, rfl⟩
  | _ => exact (haside trivial).elim

theorem request_of_over (h : s.Over) (now : Instant) (c : Command) : s.request now c = (s, .error .closed) := by
  obtain ⟨hidle, hrunning⟩ := h
  have hsubmit : s.submit c = .error .closed := by
    unfold submit
    split
    · exact absurd ‹_› hidle
    · exact absurd ‹_› hrunning
    · rfl
  rw [request, hsubmit]

theorem beginShutdown_eq_error_iff : s.beginShutdown = .error .notRunning ↔ ¬ s.attached = true := by
  unfold beginShutdown
  split <;> simp_all

/-- No command waits for a loop that is over. -/
def Cleared (s : Scheduler) : Prop := s.Over → ¬ s.Alive → s.inbox = []

theorem Cleared.move (h : s.Cleared) (m : Move) : (s.move m).Cleared := by
  intro hover hdead
  by_cases hbefore : s.Over
  · rcases queue_move hbefore m with ⟨hphase, hinbox, -⟩ | ⟨-, -, hinbox, -⟩
    · rw [hinbox]
      exact h hbefore (by rwa [Alive, ← hphase])
    · exact hinbox
  by_cases hturn : ∃ now, m = .turn now
  · obtain ⟨now, rfl⟩ := hturn
    change (s.turn now).1.Over at hover
    change ¬ (s.turn now).1.Alive at hdead
    show (s.turn now).1.inbox = []
    cases serves_turn s now with
    | waits hphase _ _ =>
      rcases hphase with hphase | ⟨-, hphase⟩
      · exact absurd (by rwa [Over, ← hphase]) hbefore
      · exact absurd (.inr hphase) hdead
    | answers _ _ _ hs' _ =>
      rw [hs'] at hover
      exact absurd hover hbefore
    | abandons _ hinbox _ _ => exact hinbox
  · push Not at hturn
    rcases phase_move_of_ne_turn (s := s) hturn with hphase | ⟨-, -, hphase⟩
    · exact absurd (by rwa [Over, ← hphase]) hbefore
    · exact absurd hphase hover.2

theorem cleared_moves (ms : List Move) : (({} : Scheduler).moves ms).Cleared := by
  induction ms using List.reverseRecOn with
  | nil => exact fun _ _ => rfl
  | append_singleton ms m ih =>
    rw [moves_append]
    exact ih.move m

/-- The commands that wait when the loop takes none any more go on waiting while it drains, and are abandoned together
when it is over. -/
theorem queue_of_over (h : s.Over) (hcleared : s.Cleared) (ms : List Move) :
    ((s.moves ms).Alive ∧ (s.moves ms).inbox = s.inbox ∧ along replies s ms = []) ∨
      ¬ (s.moves ms).Alive ∧ (s.moves ms).inbox = [] ∧ along replies s ms = s.abandonInbox.2 := by
  induction ms using List.reverseRecOn with
  | nil =>
    by_cases halive : s.Alive
    · exact .inl ⟨halive, rfl, rfl⟩
    · have hinbox := hcleared h halive
      exact .inr ⟨halive, hinbox, by rw [abandonInbox, hinbox]; rfl⟩
  | append_singleton ms m ih =>
    rw [along_concat, moves_append]
    show ((s.moves ms).move m).Alive ∧ ((s.moves ms).move m).inbox = _ ∧ _ ∨
      ¬ ((s.moves ms).move m).Alive ∧ ((s.moves ms).move m).inbox = _ ∧ _
    rcases ih with ⟨halive, hinbox, hreplies⟩ | ⟨hdead, hinbox, hreplies⟩
    · rcases queue_move (h.moves ms) m with ⟨hphase, hsame, hnone⟩ | ⟨-, hstopped, hempty, habandoned⟩
      · exact .inl ⟨by rwa [Alive, hphase], hsame.trans hinbox, by rw [hreplies, hnone, List.append_nil]⟩
      · refine .inr ⟨by simp [Alive, hstopped], hempty, ?_⟩
        rw [hreplies, habandoned, abandonInbox, hinbox]
        rfl
    · rcases queue_move (h.moves ms) m with ⟨hphase, hsame, hnone⟩ | ⟨hdraining, -⟩
      · exact .inr ⟨by rwa [Alive, hphase], hsame.trans hinbox, by rw [hreplies, hnone, List.append_nil]⟩
      · exact absurd (.inr hdraining) hdead

/-- A loop that takes no more commands hands over nothing. -/
theorem handedOver_of_over (h : s.Over) (ms : List Move) : along handedOver s ms = [] := by
  induction ms generalizing s with
  | nil => rfl
  | cons m ms ih =>
    have hnone : s.handedOver m = [] := handedOver_eq_nil fun now _ hdeed => h.2 (running_of_deed hdeed).1
    show s.handedOver m ++ _ = _
    rw [hnone, ih (h.move m)]
    rfl

/-! ## The calls of the handle -/

/-- What the calls of the handle give, and what becomes of commands, after some moves. -/
structure HandleLaw (ms : List Move) (s : Scheduler) : Prop where
  /-- The first start succeeds. -/
  start : .start ∉ ms → ∃ s', s.start = .ok s'
  restart : .start ∈ ms → s.start = .error .alreadyStarted
  /-- No command is taken before it. -/
  early : .start ∉ ms → ∀ now c, s.request now c = (s, .error .notStarted)
  /-- A loop that is told to stop acts on it in its next turn, before any command. -/
  acts : .cancel ∈ ms ∨ ShutDown ms → s.phase = .running → ∀ now, s.turn now = ({ s with phase := .draining }, [])
  told : s.phase = .draining ∨ s.phase = .stopped → .cancel ∈ ms ∨ ShutDown ms
  /-- It stops as soon as no run is in flight. -/
  stops : s.phase = .draining → s.runs = [] → ∀ now, (s.turn now).1.phase = .stopped
  /-- From then on no command is taken. -/
  late : s.Over → ∀ ms' now c, (s.moves ms').request now c = (s.moves ms', .error .closed)
  /-- Those that waited are abandoned when the loop is over, and nothing else is answered. -/
  queued : s.Over → ∀ ms',
    ((s.moves ms').Alive ∧ (s.moves ms').inbox = s.inbox ∧ along replies s ms' = []) ∨
      ¬ (s.moves ms').Alive ∧ (s.moves ms').inbox = [] ∧ along replies s ms' = s.abandonInbox.2
  /-- No job is handed over any more. -/
  silent : s.Over → ∀ ms', along handedOver s ms' = []
  /-- A command has no effect when it is sent. -/
  sent : ∀ c, (s.move (.submit c)).dispatcher = s.dispatcher
  /-- Every command that was taken is answered once or waits. -/
  tickets : (along replies {} ms).map Prod.fst ++ s.inbox.map Prod.fst = List.range s.nextTicket
  /-- The answer to a command that was not carried out leaves all stores and counters alone. -/
  unserved : ∀ now ticket e, (ticket, .error e) ∈ (s.turn now).2 → e.Unserved →
    e = .unanswered ∧ (s.turn now).1.dispatcher = s.dispatcher
  /-- A shutdown is refused before the start and after another one. -/
  shutdown : s.beginShutdown = .error .notRunning ↔ .start ∉ ms ∨ ShutDown ms
  shutdownResult : s.shutdownResult? ≠ some (.error .notRunning)

/-- The law of the handle, at any time: whatever is called in whatever order, and wherever the turns of the loop come
in between. -/
theorem handleLaw_moves (hdrop : .drop ∉ ms) : HandleLaw ms (({} : Scheduler).moves ms) := by
  have hrecalls := recalls_moves hdrop
  have hcleared := cleared_moves ms
  have hnoted := noted_moves ms
  have htickets := tickets_moves ms
  have htold := told_moves hdrop
  generalize ({} : Scheduler).moves ms = s at *
  exact {
    start := fun hnew => ⟨_, if_pos (hrecalls.idle.2 hnew)⟩
    restart := fun hold => if_neg fun hidle => hrecalls.idle.1 hidle hold
    early := fun hnew now c => by rw [request, submit, hrecalls.idle.2 hnew]
    acts := fun htold hphase now => turn_of_cancelled hphase (hrecalls.cancelled.2 htold) now
    told := htold
    stops := fun hphase hruns now => by
      rw [turn_of_drained hphase hruns]
      rfl
    late := fun hover ms' now c => request_of_over (hover.moves ms') now c
    queued := fun hover ms' => queue_of_over hover hcleared ms'
    silent := fun hover ms' => handedOver_of_over hover ms'
    sent := fun c => by rcases move_submit_cases s c with ⟨-, h⟩ | ⟨-, h⟩ <;> rw [h]
    tickets := htickets
    unserved := fun now ticket e hreply he => dispatcher_of_unserved hnoted hreply he
    shutdown := by rw [beginShutdown_eq_error_iff, hrecalls.attached, not_and_or, not_not]
    shutdownResult := by
      unfold shutdownResult?
      split <;> simp }

/-! ### A loop that is stopped while a backup is in flight -/

/-- The backup is fired and a clear is sent; then the loop is told to stop, and acts on it. -/
def evening (stop : Move) : List Move :=
  [.start, .submit (.schedule daily (.recurring tickTrigger)), .turn World.noon, .turn (.ofSecond 1714564860),
    .submit .clear, stop, .turn (.ofSecond 1714564861)]

/-- The backup begins, another command is sent, and the backup returns; its run is joined and the loop stops. -/
def night : List Move :=
  [.beginRun 0, .submit .keys, .finishRun 0 false Span.zero, .turn (.ofSecond 1714564900), .turn (.ofSecond 1714564900)]

/-- The clear that waits is abandoned, so the backup stays registered. A shutdown is possible, though the token has
stopped the loop. -/
theorem evening_handleLaw :
    let s := ({} : Scheduler).moves (evening .cancel)
    .drop ∉ evening .cancel ∧ s.phase = .draining ∧ s.inbox = [(1, .clear)] ∧
      along replies s night = [(1, .error .unanswered)] ∧ along handedOver s night = [] ∧
      (s.moves night).dispatcher.jobs.keys = [daily.key] ∧
      (s.moves night).request World.noon .keys = (s.moves night, .error .closed) ∧
      s.beginShutdown ≠ .error .notRunning := by
  intro s
  have hdrop : .drop ∉ evening .cancel := by simp [evening]
  have hlaw : HandleLaw (evening .cancel) s := handleLaw_moves hdrop
  have hphase : s.phase = .draining := by decide +kernel
  have hinbox : s.inbox = [(1, .clear)] := by decide +kernel
  have hover : s.Over := by simp [Over, hphase]
  refine ⟨hdrop, hphase, hinbox, ?_, hlaw.silent hover night, by decide +kernel, hlaw.late hover night _ _, ?_⟩
  · rcases hlaw.queued hover night with ⟨halive, -⟩ | ⟨-, -, habandoned⟩
    · exact absurd halive (by decide +kernel)
    · rw [habandoned, abandonInbox, hinbox]
      rfl
  · rw [Ne, hlaw.shutdown]
    rintro (hnew | ⟨ms₁, ms₂, heq, hmem⟩)
    · exact hnew (by simp [evening])
    · have hshutdown : .shutdown ∈ evening .cancel := by
        rw [heq]
        exact List.mem_append_right _ (List.mem_cons_of_mem _ hmem)
      simp [evening] at hshutdown

/-! ## Whether the loop is running -/

/-- When the handle says that the loop is running, and when the loop is alive, after some moves. -/
structure RunningLaw (ms : List Move) (s : Scheduler) : Prop where
  /-- The handle says so as long as the loop is alive, unless it was shut down. -/
  isRunning : s.isRunning = true ↔ s.Alive ∧ ¬ ShutDown ms
  /-- The loop is alive from the start on. -/
  starts : .start ∉ ms → ¬ s.Alive ∧ (s.move .start).Alive
  /-- It ends in a turn: when it drains and no run is in flight, or when it breaks down. -/
  ends : s.Alive → ∀ m, ¬ (s.move m).Alive ↔
    ∃ now, m = .turn now ∧ (s.phase = .draining ∧ s.runs = [] ∨ (s.move m).phase = .broken)
  /-- Then it is over for good. -/
  ended : .start ∈ ms → ¬ s.Alive → ∀ ms', ¬ (s.moves ms').Alive

/-- A loop that is alive ends only in a turn, without a run in flight or by breaking down. -/
theorem not_alive_move_iff (halive : s.Alive) : ¬ (s.move m).Alive ↔
    ∃ now, m = .turn now ∧ (s.phase = .draining ∧ s.runs = [] ∨ (s.move m).phase = .broken) := by
  constructor
  · intro hdead
    rcases phase_move s m with hsame | ⟨-, -, hphase⟩ | ⟨now, hm, ⟨-, ⟨-, hphase⟩ | hbroken⟩ | ⟨hdraining, hruns, -⟩⟩
    · exact absurd (by rwa [Alive, hsame]) hdead
    · exact absurd (.inl hphase) hdead
    · exact absurd (.inr hphase) hdead
    · exact ⟨now, hm, .inr hbroken⟩
    · exact ⟨now, hm, .inl ⟨hdraining, hruns⟩⟩
  · rintro ⟨now, rfl, ⟨hdraining, hruns⟩ | hbroken⟩
    · show ¬ (s.turn now).1.Alive
      rw [turn_of_drained hdraining hruns]
      simp [Alive, abandonInbox, atHead]
    · simp [Alive, hbroken]

/-- When the handle says that the loop is running, at any time: whatever is called in whatever order, and wherever the
turns of the loop and the ends of runs come in between. -/
theorem runningLaw_moves (hdrop : .drop ∉ ms) : RunningLaw ms (({} : Scheduler).moves ms) := by
  have hrecalls := recalls_moves hdrop
  generalize ({} : Scheduler).moves ms = s at hrecalls
  have hstarted : s.Alive → .start ∈ ms := by
    intro halive
    by_contra hnew
    rcases halive with hphase | hphase <;> simp [hrecalls.idle.2 hnew] at hphase
  exact {
    isRunning := by
      rw [isRunning_eq_true_iff, hrecalls.attached]
      exact ⟨fun h => ⟨h.1, h.2.2⟩, fun h => ⟨h.1, hstarted h.1, h.2⟩⟩
    starts := fun hnew => by
      refine ⟨fun halive => hnew (hstarted halive), .inl ?_⟩
      rw [move, start, if_pos (hrecalls.idle.2 hnew)]
    ends := fun halive m => not_alive_move_iff halive
    ended := fun hold hdead ms' => by
      have hidle : s.phase ≠ .idle := fun hidle => hrecalls.idle.1 hidle hold
      exact not_alive_moves ⟨hidle, fun hrunning => hdead (.inl hrunning)⟩ hdead ms' }

/-- The handle says so while a loop that the token has stopped waits for its run, and no longer once the loop is over.
-/
theorem evening_runningLaw :
    let s := ({} : Scheduler).moves (evening .cancel)
    .drop ∉ evening .cancel ∧ s.phase = .draining ∧ s.runs ≠ [] ∧ s.isRunning = true ∧
      ∀ ms, ((s.moves night).moves ms).isRunning = false := by
  intro s
  have hdrop : .drop ∉ evening .cancel ++ night := by simp [evening, night]
  have hlaw : RunningLaw (evening .cancel ++ night) (s.moves night) := moves_append {} _ _ ▸ runningLaw_moves hdrop
  have hdead : ¬ (s.moves night).Alive := by decide +kernel
  refine ⟨fun h => hdrop (List.mem_append_left _ h), by decide +kernel, by decide +kernel, by decide +kernel, ?_⟩
  intro ms
  have hgone := hlaw.ended (by simp [evening]) hdead ms
  exact Bool.eq_false_iff.2 fun hrunning => hgone (isRunning_eq_true_iff.1 hrunning).1

/-- After a shutdown the handle says that the loop is not running, though it waits for a run in flight. -/
theorem evening_not_isRunning :
    let s := ({} : Scheduler).moves (evening .shutdown)
    s.phase = .draining ∧ s.runs ≠ [] ∧ ¬ (s.isRunning = true ↔ s.Alive) := by
  decide +kernel

end Scheduler

end Rota
