import Rota.Proofs.Ledger
import Rota.Proofs.Lifecycle

/-!
# The loop drains

A loop that is told to stop hands over nothing more, joins the runs in flight and stops when none is left. A shutdown
waits for that, or for its limit of time.

- a loop that is told to stop has stopped when its runs are over and it has had its turns (`Scheduler.Winding.stops`);
- so a shutdown that succeeds finds every run over and counted, and one that gives up leaves the runs to go on to their
  end (`Scheduler.drainLaw_moves`).
-/

namespace Rota

namespace Scheduler

variable {s : Scheduler} {m : Move} {ms ms' : List Move} {now : Instant}

/-! ## Winding up -/

/-- A loop that was told to stop and has not broken down. -/
structure Winding (s : Scheduler) : Prop where
  cancelled : s.cancelled = true
  phase : s.phase = .running ∨ s.phase = .draining ∨ s.phase = .stopped

theorem Winding.no_deed (h : s.Winding) : s.deed? = none := by
  cases hdeed : s.deed? with
  | none => rfl
  | some x => exact absurd (running_of_deed hdeed).2 (by simp [h.cancelled])

theorem Winding.move (h : s.Winding) (m : Move) : (s.move m).Winding := by
  obtain ⟨hcancelled, hphase⟩ := h
  constructor
  · by_cases haside : m.Aside
    · rw [(aside_move (s := s) haside).2.2.cancelled, hcancelled]
    cases m with
    | turn now => exact (sameHandle_turn s now).cancelled.trans hcancelled
    | start => rcases move_start_cases s with hm | ⟨-, hm⟩ <;> rw [hm] <;> exact hcancelled
    | shutdown => rcases move_shutdown_cases s with hm | hm <;> rw [hm]; exact hcancelled
    | submit c => rcases move_submit_cases s c with ⟨-, hm⟩ | ⟨-, hm⟩ <;> rw [hm] <;> exact hcancelled
    | cancel => rfl
    | drop => exact hcancelled
    | _ => exact (haside trivial).elim
  · rcases phase_move s m with hsame | ⟨-, hidle, -⟩ | ⟨now, rfl, ⟨hrunning, -⟩ | ⟨-, -, hstopped⟩⟩
    · rwa [hsame]
    · rcases hphase with h | h | h <;> rw [h] at hidle <;> cases hidle
    · refine .inr (.inl ?_)
      rw [Scheduler.move, turn_of_cancelled hrunning hcancelled]
    · exact .inr (.inr hstopped)

theorem Winding.moves (h : s.Winding) (ms : List Move) : (s.moves ms).Winding := by
  induction ms generalizing s with
  | nil => exact h
  | cons m ms ih => exact ih (h.move m)

theorem Winding.launched_move (h : s.Winding) (m : Move) : s.launched m = [] :=
  launched_eq_nil fun _ _ hdeed => by simp [h.no_deed] at hdeed

/-- A loop that winds up launches nothing. -/
theorem Winding.launched (h : s.Winding) (ms : List Move) : along launched s ms = [] := by
  induction ms generalizing s with
  | nil => rfl
  | cons m ms ih => exact (congrArg (· ++ _) (h.launched_move m)).trans (ih (h.move m))

theorem Winding.length_runs (h : s.Winding) (ms : List Move) : (s.moves ms).runs.length ≤ s.runs.length := by
  induction ms generalizing s with
  | nil => exact Nat.le_refl _
  | cons m ms ih => exact Nat.le_trans (ih (h.move m)) (List.drop_eq_nil_iff.1 (h.launched_move m))

/-- The turns that a loop that winds up needs when its runs are over: one to begin to drain, one for each run, and one
to stop. -/
def turnsLeft (s : Scheduler) : Nat :=
  match s.phase with
  | .running => s.runs.length + 2
  | .draining => s.runs.length + 1
  | _ => 0

theorem turnsLeft_le (s : Scheduler) : s.turnsLeft ≤ s.runs.length + 2 := by
  unfold turnsLeft
  split <;> omega

/-- A run that is over can be joined. -/
theorem exists_endedRun? (hover : ∀ r ∈ s.runs, r.isOver = true) (hne : s.runs ≠ []) :
    ∃ id panicked, s.endedRun? = some (id, panicked) := by
  obtain ⟨r, l, hruns⟩ := List.exists_cons_of_ne_nil hne
  obtain ⟨p, hp⟩ := Option.isSome_iff_exists.1 (hover r (hruns ▸ List.mem_cons_self))
  exact ⟨r.id, p, by simp [endedRun?, hruns, hp]⟩

/-- A turn of a loop that winds up, when its runs are over, leaves one turn less to be made. -/
theorem Winding.turn (h : s.Winding) (hs : s.Sound) (hover : ∀ r ∈ s.runs, r.isOver = true) (now : Instant) :
    (∀ r ∈ (s.turn now).1.runs, r.isOver = true) ∧ (s.turn now).1.turnsLeft = s.turnsLeft - 1 := by
  rcases h.phase with hphase | hphase | hphase
  · rw [turn_of_cancelled hphase h.cancelled]
    exact ⟨hover, by simp [turnsLeft, hphase]⟩
  · by_cases hruns : s.runs = []
    · rw [turn_of_drained hphase hruns]
      exact ⟨hover, by simp [turnsLeft, hphase, hruns, abandonInbox, atHead]⟩
    · obtain ⟨id, panicked, hended⟩ := exists_endedRun? hover hruns
      obtain ⟨l, r, l', hsplit, -, hjoin⟩ := exists_split_of_endedRun? hs hended
      have hturn : s.turn now = (s.join id panicked, []) := by
        unfold Scheduler.turn drainingTurn
        rw [hphase, hended]
      have hphase' : (s.join id panicked).phase = .draining := hphase
      rw [hturn]
      refine ⟨fun x hx => hover x (List.mem_of_mem_filter hx), ?_⟩
      simp only [turnsLeft, hphase, hphase', hjoin, hsplit, List.length_append, List.length_cons]
      omega
  · have hturn : s.turn now = (s, []) := by
      unfold Scheduler.turn
      rw [hphase]
    rw [hturn]
    exact ⟨hover, by simp [turnsLeft, hphase]⟩

/-- A loop that winds up stops once its runs are over. -/
theorem Winding.stops (h : s.Winding) (hs : s.Sound) (hover : ∀ r ∈ s.runs, r.isOver = true) {nows : List Instant}
    (hturns : s.turnsLeft ≤ nows.length) : (s.moves (nows.map .turn)).phase = .stopped := by
  induction nows generalizing s with
  | nil =>
    have hnone : s.turnsLeft = 0 := Nat.le_zero.1 hturns
    rcases h.phase with hphase | hphase | hphase
    · simp [turnsLeft, hphase] at hnone
    · simp [turnsLeft, hphase] at hnone
    · exact hphase
  | cons now nows ih =>
    obtain ⟨hover', hleft⟩ := h.turn hs hover now
    rw [List.length_cons] at hturns
    exact ih (h.move (.turn now)) (sound_move hs _) hover' (hleft ▸ Nat.sub_le_of_le_add hturns)

/-- Once every run of a loop that winds up has ended, all runs that are left are over. -/
theorem Winding.all_over (h : s.Winding) (hs : s.Sound) (hordered : s.Ordered) (hms : ∀ m ∈ ms, m.Parsed)
    (hends : ∀ r ∈ s.runs, r.isOver = true ∨ ∃ r' ∈ along ended s ms, r'.id = r.id) :
    ∀ r ∈ (s.moves ms).runs, r.isOver = true := by
  have hentries := entries_moves hs hordered hms
  rw [h.launched ms, List.append_nil] at hentries
  intro r hr
  by_contra hnot
  have hway : r.asLaunched ∈ (s.moves ms).underWay := List.mem_map_of_mem (List.mem_filter.2 ⟨hr, by simpa using hnot⟩)
  -- The run was under way before, so it has ended, and is listed twice.
  obtain ⟨r₀, hr₀, heq⟩ := List.mem_map.1 (hentries.subset (List.mem_append_right _ hway))
  obtain ⟨hmem, hnot₀⟩ := List.mem_filter.1 hr₀
  have hid : r₀.asLaunched.id = r.asLaunched.id := congrArg Run.id heq
  rcases hends r₀ hmem with hover | ⟨r', hr', hid'⟩
  · simp [hover] at hnot₀
  · have hnodup : (s.underWay.map Run.id).Nodup := by
      rw [underWay, List.map_map]
      exact (List.filter_sublist.map Run.id).nodup hs.ids
    have hlisted := (hentries.map Run.id).nodup_iff.2 hnodup
    rw [List.map_append, List.nodup_append] at hlisted
    refine hlisted.2.2 r.id ?_ r.id (List.mem_map.2 ⟨_, hway, rfl⟩) rfl
    exact List.mem_map.2 ⟨r'.asLaunched, List.mem_map_of_mem hr', hid'.trans hid⟩

/-! ## One run to its end -/

theorem run?_of_mem (hs : s.Sound) {r : Run} (hr : r ∈ s.runs) : s.run? r.id = some r := by
  cases hfound : s.run? r.id with
  | none => exact absurd (List.find?_eq_none.1 hfound r hr) (by simp)
  | some r' =>
    have hid : r'.id = r.id := by simpa using List.find?_some hfound
    rw [List.inj_on_of_nodup_map hs.ids (List.mem_of_find?_eq_some hfound) hr hid]

/-- A run that waits gets to work or skips its work when it begins. -/
theorem runs_beginRun {id : Nat} {r : Run} (hr : s.run? id = some r) (hwaiting : r.status = .waiting) :
    ∃ status, (status = .inside ∨ status = .skipping) ∧ (s.beginRun id).runs = (s.setStatus id status).runs := by
  obtain ⟨i, ⟨key, job⟩, fireTime, status⟩ := r
  cases hwaiting
  unfold beginRun
  rw [hr]
  cases job with
  | chore label panics => exact ⟨.inside, .inl rfl, rfl⟩
  | backup b =>
    cases hguard : (s.guard b).acquire? with
    | some g => exact ⟨.inside, .inl rfl, by simp only [hguard]; rfl⟩
    | none => exact ⟨.skipping, .inr rfl, by simp only [hguard]; rfl⟩

theorem beginRun_of_not_waiting {id : Nat} {r : Run} (hr : s.run? id = some r) (hwaiting : r.status ≠ .waiting) :
    s.beginRun id = s := by
  obtain ⟨i, ⟨key, job⟩, fireTime, status⟩ := r
  unfold beginRun
  rw [hr]
  cases status with
  | waiting => exact absurd rfl hwaiting
  | _ => rfl

/-- A run that has begun is over when it finishes. -/
theorem runs_finishRun {id : Nat} {r : Run} (hr : s.run? id = some r)
    (hwork : r.status = .inside ∨ r.status = .skipping) (panicked : Bool) (took : Span) :
    ∃ p, (s.finishRun id panicked took).runs = (s.setStatus id (.ended p)).runs := by
  obtain ⟨i, ⟨key, job⟩, fireTime, status⟩ := r
  unfold finishRun
  rw [hr]
  rcases hwork with hstatus | hstatus <;> cases hstatus
  · exact ⟨panicked, by cases job <;> cases panicked <;> rfl⟩
  · exact ⟨false, rfl⟩

/-- A run that has begun can end. -/
theorem exists_ended_finishRun (hs : s.Sound) {r : Run} (hr : r ∈ s.runs)
    (hwork : r.status = .inside ∨ r.status = .skipping) (panicked : Bool) (took : Span) :
    ∃ r' ∈ s.ended (.finishRun r.id panicked took), r'.asLaunched = r.asLaunched := by
  obtain ⟨l, l', hsplit, hset⟩ := exists_split_of_run? hs.ids (run?_of_mem hs hr)
  obtain ⟨p, hfinish⟩ := runs_finishRun (run?_of_mem hs hr) hwork panicked took
  have hnot : r.isOver = false := by rcases hwork with h | h <;> simp [Run.isOver, Run.ended?, h]
  have hended := ended_of_split (m := .finishRun r.id panicked took) hs hsplit hnot (hfinish.trans (hset _))
  exact ⟨{ r with status := .ended p }, by rw [hended]; exact List.mem_singleton_self _, rfl⟩

/-- Every run in flight that is not over can begin and end, whatever the loop does. -/
theorem exists_ended (hs : s.Sound) {r : Run} (hr : r ∈ s.runs) (hnot : r.isOver = false) (panicked : Bool)
    (took : Span) :
    ∃ r' ∈ along ended s [.beginRun r.id, .finishRun r.id panicked took], r'.asLaunched = r.asLaunched := by
  obtain ⟨r₁, hr₁, hsame, hwork⟩ : ∃ r₁ ∈ (s.beginRun r.id).runs, r₁.asLaunched = r.asLaunched ∧
      (r₁.status = .inside ∨ r₁.status = .skipping) := by
    by_cases hwaiting : r.status = .waiting
    · obtain ⟨status, hstatus, hbegin⟩ := runs_beginRun (run?_of_mem hs hr) hwaiting
      obtain ⟨l, l', -, hset⟩ := exists_split_of_run? hs.ids (run?_of_mem hs hr)
      refine ⟨{ r with status }, ?_, rfl, hstatus⟩
      rw [hbegin, hset]
      exact List.mem_append_right _ List.mem_cons_self
    · refine ⟨r, by rwa [beginRun_of_not_waiting (run?_of_mem hs hr) hwaiting], rfl, ?_⟩
      cases hstatus : r.status with
      | waiting => exact absurd hstatus hwaiting
      | inside => exact .inl rfl
      | skipping => exact .inr rfl
      | ended p => simp [Run.isOver, Run.ended?, hstatus] at hnot
  have hid : r₁.asLaunched.id = r.asLaunched.id := congrArg Run.id hsame
  obtain ⟨r', hr', heq⟩ := exists_ended_finishRun (sound_beginRun hs r.id) hr₁ hwork panicked took
  refine ⟨r', List.mem_append_right _ (List.mem_append_left _ ?_), heq.trans hsame⟩
  change r₁.id = r.id at hid
  exact hid ▸ hr'

/-! ## Shutdowns -/

/-- What a shutdown returns that looks at the loop, `elapsed` if its limit of time is over. It goes on waiting as long
as this is nothing. -/
def shutdownReturn? (s : Scheduler) (elapsed : Bool) : Option (Except ShutdownError Unit) :=
  match s.shutdownResult? with
  | some result => some result
  | none => if elapsed then some (.error .timeout) else none

theorem phase_of_shutdownReturn? {elapsed : Bool} (h : s.shutdownReturn? elapsed = some (.ok ())) :
    s.phase = .stopped := by
  unfold shutdownReturn? shutdownResult? at h
  cases hphase : s.phase <;> cases elapsed <;> simp [hphase] at h ⊢

/-- A loop that has stopped has no run in flight. -/
theorem runs_of_stopped (ms : List Move) (h : (({} : Scheduler).moves ms).phase = .stopped) :
    (({} : Scheduler).moves ms).runs = [] := by
  induction ms using List.reverseRecOn with
  | nil => rfl
  | append_singleton ms m ih =>
    rw [moves_append] at h ⊢
    change ((({} : Scheduler).moves ms).move m).phase = _ at h
    show ((({} : Scheduler).moves ms).move m).runs = _
    generalize ({} : Scheduler).moves ms = s at h ih ⊢
    have hbefore : s.runs = [] ∧ s.phase ≠ .running := by
      rcases phase_move s m with hsame | ⟨-, -, hphase⟩ | ⟨-, -, ⟨-, ⟨-, hphase⟩ | hphase⟩ | ⟨hdraining, hruns, -⟩⟩
      · have hstopped : s.phase = .stopped := hsame.symm.trans h
        exact ⟨ih hstopped, by simp [hstopped]⟩
      · simp [h] at hphase
      · simp [h] at hphase
      · simp [h] at hphase
      · exact ⟨hruns, by simp [hdraining]⟩
    have hlaunched : s.launched m = [] :=
      launched_eq_nil fun now _ hdeed => hbefore.2 (running_of_deed hdeed).1
    rwa [launched, hbefore.1] at hlaunched

/-- Every run that was launched has returned or panicked, and is counted so. -/
structure Drained (ms : List Move) (s : Scheduler) : Prop where
  runs : s.runs = []
  /-- Each run that was launched has ended, once. -/
  entries : ((along ended {} ms).map Run.asLaunched).Perm (along launched {} ms)
  ids : ((along launched {} ms).map Run.id).Nodup
  running : s.metrics.running = 0
  fired : s.metrics.fired = UInt64.ofNat (along launched {} ms).length
  returned : s.metrics.durations.count = UInt64.ofNat ((along ended {} ms).countP (·.status = .ended false))
  panicked : s.metrics.panicked = UInt64.ofNat ((along ended {} ms).countP (·.status = .ended true))
  balance : s.metrics.fired = s.metrics.durations.count + s.metrics.panicked

/-- What a shutdown gives after some moves, and what becomes of the runs in whatever moves come later. -/
structure DrainLaw (ms ms' : List Move) (s : Scheduler) : Prop where
  /-- A shutdown that succeeds finds every run over. -/
  drained : ∀ elapsed, s.shutdownReturn? elapsed = some (.ok ()) → Drained ms s
  /-- From when the loop has acted on the cancellation it launches nothing. -/
  silent : s.Over → along launched s ms' = []
  /-- No run is given up: it ends or goes on being under way. -/
  kept : (s.moves ms').phase ≠ .broken →
    ((along ended s ms').map Run.asLaunched ++ (s.moves ms').underWay).Perm (s.underWay ++ along launched s ms')
  /-- A run in flight can begin and end at any time. -/
  goesOn : s.phase ≠ .broken → ∀ r ∈ s.runs, r.isOver = false → ∀ panicked took,
    ∃ r' ∈ along ended s [.beginRun r.id, .finishRun r.id panicked took], r'.asLaunched = r.asLaunched
  /-- A shutdown whose limit is over before the loop reports it and does no more: once the runs have ended and the loop
  has had its turns, all is as after a shutdown that succeeds. -/
  overtime : s.cancelled = true → s.Alive → s.shutdownReturn? true = some (.error .timeout) ∧
    ((∀ r ∈ s.runs, r.isOver = true ∨ ∃ r' ∈ along ended s ms', r'.id = r.id) →
      ∀ nows : List Instant, s.runs.length + 1 < nows.length →
        let turns := nows.map Move.turn
        ((s.moves ms').moves turns).shutdownReturn? true = some (.ok ()) ∧
          Drained (ms ++ ms' ++ turns) ((s.moves ms').moves turns))

theorem drained_of_stopped (hms : ∀ m ∈ ms, m.Parsed) (h : (({} : Scheduler).moves ms).phase = .stopped) :
    Drained ms (({} : Scheduler).moves ms) := by
  have hruns := runs_of_stopped ms h
  obtain ⟨hentries, hids, hfired, hreturned, hpanicked⟩ := ledger_moves hms
  obtain ⟨t, ⟨hcounted, hinFlight, hreturns, -⟩, -⟩ := exists_tally hms
  generalize ({} : Scheduler).moves ms = s at *
  rw [underWay, hruns, List.filter_nil, List.map_nil, List.append_nil] at hentries
  rw [hruns, List.countP_nil] at hpanicked
  rw [hruns] at hcounted hinFlight hreturns
  refine ⟨hruns, hentries, hids ▸ List.nodup_range, congrArg Metrics.running hcounted, hfired, hreturned,
    (UInt64.add_zero _).symm.trans hpanicked, ?_⟩
  have hhanded : t.handed = t.returned + t.panicked := by
    rw [List.length_nil] at hinFlight
    rw [List.countP_nil] at hreturns
    omega
  calc s.metrics.fired = UInt64.ofNat t.handed := congrArg Metrics.fired hcounted
    _ = UInt64.ofNat t.returned + UInt64.ofNat t.panicked := by rw [hhanded, UInt64.ofNat_add]
    _ = s.metrics.durations.count + s.metrics.panicked :=
      congrArg₂ (· + ·) (congrArg (·.durations.count) hcounted).symm (congrArg Metrics.panicked hcounted).symm

/-- What is launched is what is handed over. -/
theorem dispatch_along_launched (s : Scheduler) (ms : List Move) :
    (along launched s ms).map Run.dispatch = along handedOver s ms := by
  induction ms generalizing s with
  | nil => rfl
  | cons m ms ih => exact (List.map_append ..).trans (congrArg (s.handedOver m ++ ·) (ih _))

/-- The law of a shutdown, whatever is in flight and in whatever order the runs begin, return and panic. -/
theorem drainLaw_moves (hms : ∀ m ∈ ms ++ ms', m.Parsed) : DrainLaw ms ms' (({} : Scheduler).moves ms) := by
  have hms₁ : ∀ m ∈ ms, m.Parsed := fun m hm => hms m (List.mem_append_left _ hm)
  have hms₂ : ∀ m ∈ ms', m.Parsed := fun m hm => hms m (List.mem_append_right _ hm)
  have hs := sound_after ms
  have hordered := ordered_default.moves hms₁
  refine ⟨fun elapsed h => drained_of_stopped hms₁ (phase_of_shutdownReturn? h), fun hover => ?_,
    fun _ => entries_moves hs hordered hms₂, fun _ r hr hnot panicked took => exists_ended hs hr hnot panicked took, ?_⟩
  · have hnone := handedOver_of_over hover ms'
    rw [← dispatch_along_launched] at hnone
    exact List.map_eq_nil_iff.1 hnone
  · intro hcancelled halive
    have hwinding : (({} : Scheduler).moves ms).Winding := ⟨hcancelled, halive.imp_right .inl⟩
    refine ⟨?_, fun hends nows hturns => ?_⟩
    · rcases halive with h | h <;> simp [shutdownReturn?, shutdownResult?, h]
    · have hover := hwinding.all_over hs hordered hms₂ hends
      have hleft := ((({} : Scheduler).moves ms).moves ms').turnsLeft_le
      have hfewer := hwinding.length_runs ms'
      have hstopped := (hwinding.moves ms').stops (sound_moves hs ms') hover (show _ ≤ nows.length by omega)
      refine ⟨by simp [shutdownReturn?, shutdownResult?, hstopped], ?_⟩
      rw [← moves_append, ← moves_append, ← List.append_assoc] at hstopped ⊢
      refine drained_of_stopped (fun m hm => ?_) hstopped
      rcases List.mem_append.1 hm with hm | hm
      · exact hms m hm
      · obtain ⟨now, -, rfl⟩ := List.mem_map.1 hm
        trivial

/-- The backup is in flight when the loop is shut down. The shutdown may give up; the backup still returns and is
counted, and the loop stops. -/
theorem evening_drainLaw :
    let s := ({} : Scheduler).moves (evening .shutdown)
    let ended : List Move := [.beginRun 0, .submit .keys, .finishRun 0 false Span.zero]
    let turns := [World.noon, World.noon, World.noon].map Move.turn
    (∀ m ∈ evening .shutdown ++ ended, m.Parsed) ∧ s.runs.map Run.id = [0] ∧
      s.shutdownReturn? true = some (.error .timeout) ∧ along launched s ended = [] ∧
      ((s.moves ended).moves turns).shutdownReturn? true = some (.ok ()) ∧
      Drained (evening .shutdown ++ ended ++ turns) ((s.moves ended).moves turns) := by
  intro s ended turns
  have hparsed : (Trigger.recurring tickTrigger).Parsed := ⟨"* * * * *", by decide +kernel⟩
  have hms : ∀ m ∈ evening .shutdown ++ ended, m.Parsed := by
    simp [evening, ended, Move.Parsed, Command.Parsed, hparsed]
  have hlaw : DrainLaw (evening .shutdown) ended s := drainLaw_moves hms
  have hphase : s.phase = .draining := by decide +kernel
  obtain ⟨htimeout, hdrains⟩ := hlaw.overtime (by decide +kernel) (.inr hphase)
  obtain ⟨hreturns, hdrained⟩ := hdrains (by decide +kernel) [World.noon, World.noon, World.noon] (by decide +kernel)
  exact ⟨hms, by decide +kernel, htimeout, hlaw.silent (by simp [Over, hphase]), hreturns, hdrained⟩

end Scheduler

end Rota
