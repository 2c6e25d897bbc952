import Rota.Proofs.Flight
import Rota.Proofs.Moves

/-!
# What is counted of runs

What a scheduler counts of runs is counted in several places: a timer pass counts what it hands over, a run counts its
skip when it begins and its execution time when it returns, and the loop counts a panic when it joins the run.

- what a move does to the runs in flight is one of six things (`Scheduler.runStep`);
- a `Tally` follows what became of the jobs that were handed over. It adds up, and its numbers are those of the counters
  (`Tally.Fits`). Every move keeps such a tally (`Tally.Fits.move`).
-/

namespace Rota

namespace Dispatcher

variable {d : Dispatcher} {now : Instant} {n : Nat}

/-- A pass counts what it hands over, however far it comes. -/
theorem metrics_passFor (hd : d.Tidy) :
    (passFor now n d).dispatcher.metrics = { d.metrics with
      fired := d.metrics.fired + .ofNat (passFor now n d).fired.length
      running := d.metrics.running + .ofNat (passFor now n d).fired.length } := by
  induction n generalizing d with
  | zero => simp [passFor]
  | succ n ih =>
    rcases passFor_succ_cases hd now n with ⟨hp, -⟩ | ⟨k, r, hr, -, ⟨hp, -⟩ | ⟨hp, -⟩⟩
    · simp [hp]
    · have hcount : (d.settle k (r.fire now)).metrics = countFired d.metrics := by cases r.fire now <;> rfl
      rw [hp]
      simp only [Pass.after, ih (hd.settle hr), hcount, countFired, List.length_cons, Nat.add_comm _ 1,
        UInt64.ofNat_add, UInt64.add_assoc]
      rfl
    · simp [hp]

theorem metrics_pass (d : Dispatcher) (now : Instant) (hd : d.Tidy) :
    (d.pass now).dispatcher.metrics = { d.metrics with
      fired := d.metrics.fired + .ofNat (d.pass now).fired.length
      running := d.metrics.running + .ofNat (d.pass now).fired.length } := metrics_passFor hd

end Dispatcher

/-- What is counted of runs. -/
def Metrics.ofRuns (m : Metrics) : Metrics :=
  { m with scheduled := 0, clears := 0, registered := 0, durations := ⟨m.durations.count, 0⟩ }

namespace Scheduler

variable {s : Scheduler} {m : Move} {ms : List Move} {now : Instant} {id : Nat}

/-! ## Steps of runs -/

/-- The backup that gets to work in a move. -/
def delegated (s : Scheduler) : Move → List Backup
  | .beginRun id => (s.delegated? id).toList
  | _ => []

/-- What a move does to the runs in flight and what it counts of them. -/
inductive RunStep (s : Scheduler) (m : Move) : Prop
  /-- It leaves them alone. -/
  | still (hruns : (s.move m).runs = s.runs) (hcounts : (s.move m).metrics.ofRuns = s.metrics.ofRuns)
      (hdelegated : s.delegated m = [])
  /-- It hands over jobs. -/
  | launched (l : List Run) (hruns : (s.move m).runs = s.runs ++ l) (hwaiting : ∀ r ∈ l, r.status = .waiting)
      (hcounts : (s.move m).metrics.ofRuns = { s.metrics.ofRuns with
        fired := s.metrics.ofRuns.fired + UInt64.ofNat l.length
        running := s.metrics.ofRuns.running + UInt64.ofNat l.length })
      (hdelegated : s.delegated m = [])
  /-- A run gets to work. -/
  | began (l l' : List Run) (r : Run) (hsplit : s.runs = l ++ r :: l') (hwaiting : r.status = .waiting)
      (hruns : (s.move m).runs = l ++ { r with status := .inside } :: l')
      (hcounts : (s.move m).metrics.ofRuns = s.metrics.ofRuns)
      (hdelegated : ∀ b, r.detail.job = .backup b → s.delegated m = [b])
  /-- A run of a backup is skipped. -/
  | skipped (l l' : List Run) (r : Run) (b : Backup) (hsplit : s.runs = l ++ r :: l') (hwaiting : r.status = .waiting)
      (hruns : (s.move m).runs = l ++ { r with status := .skipping } :: l')
      (hcounts : (s.move m).metrics.ofRuns = s.metrics.ofRuns.skip b.kind) (hdelegated : s.delegated m = [])
  /-- A run ends. -/
  | ended (l l' : List Run) (r : Run) (panicked : Bool) (hsplit : s.runs = l ++ r :: l')
      (hwork : r.status = .inside ∨ r.status = .skipping)
      (hruns : (s.move m).runs = l ++ { r with status := .ended panicked } :: l')
      (hcounts : (s.move m).metrics.ofRuns = { s.metrics.ofRuns with
        durations := ⟨s.metrics.ofRuns.durations.count + UInt64.ofNat (!panicked).toNat, 0⟩ })
      (hdelegated : s.delegated m = [])
  /-- A run that is over is taken out. -/
  | joined (l l' : List Run) (r : Run) (panicked : Bool) (hsplit : s.runs = l ++ r :: l')
      (hended : r.status = .ended panicked) (hruns : (s.move m).runs = l ++ l')
      (hcounts : (s.move m).metrics.ofRuns = { s.metrics.ofRuns with
        running := s.metrics.ofRuns.running - 1
        panicked := s.metrics.ofRuns.panicked + UInt64.ofNat panicked.toNat })
      (hdelegated : s.delegated m = [])

/-- What is launched waits. -/
theorem exists_runs_launch (s : Scheduler) (xs : List Dispatch) :
    ∃ l, (s.launch xs).runs = s.runs ++ l ∧ l.length = xs.length ∧ ∀ r ∈ l, r.status = .waiting := by
  induction xs generalizing s with
  | nil => exact ⟨[], (List.append_nil _).symm, rfl, by simp⟩
  | cons x xs ih =>
    obtain ⟨l, hruns, hlength, hwaiting⟩ := ih { s with
      runs := s.runs ++ [⟨s.nextRun, x.detail, x.fireTime, .waiting⟩]
      nextRun := s.nextRun + 1 }
    refine ⟨⟨s.nextRun, x.detail, x.fireTime, .waiting⟩ :: l, ?_, congrArg (· + 1) hlength, fun r hr => ?_⟩
    · rw [List.append_assoc] at hruns
      exact hruns
    · rcases List.mem_cons.1 hr with rfl | hr
      · rfl
      · exact hwaiting r hr

/-- A run that is joined is taken out from among the others. -/
theorem exists_split_of_endedRun? (hs : s.Sound) {panicked : Bool} (h : s.endedRun? = some (id, panicked)) :
    ∃ l r l', s.runs = l ++ r :: l' ∧ r.status = .ended panicked ∧ (s.join id panicked).runs = l ++ l' := by
  obtain ⟨r, hr, hid, hstatus⟩ := exists_of_endedRun? h
  obtain ⟨l, l', hsplit⟩ := List.append_of_mem hr
  refine ⟨l, r, l', hsplit, hstatus, ?_⟩
  have hids := hs.ids
  rw [hsplit, List.map_append, List.map_cons, List.nodup_append, List.nodup_cons] at hids
  obtain ⟨-, ⟨hl', -⟩, hl⟩ := hids
  show s.runs.filter (·.id != id) = _
  rw [hsplit, List.filter_append, List.filter_cons, if_neg (by simp [hid])]
  congr 1
  · refine List.filter_eq_self.2 fun x hx => ?_
    have hne := hl x.id (List.mem_map_of_mem hx) r.id List.mem_cons_self
    simpa [← hid] using hne
  · refine List.filter_eq_self.2 fun x hx => ?_
    have hne : x.id ≠ r.id := fun heq => hl' (List.mem_map.2 ⟨x, hx, heq⟩)
    simpa [← hid] using hne

theorem runStep_join (hs : s.Sound) {panicked : Bool} (h : s.endedRun? = some (id, panicked))
    (hmove : (s.move m).runs = (s.join id panicked).runs)
    (hcounts : (s.move m).metrics.ofRuns = (s.join id panicked).metrics.ofRuns) (hdelegated : s.delegated m = []) :
    s.RunStep m := by
  obtain ⟨l, r, l', hsplit, hstatus, hruns⟩ := exists_split_of_endedRun? hs h
  refine .joined l l' r panicked hsplit hstatus (hmove.trans hruns) (hcounts.trans ?_) hdelegated
  cases panicked
  · simp [join, withMetrics, metrics, Metrics.ofRuns]
  · rfl

/-- A command counts nothing of runs. -/
theorem ofRuns_handle {d d' : Dispatcher} {c : Command} {reply : Except SchedulerError Answer}
    (h : d.handle now c = some (d', reply)) : d'.metrics.ofRuns = d.metrics.ofRuns := by
  rcases Dispatcher.handle_cases h with ⟨rfl, -⟩ | ⟨r, t, rfl, -, -, rfl, -⟩ | ⟨k, -, -, rfl, -⟩ | ⟨-, rfl, -⟩ <;> rfl

theorem runStep_turn (hs : s.Sound) (hordered : s.Ordered) (now : Instant) : s.RunStep (.turn now) := by
  cases hdeed : s.deed? with
  | none =>
    rcases turn_of_idle hdeed now with ⟨-, ht⟩ | ⟨id, panicked, hended, ⟨-, ht⟩ | ⟨-, ht⟩⟩ | ⟨-, -, ht⟩ | ⟨-, ht⟩ <;>
      replace ht : s.move (.turn now) = _ := congrArg Prod.fst ht
    · exact .still (by rw [ht]) (by rw [ht]; rfl) rfl
    · exact runStep_join hs hended (by rw [ht]; rfl) (by rw [ht]; rfl) rfl
    · exact runStep_join hs hended (by rw [ht]) (by rw [ht]) rfl
    · exact .still (by rw [ht]; rfl) (by rw [ht]; rfl) rfl
    · exact .still (by rw [ht]) (by rw [ht]) rfl
  | some x =>
    cases x with
    | command c =>
      rcases turn_of_command hdeed now with ⟨ticket, inbox, d, reply, -, hd, ht⟩ | ⟨-, ht, -⟩
      · replace ht : s.move (.turn now) = _ := congrArg Prod.fst ht
        have hcounts : d.metrics.ofRuns = s.metrics.ofRuns := ofRuns_handle hd
        exact .still (by rw [ht]) (by rw [ht]; exact hcounts) rfl
      · replace ht : s.move (.turn now) = _ := ht
        exact .still (by rw [ht]) (by rw [ht]; rfl) rfl
    | pass =>
      have hphase : s.phase ≠ .broken := by simp [(running_of_deed hdeed).1]
      have hturn : s.move (.turn now) = (s.takePass now).1 := congrArg Prod.fst (turn_of_pass hdeed now)
      obtain ⟨l, hruns, hlength, hwaiting⟩ := exists_runs_launch
        { s with dispatcher := (s.dispatcher.pass now).dispatcher } (s.dispatcher.pass now).fired
      have hcounts := congrArg Metrics.ofRuns (s.dispatcher.metrics_pass now (hordered.tidy hphase))
      refine .launched l (by rw [hturn, runs_takePass, hruns]) hwaiting ?_ rfl
      obtain ⟨noted, hdispatcher, -⟩ := dispatcher_takePass s now
      rw [hturn, metrics, hdispatcher, hlength]
      exact hcounts

theorem runStep_beginRun (hs : s.Sound) (id : Nat) : s.RunStep (.beginRun id) := by
  have hstill : s.beginRun id = s → s.delegated? id = none → s.RunStep (.beginRun id) := fun hbegin hdelegated =>
    .still (congrArg Scheduler.runs hbegin) (congrArg (fun s => s.metrics.ofRuns) hbegin)
      (congrArg Option.toList hdelegated)
  cases hr : s.run? id with
  | none => exact hstill (by unfold beginRun; rw [hr]) (by unfold delegated?; rw [hr])
  | some r =>
    obtain ⟨l, l', hsplit, hset⟩ := exists_split_of_run? hs.ids hr
    obtain ⟨i, ⟨key, job⟩, fireTime, status⟩ := r
    cases status with
    | waiting =>
      cases job with
      | chore label panics =>
        have hbegin : s.beginRun id = s.setStatus id .inside := by unfold beginRun; rw [hr]
        refine .began l l' _ hsplit rfl ((congrArg Scheduler.runs hbegin).trans (hset .inside)) ?_ (by simp)
        exact congrArg (fun s => s.metrics.ofRuns) hbegin
      | backup b =>
        cases hguard : (s.guard b).taken with
        | false =>
          obtain ⟨hdelegated, hbegin⟩ := beginRun_of_free hr rfl rfl hguard
          refine .began l l' _ hsplit rfl ((congrArg Scheduler.runs hbegin).trans (hset .inside)) ?_ fun b' hb' => ?_
          · exact congrArg (fun s => s.metrics.ofRuns) hbegin
          · cases hb'
            exact congrArg Option.toList hdelegated
        | true =>
          obtain ⟨hdelegated, hbegin⟩ := beginRun_of_taken hr rfl rfl hguard
          refine .skipped l l' _ b hsplit rfl ((congrArg Scheduler.runs hbegin).trans (hset .skipping)) ?_ ?_
          · refine (congrArg (fun s => s.metrics.ofRuns) hbegin).trans ?_
            cases b.kind <;> rfl
          · exact congrArg Option.toList hdelegated
    | _ => exact hstill (by simp [beginRun, hr]) (by simp [delegated?, hr])

theorem runStep_finishRun (hs : s.Sound) (id : Nat) (panicked : Bool) (took : Span) :
    s.RunStep (.finishRun id panicked took) := by
  have hstill : s.finishRun id panicked took = s → s.RunStep (.finishRun id panicked took) := fun hfinish =>
    .still (congrArg Scheduler.runs hfinish) (congrArg (fun s => s.metrics.ofRuns) hfinish) rfl
  cases hr : s.run? id with
  | none => exact hstill (by unfold finishRun; rw [hr])
  | some r =>
    obtain ⟨l, l', hsplit, hset⟩ := exists_split_of_run? hs.ids hr
    obtain ⟨i, ⟨key, job⟩, fireTime, status⟩ := r
    cases status with
    | inside =>
      refine .ended l l' _ panicked hsplit (.inl rfl) ?_ ?_ rfl
      · rw [← hset (.ended panicked)]
        unfold move finishRun
        simp only [hr]
        cases job <;> cases panicked <;> rfl
      · unfold move finishRun
        simp only [hr]
        cases job <;> cases panicked <;>
          simp [setStatus, recordDuration, releaseGuard, withMetrics, metrics, Metrics.ofRuns, Histogram.record]
    | skipping =>
      refine .ended l l' _ false hsplit (.inr rfl) ?_ ?_ rfl
      · rw [← hset (.ended false)]
        unfold move finishRun
        simp only [hr]
        rfl
      · unfold move finishRun
        simp only [hr]
        rfl
    | _ => exact hstill (by simp [finishRun, hr])

/-- What a move does to the runs in flight. -/
theorem runStep (hs : s.Sound) (hordered : s.Ordered) (m : Move) : s.RunStep m := by
  have hstill : ∀ {s' : Scheduler}, s.move m = s' → s'.runs = s.runs → s'.metrics.ofRuns = s.metrics.ofRuns →
      s.delegated m = [] → s.RunStep m := by
    rintro _ rfl hruns hcounts hdelegated
    exact .still hruns hcounts hdelegated
  cases m with
  | turn now => exact runStep_turn hs hordered now
  | beginRun id => exact runStep_beginRun hs id
  | finishRun id panicked took => exact runStep_finishRun hs id panicked took
  | start => rcases move_start_cases s with h | ⟨-, h⟩ <;> exact hstill h rfl rfl rfl
  | shutdown => rcases move_shutdown_cases s with h | h <;> exact hstill h rfl rfl rfl
  | submit c => rcases move_submit_cases s c with ⟨-, h⟩ | ⟨-, h⟩ <;> exact hstill h rfl rfl rfl
  | _ => exact hstill rfl rfl rfl rfl

/-- A move hands over as many jobs as there are more runs. -/
theorem length_handedOver (s : Scheduler) (m : Move) :
    (s.handedOver m).length = (s.move m).runs.length - s.runs.length := by
  rw [handedOver, List.length_map, List.length_drop]

/-! ## Tallies -/

/-- What became of the jobs that were handed over. -/
structure Tally where
  handed : Nat
  /-- Those that got to work. -/
  begun : Nat
  skippedFull : Nat
  skippedIncremental : Nat
  returned : Nat
  /-- Those that were joined after they returned. -/
  joined : Nat
  /-- Those that were joined after they panicked. -/
  panicked : Nat

/-- The counters of a tally, with a number of runs in flight. -/
def Tally.metrics (t : Tally) (running : Nat) : Metrics where
  fired := .ofNat t.handed
  running := .ofNat running
  panicked := .ofNat t.panicked
  skippedFull := .ofNat t.skippedFull
  skippedIncremental := .ofNat t.skippedIncremental
  durations := ⟨.ofNat t.returned, 0⟩

/-- Counts a skipped backup of a kind. -/
def Tally.skip (t : Tally) : Kind → Tally
  | .full => { t with skippedFull := t.skippedFull + 1 }
  | .incremental => { t with skippedIncremental := t.skippedIncremental + 1 }

theorem Tally.metrics_skip (t : Tally) (k : Kind) (n : Nat) : (t.skip k).metrics n = (t.metrics n).skip k := by
  cases k
  · simp [skip, metrics, Metrics.skip, UInt64.ofNat_add]
  · simp [skip, metrics, Metrics.skip, UInt64.ofNat_add]

/-- A skip is the only thing that is counted. -/
theorem Tally.skip_spec (t : Tally) (k : Kind) :
    (t.skip k).handed = t.handed ∧ (t.skip k).begun = t.begun ∧ (t.skip k).returned = t.returned ∧
      (t.skip k).joined = t.joined ∧ (t.skip k).panicked = t.panicked ∧
      (t.skip k).skippedFull + (t.skip k).skippedIncremental = t.skippedFull + t.skippedIncremental + 1 := by
  cases k
  · exact ⟨rfl, rfl, rfl, rfl, rfl, Nat.add_right_comm _ _ _⟩
  · exact ⟨rfl, rfl, rfl, rfl, rfl, rfl⟩

/-- A tally adds up, and is what is counted. -/
structure Tally.Fits (t : Tally) (s : Scheduler) : Prop where
  counted : s.metrics.ofRuns = t.metrics s.runs.length
  inFlight : t.handed = s.runs.length + t.joined + t.panicked
  returned : t.returned = t.joined + s.runs.countP (·.status = .ended false)
  tried : t.handed = t.begun + t.skippedFull + t.skippedIncremental + s.runs.countP (·.status = .waiting)

theorem Tally.Fits.move {t : Tally} (h : t.Fits s) (hs : s.Sound) (hordered : s.Ordered) (m : Move) :
    ∃ t' : Tally, t'.Fits (s.move m) ∧ t'.handed = t.handed + (s.handedOver m).length ∧
      ((∀ r ∈ s.runs, ∃ b, r.detail.job = .backup b) → t'.begun = t.begun + (s.delegated m).length) := by
  obtain ⟨hcounted, hinFlight, hreturned, htried⟩ := h
  have hlength := length_handedOver s m
  cases runStep hs hordered m with
  | still hruns hcounts hdelegated =>
    rw [hruns, Nat.sub_self] at hlength
    refine ⟨t, ⟨?_, ?_, ?_, ?_⟩, ?_, fun _ => ?_⟩
    · rw [hcounts, hcounted, hruns]
    · rw [hinFlight, hruns]
    · rw [hreturned, hruns]
    · rw [htried, hruns]
    · rw [hlength, Nat.add_zero]
    · rw [hdelegated, List.length_nil, Nat.add_zero]
  | launched l hruns hwaiting hcounts hdelegated =>
    rw [hruns, List.length_append, Nat.add_sub_cancel_left] at hlength
    have hnew : l.countP (·.status = .ended false) = 0 ∧ l.countP (·.status = .waiting) = l.length := by
      refine ⟨List.countP_eq_zero.2 fun r hr => ?_, List.countP_eq_length.2 fun r hr => ?_⟩
      · simp [hwaiting r hr]
      · simp [hwaiting r hr]
    refine ⟨{ t with handed := t.handed + l.length }, ⟨?_, ?_, ?_, ?_⟩, ?_, fun _ => ?_⟩
    · rw [hcounts, hcounted, hruns]
      simp [Tally.metrics, UInt64.ofNat_add]
    · simp only [hruns, List.length_append]
      omega
    · simp only [hruns, List.countP_append]
      omega
    · simp only [hruns, List.countP_append]
      omega
    · rw [hlength]
    · rw [hdelegated, List.length_nil, Nat.add_zero]
  | began l l' r hsplit hwaiting hruns hcounts hdelegated =>
    refine ⟨{ t with begun := t.begun + 1 }, ⟨?_, ?_, ?_, ?_⟩, ?_, fun hbackups => ?_⟩
    · rw [hcounts, hcounted, hruns, hsplit]
      simp [Tally.metrics]
    · simp [hruns, hinFlight, hsplit]
    · simp [hruns, hreturned, hsplit, hwaiting]
    · simp [hruns, htried, hsplit, hwaiting]
      omega
    · simp [hlength, hruns, hsplit]
    · obtain ⟨b, hb⟩ := hbackups r (by simp [hsplit])
      rw [hdelegated b hb, List.length_singleton]
  | skipped l l' r b hsplit hwaiting hruns hcounts hdelegated =>
    obtain ⟨hhanded, hbegun, hreturned', hjoined, hpanicked, hskips⟩ := t.skip_spec b.kind
    refine ⟨t.skip b.kind, ⟨?_, ?_, ?_, ?_⟩, ?_, fun _ => ?_⟩
    · rw [hcounts, hcounted, Tally.metrics_skip, hruns, hsplit]
      simp
    · simp [hruns, hhanded, hjoined, hpanicked, hinFlight, hsplit]
    · simp [hruns, hreturned', hjoined, hreturned, hsplit, hwaiting]
    · simp only [hsplit, List.countP_append, List.countP_cons, hwaiting] at htried
      simp only [hruns, hhanded, hbegun, List.countP_append, List.countP_cons]
      simp at htried ⊢
      omega
    · simp [hlength, hhanded, hruns, hsplit]
    · rw [hdelegated, hbegun, List.length_nil, Nat.add_zero]
  | ended l l' r p hsplit hwork hruns hcounts hdelegated =>
    have hworking : r.status ≠ .waiting ∧ ∀ p, r.status ≠ .ended p := by
      rcases hwork with h | h <;> simp [h]
    refine ⟨{ t with returned := t.returned + (!p).toNat }, ⟨?_, ?_, ?_, ?_⟩, ?_, fun _ => ?_⟩
    · rw [hcounts, hcounted, hruns, hsplit]
      simp [Tally.metrics, UInt64.ofNat_add]
    · simp [hruns, hinFlight, hsplit]
    · cases p <;> simp [hruns, hreturned, hsplit, hworking]
      omega
    · simp [hruns, htried, hsplit, hworking]
    · simp [hlength, hruns, hsplit]
    · rw [hdelegated, List.length_nil, Nat.add_zero]
  | joined l l' r p hsplit hended hruns hcounts hdelegated =>
    refine ⟨{ t with joined := t.joined + (!p).toNat, panicked := t.panicked + p.toNat }, ⟨?_, ?_, ?_, ?_⟩, ?_,
      fun _ => ?_⟩
    · have hrunning : UInt64.ofNat s.runs.length - 1 = UInt64.ofNat (l ++ l').length := by
        rw [hsplit, List.length_append, List.length_cons, ← Nat.add_assoc, UInt64.ofNat_add, List.length_append]
        exact UInt64.add_sub_cancel _ _
      rw [hcounts, hcounted, hruns]
      simp only [Tally.metrics, hrunning, UInt64.ofNat_add]
    · rw [hsplit] at hinFlight
      cases p <;> simp [hruns] at hinFlight ⊢ <;> omega
    · cases p <;> simp [hruns, hreturned, hsplit, hended]
      omega
    · simp [hruns, htried, hsplit, hended]
    · simp [hlength, hruns, hsplit]
    · rw [hdelegated, List.length_nil, Nat.add_zero]

/-! ## Sound runs -/

theorem sound_move (hs : s.Sound) (m : Move) : (s.move m).Sound := by
  cases m with
  | turn now => exact sound_turn hs now
  | beginRun id => exact sound_beginRun hs id
  | finishRun id panicked took => exact sound_finishRun hs id panicked took
  | start => rcases move_start_cases s with h | ⟨-, h⟩ <;> rw [h] <;> exact hs.of_eq rfl rfl rfl
  | shutdown => rcases move_shutdown_cases s with h | h <;> rw [h] <;> exact hs.of_eq rfl rfl rfl
  | submit c => rcases move_submit_cases s c with ⟨-, h⟩ | ⟨-, h⟩ <;> rw [h] <;> exact hs.of_eq rfl rfl rfl
  | _ => exact hs.of_eq rfl rfl rfl

theorem sound_moves (hs : s.Sound) (ms : List Move) : (s.moves ms).Sound := by
  induction ms generalizing s with
  | nil => exact hs
  | cons m ms ih => exact ih (sound_move hs m)

end Scheduler

end Rota
