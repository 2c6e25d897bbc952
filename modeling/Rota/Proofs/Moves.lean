import Rota.Proofs.Turn

/-!
# Moves

A `Move` is one atomic step of a scheduler with what it is given, of the loop, of its handle or of a run.

- what a pass launches is what it hands over, and nothing else hands anything over (`Scheduler.handedOver_of_pass`,
  `Scheduler.handedOver_eq_nil`);
- over any moves the stores of a loop that has not broken down stay in order (`Scheduler.Ordered.moves`);
- a loop breaks down only in a turn in the last second of the calendar (`Scheduler.second_of_broken`).
-/

namespace Rota

open Dispatcher (Deed)

namespace Scheduler

variable {s s' : Scheduler} {now : Instant}

/-! ## Moves -/

/-- One atomic step of a scheduler, with what it is given. -/
inductive Move
  | start
  | cancel
  | drop
  | shutdown
  | submit (c : Command)
  | turn (now : Instant)
  | beginRun (id : Nat)
  | finishRun (id : Nat) (panicked : Bool) (took : Span)
  /-- A client changes what is recorded. -/
  | registry (r : Registry)

/-- The scheduler after a move; a move that is not possible changes nothing. -/
def move (s : Scheduler) : Move → Scheduler
  | .start => match s.start with
    | .ok s => s
    | .error _ => s
  | .cancel => s.cancel
  | .drop => s.drop
  | .shutdown => match s.beginShutdown with
    | .ok s => s
    | .error _ => s
  | .submit c => match s.submit c with
    | .ok (s, _) => s
    | .error _ => s
  | .turn now => (s.turn now).1
  | .beginRun id => s.beginRun id
  | .finishRun id panicked took => s.finishRun id panicked took
  | .registry r => s.withRegistry fun _ => r

/-- The scheduler after moves in a row. -/
def moves (s : Scheduler) (ms : List Move) : Scheduler := ms.foldl move s

theorem moves_append (s : Scheduler) (ms ms' : List Move) : s.moves (ms ++ ms') = (s.moves ms).moves ms' :=
  List.foldl_append

/-- What the moves of a history yield, in their order. -/
def along {α : Type} (f : Scheduler → Move → List α) : Scheduler → List Move → List α
  | _, [] => []
  | s, m :: ms => f s m ++ along f (s.move m) ms

theorem along_concat {α : Type} (f : Scheduler → Move → List α) (s : Scheduler) (ms : List Move) (m : Move) :
    along f s (ms ++ [m]) = along f s ms ++ f (s.moves ms) m := by
  induction ms generalizing s with
  | nil => exact List.append_nil _
  | cons m' ms ih => exact (congrArg (f s m' ++ ·) (ih _)).trans (List.append_assoc _ _ _).symm

/-- What a move of a history yields is among what the history yields. -/
theorem mem_along {α : Type} {f : Scheduler → Move → List α} {x : α} {m : Move} {ms ms' : List Move}
    (hx : x ∈ f (s.moves ms) m) : x ∈ along f s (ms ++ m :: ms') := by
  induction ms generalizing s with
  | nil => exact List.mem_append_left _ hx
  | cons m' ms ih => exact List.mem_append_right _ (ih hx)

/-- A start does nothing, or sets a loop going that was idle. -/
theorem move_start_cases (s : Scheduler) :
    s.move .start = s ∨ s.phase = .idle ∧ s.move .start =
      { s with phase := .running, attached := true, dispatcher := s.dispatcher.noteRegistered } := by
  unfold move start
  by_cases hidle : s.phase = .idle
  · rw [if_pos hidle]
    exact .inr ⟨hidle, rfl⟩
  · rw [if_neg hidle]
    exact .inl rfl

/-- A shutdown does nothing, or tells the loop to stop. -/
theorem move_shutdown_cases (s : Scheduler) :
    s.move .shutdown = s ∨ s.move .shutdown = { s with attached := false, cancelled := true } := by
  unfold move beginShutdown
  cases s.attached
  · exact .inl rfl
  · exact .inr rfl

/-- A command that is sent to a running loop waits in the inbox, and any other is lost. -/
theorem move_submit_cases (s : Scheduler) (c : Command) :
    (s.phase ≠ .running ∧ s.move (.submit c) = s) ∨ s.phase = .running ∧ s.move (.submit c) =
      { s with inbox := s.inbox ++ [(s.nextTicket, c)], nextTicket := s.nextTicket + 1 } := by
  unfold move submit
  cases hphase : s.phase with
  | running => exact .inr ⟨rfl, rfl⟩
  | _ => exact .inl ⟨by simp, rfl⟩

/-- A move that neither lets the loop turn nor gives it anything leaves the stores alone. -/
theorem sameStores_move {m : Move} (hturn : ∀ now, m ≠ .turn now) (hsubmit : ∀ c, m ≠ .submit c)
    (hregistry : ∀ r, m ≠ .registry r) : SameStores s (s.move m) := by
  cases m with
  | start =>
    rcases move_start_cases s with h | ⟨hidle, h⟩ <;> rw [h]
    · exact .refl s
    · exact ⟨rfl, rfl, rfl, by simp [hidle], Nat.le_refl _, .inl rfl⟩
  | cancel => exact ⟨rfl, rfl, rfl, .rfl, Nat.le_refl _, .inl rfl⟩
  | drop => exact ⟨rfl, rfl, rfl, .rfl, Nat.le_refl _, .inl rfl⟩
  | shutdown =>
    rcases move_shutdown_cases s with h | h <;> rw [h]
    · exact .refl s
    · exact ⟨rfl, rfl, rfl, .rfl, Nat.le_refl _, .inl rfl⟩
  | submit c => exact absurd rfl (hsubmit c)
  | turn now => exact absurd rfl (hturn now)
  | beginRun id => exact sameStores_beginRun s id
  | finishRun id panicked took => exact sameStores_finishRun s id panicked took
  | registry r => exact absurd rfl (hregistry r)

/-! ## What is handed over -/

/-- The jobs that a move hands over to run, in their order. -/
def handedOver (s : Scheduler) (m : Move) : List Dispatch := ((s.move m).runs.drop s.runs.length).map Run.dispatch

/-- A launch changes nothing but the runs in flight. -/
theorem frame_launch (s : Scheduler) (xs : List Dispatch) :
    ∃ runs nextRun, s.launch xs = { s with runs, nextRun } := by
  induction xs generalizing s with
  | nil => exact ⟨s.runs, s.nextRun, rfl⟩
  | cons x xs ih =>
    obtain ⟨runs, nextRun, h⟩ := ih { s with runs := s.runs ++ [⟨s.nextRun, x.detail, x.fireTime, .waiting⟩]
                                             nextRun := s.nextRun + 1 }
    exact ⟨runs, nextRun, h⟩

/-- What is launched joins the runs in flight. -/
theorem dispatches_launch (s : Scheduler) (xs : List Dispatch) :
    (s.launch xs).runs.map Run.dispatch = s.runs.map Run.dispatch ++ xs := by
  induction xs generalizing s with
  | nil => exact (List.append_nil _).symm
  | cons x xs ih =>
    have hx := ih { s with runs := s.runs ++ [⟨s.nextRun, x.detail, x.fireTime, .waiting⟩], nextRun := s.nextRun + 1 }
    rw [List.map_append, List.append_assoc] at hx
    exact hx

/-- The runs after a timer pass. -/
theorem runs_takePass (s : Scheduler) (now : Instant) :
    (s.takePass now).1.runs =
      ({ s with dispatcher := (s.dispatcher.pass now).dispatcher }.launch (s.dispatcher.pass now).fired).runs := by
  unfold takePass
  dsimp only
  split <;> rfl

/-- A turn that makes a pass notes the number of jobs, unless the pass breaks down. -/
theorem dispatcher_takePass (s : Scheduler) (now : Instant) :
    ∃ noted, (s.takePass now).1.dispatcher = { (s.dispatcher.pass now).dispatcher with
        metrics := { (s.dispatcher.pass now).dispatcher.metrics with registered := noted } } ∧
      ((s.takePass now).1.phase ≠ .broken → noted = UInt64.ofNat (s.dispatcher.pass now).dispatcher.jobs.size) := by
  obtain ⟨runs, nextRun, hlaunch⟩ := frame_launch
    { s with dispatcher := (s.dispatcher.pass now).dispatcher } (s.dispatcher.pass now).fired
  unfold takePass
  dsimp only
  rw [hlaunch]
  split
  · exact ⟨_, rfl, fun h => absurd rfl h⟩
  · exact ⟨_, rfl, fun _ => rfl⟩

/-- The jobs after a timer pass, also if it breaks down. -/
theorem jobs_takePass (s : Scheduler) (now : Instant) :
    (s.takePass now).1.dispatcher.jobs = (s.dispatcher.pass now).dispatcher.jobs := by
  obtain ⟨noted, h, -⟩ := dispatcher_takePass s now
  rw [h]

theorem registry_takePass (s : Scheduler) (now : Instant) :
    (s.takePass now).1.registry = (s.dispatcher.pass now).dispatcher.registry := by
  obtain ⟨noted, h, -⟩ := dispatcher_takePass s now
  rw [registry, h]

/-- A timer pass that comes to its end leaves the jobs, the queue and the registry of the dispatcher. -/
theorem takePass_of_unbroken (hbroken : (s.dispatcher.pass now).broken = false) :
    ∃ m, (s.takePass now).1.dispatcher = { (s.dispatcher.pass now).dispatcher with metrics := m } ∧
      (s.takePass now).1.phase = s.phase ∧ (s.takePass now).1.inbox = s.inbox := by
  obtain ⟨runs, nextRun, hlaunch⟩ := frame_launch
    { s with dispatcher := (s.dispatcher.pass now).dispatcher } (s.dispatcher.pass now).fired
  unfold takePass
  dsimp only
  rw [if_neg (by simp [hbroken]), hlaunch]
  exact ⟨_, rfl, rfl, rfl⟩

/-- After a timer pass that breaks down no command waits. -/
theorem takePass_of_broken (hbroken : (s.dispatcher.pass now).broken = true) :
    (s.takePass now).1.phase = .broken ∧ (s.takePass now).1.inbox = [] := by
  unfold takePass
  dsimp only
  rw [if_pos hbroken]
  exact ⟨rfl, rfl⟩

/-- A loop that goes on after a timer pass has come to the end of it. -/
theorem unbroken_of_takePass (halive : (s.takePass now).1.phase ≠ .broken) :
    (s.dispatcher.pass now).broken = false := by
  by_contra h
  exact halive (takePass_of_broken (Bool.not_eq_false _ ▸ h)).1

/-- A timer pass hands over what the dispatcher fires. -/
theorem handedOver_of_pass (h : s.deed? = some .pass) (now : Instant) :
    s.handedOver (.turn now) = (s.dispatcher.pass now).fired := by
  show ((s.turn now).1.runs.drop s.runs.length).map Run.dispatch = _
  rw [turn_of_pass h, List.map_drop, runs_takePass, dispatches_launch]
  exact List.drop_left' (List.length_map _)

/-- Nothing but a timer pass hands over anything. -/
theorem handedOver_eq_nil {m : Move} (h : ∀ now, m = .turn now → s.deed? ≠ some .pass) : s.handedOver m = [] := by
  have hruns : (s.move m).runs.length ≤ s.runs.length := by
    cases m with
    | turn now =>
      cases hdeed : s.deed? with
      | none => exact (sameStores_turn hdeed now).runs
      | some x =>
        cases x with
        | pass => exact absurd hdeed (h now rfl)
        | command c =>
          show (s.turn now).1.runs.length ≤ _
          rcases turn_of_command hdeed now with ⟨_, _, _, _, -, -, ht⟩ | ⟨-, ht, -⟩ <;> rw [ht]
    | submit c => rcases move_submit_cases s c with ⟨-, h⟩ | ⟨-, h⟩ <;> rw [h]
    | registry r => exact Nat.le_refl _
    | _ => exact (sameStores_move (by simp) (by simp) (by simp)).runs
  unfold handedOver
  rw [List.drop_eq_nil_of_le hruns]
  rfl

/-- A turn leaves no command in the inbox that did not wait there. -/
theorem mem_inbox_turn {x : Nat × Command} (hx : x ∈ (s.turn now).1.inbox) : x ∈ s.inbox := by
  cases hdeed : s.deed? with
  | none =>
    rcases (sameStores_turn hdeed now).inbox with hi | hi
    · exact hi ▸ hx
    · rw [hi] at hx
      cases hx
  | some y =>
    cases y with
    | command c =>
      rcases turn_of_command hdeed now with ⟨ticket, inbox, d, reply, hinbox, -, ht⟩ | ⟨-, ht, -⟩
      · rw [ht] at hx
        exact hinbox ▸ List.mem_cons_of_mem _ hx
      · rw [ht] at hx
        cases hx
    | pass =>
      rw [turn_of_pass hdeed] at hx
      cases hbroken : (s.dispatcher.pass now).broken with
      | true =>
        rw [(takePass_of_broken hbroken).2] at hx
        cases hx
      | false =>
        obtain ⟨m, -, -, hinbox⟩ := takePass_of_unbroken hbroken
        exact hinbox ▸ hx

/-! ## Stores in order -/

end Scheduler

/-- A recurring trigger that a command brings in was made from an expression. -/
def Command.Parsed : Command → Prop
  | .schedule _ t => t.Parsed
  | _ => True

/-- A command keeps the triggers made from expressions. -/
theorem Dispatcher.Parsed.handle {d d' : Dispatcher} {now : Instant} {c : Command}
    {reply : Except SchedulerError Answer} (hd : d.Parsed) (hc : c.Parsed) (h : d.handle now c = some (d', reply)) :
    d'.Parsed := by
  intro k r hr
  rcases handle_cases h with ⟨rfl, -⟩ | ⟨r', t, rfl, -, ht, rfl, -⟩ | ⟨k', -, -, rfl, -⟩ | ⟨-, rfl, -⟩
  · exact hd _ _ hr
  · simp only [Dispatcher.enter, Std.ExtTreeMap.getElem?_insert] at hr
    split at hr
    · cases hr
      exact Trigger.parsed_of_next hc ht
    · exact hd _ _ hr
  · rw [Std.ExtTreeMap.getElem?_erase] at hr
    split at hr
    · cases hr
    · exact hd _ _ hr
  · exact absurd hr (by simp [Dispatcher.clear])

namespace Scheduler

variable {s : Scheduler}

/-- A move that brings in no recurring trigger but one that was made from an expression. -/
def Move.Parsed : Move → Prop
  | .submit c => c.Parsed
  | _ => True

/-- The stores of a loop that has not broken down are tidy, and all recurring triggers were made from expressions. -/
structure Ordered (s : Scheduler) : Prop where
  tidy : s.phase ≠ .broken → s.dispatcher.Tidy
  parsed : s.phase ≠ .broken → s.dispatcher.Parsed
  inbox : ∀ x ∈ s.inbox, x.2.Parsed

theorem ordered_default : ({} : Scheduler).Ordered :=
  ⟨fun _ => Dispatcher.tidy_empty _ _, fun _ _ _ h => absurd h (by simp), by simp⟩

theorem SameStores.ordered {s' : Scheduler} (h : SameStores s s') (hs : s.Ordered) : s'.Ordered := by
  refine ⟨fun hb => (hs.tidy (mt h.broken.2 hb)).of_eq h.jobs h.queue, fun hb k r hr => ?_, fun x hx => ?_⟩
  · exact hs.parsed (mt h.broken.2 hb) k r (h.jobs ▸ hr)
  · rcases h.inbox with hi | hi
    · exact hs.inbox x (hi ▸ hx)
    · rw [hi] at hx
      cases hx

theorem Ordered.turn (hs : s.Ordered) (now : Instant) : (s.turn now).1.Ordered := by
  cases hdeed : s.deed? with
  | none => exact (sameStores_turn hdeed now).ordered hs
  | some x =>
    have hphase : s.phase ≠ .broken := by simp [(running_of_deed hdeed).1]
    have hinbox : ∀ x ∈ (s.turn now).1.inbox, x.2.Parsed := fun x hx => hs.inbox x (mem_inbox_turn hx)
    cases x with
    | command c =>
      obtain ⟨ticket, hmem⟩ := exists_mem_inbox hdeed
      rcases turn_of_command hdeed now with ⟨ticket', inbox, d, reply, -, hd, ht⟩ | ⟨-, ht, -⟩
      · have htidy := (hs.tidy hphase).handle hd
        have hparsed := (hs.parsed hphase).handle (hs.inbox _ hmem) hd
        rw [ht] at hinbox ⊢
        exact ⟨fun _ => htidy.of_eq rfl rfl, fun _ => hparsed, hinbox⟩
      · rw [ht]
        exact ⟨fun h => absurd rfl h, fun h => absurd rfl h, by simp⟩
    | pass =>
      rw [turn_of_pass hdeed] at hinbox ⊢
      cases hbroken : (s.dispatcher.pass now).broken with
      | true =>
        have hphase' := (takePass_of_broken hbroken).1
        exact ⟨fun h => absurd hphase' h, fun h => absurd hphase' h, hinbox⟩
      | false =>
        obtain ⟨m, hdispatcher, -, -⟩ := takePass_of_unbroken hbroken
        have htidy := (hs.tidy hphase).passFor hbroken
        have hparsed := (hs.parsed hphase).pass (hs.tidy hphase) hbroken
        refine ⟨fun _ => htidy.of_eq ?_ ?_, fun _ k r hr => ?_, hinbox⟩
        · rw [hdispatcher]
          rfl
        · rw [hdispatcher]
          rfl
        · rw [hdispatcher] at hr
          exact hparsed k r hr

theorem Ordered.move (hs : s.Ordered) {m : Move} (hm : m.Parsed) : (s.move m).Ordered := by
  cases m with
  | turn now => exact hs.turn now
  | submit c =>
    rcases move_submit_cases s c with ⟨-, h⟩ | ⟨-, h⟩ <;> rw [h]
    · exact hs
    · refine ⟨hs.tidy, hs.parsed, fun x hx => ?_⟩
      rcases List.mem_append.1 hx with hx | hx
      · exact hs.inbox x hx
      · cases List.mem_singleton.1 hx
        exact hm
  | registry r => exact ⟨fun h => (hs.tidy h).of_eq rfl rfl, hs.parsed, hs.inbox⟩
  | _ => exact (sameStores_move (by simp) (by simp) (by simp)).ordered hs

theorem Ordered.moves (hs : s.Ordered) {ms : List Move} (hms : ∀ m ∈ ms, m.Parsed) : (s.moves ms).Ordered := by
  induction ms generalizing s with
  | nil => exact hs
  | cons m ms ih =>
    exact ih (hs.move (hms m List.mem_cons_self)) fun m' hm' => hms m' (List.mem_cons_of_mem _ hm')

/-! ## Breakdowns -/

/-- A loop that has broken down stays so. -/
theorem move_of_broken (h : s.phase = .broken) (m : Move) : (s.move m).phase = .broken := by
  cases m with
  | turn now =>
    show (s.turn now).1.phase = _
    unfold turn
    rw [h]
    exact h
  | submit c => rcases move_submit_cases s c with ⟨-, hmove⟩ | ⟨-, hmove⟩ <;> rwa [hmove]
  | registry r => exact h
  | _ => exact (sameStores_move (by simp) (by simp) (by simp)).broken.2 h

theorem moves_of_broken (h : s.phase = .broken) (ms : List Move) : (s.moves ms).phase = .broken := by
  induction ms generalizing s with
  | nil => exact h
  | cons m ms ih => exact ih (move_of_broken h m)

/-- A loop breaks down only in a turn in the last second of the calendar. -/
theorem second_of_broken (hs : s.Ordered) {m : Move} (h : (s.move m).phase = .broken) :
    s.phase = .broken ∨ ∃ now, m = .turn now ∧ Instant.lastSecond ≤ now.second := by
  cases m with
  | turn now =>
    change (s.turn now).1.phase = _ at h
    cases hdeed : s.deed? with
    | none => exact .inl ((sameStores_turn hdeed now).broken.1 h)
    | some x =>
      have hphase : s.phase ≠ .broken := by simp [(running_of_deed hdeed).1]
      cases x with
      | command c =>
        rcases turn_of_command hdeed now with ⟨ticket, inbox, d, reply, -, -, ht⟩ | ⟨hnone, -, -⟩
        · rw [ht] at h
          exact absurd h hphase
        · exact .inr ⟨now, rfl, Dispatcher.second_of_handle_none hnone⟩
      | pass =>
        rw [turn_of_pass hdeed] at h
        cases hbroken : (s.dispatcher.pass now).broken with
        | true => exact .inr ⟨now, rfl, Dispatcher.second_of_broken (hs.tidy hphase) hbroken⟩
        | false =>
          obtain ⟨m, -, hsame, -⟩ := takePass_of_unbroken hbroken
          exact absurd (hsame ▸ h) hphase
  | submit c => rcases move_submit_cases s c with ⟨-, hmove⟩ | ⟨-, hmove⟩ <;> rw [hmove] at h <;> exact .inl h
  | registry r => exact .inl h
  | _ => exact .inl ((sameStores_move (by simp) (by simp) (by simp)).broken.1 h)

end Scheduler

end Rota
