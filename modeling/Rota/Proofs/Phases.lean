import Mathlib.Data.List.Induction
import Rota.Proofs.Answer

/-!
# The phases of a scheduler

A scheduler is started once, takes commands, and is told to stop by its token or by a shutdown.

- in one move the loop goes at most one phase further (`Scheduler.phase_move`);
- what was called says whether the loop is set going, held by the handle or told to stop (`Scheduler.recalls_moves`);
- so a loop that drains or has stopped was told to, as long as the handle exists (`Scheduler.told_moves`).
-/

namespace Rota

namespace Scheduler

variable {s : Scheduler} {m : Move} {ms : List Move} {now : Instant}

/-! ## What was called -/

/-- A scheduler was shut down after it had been started. -/
def ShutDown (ms : List Move) : Prop := ∃ ms₁ ms₂, ms = ms₁ ++ .start :: ms₂ ∧ .shutdown ∈ ms₂

theorem start_mem_of_shutDown (h : ShutDown ms) : .start ∈ ms := by
  obtain ⟨ms₁, ms₂, rfl, -⟩ := h
  exact List.mem_append_right _ List.mem_cons_self

theorem shutDown_concat : ShutDown (ms ++ [m]) ↔ ShutDown ms ∨ .start ∈ ms ∧ m = .shutdown := by
  constructor
  · rintro ⟨ms₁, ms₂, heq, hmem⟩
    rcases List.eq_nil_or_concat ms₂ with rfl | ⟨ms₂, m', rfl⟩
    · cases hmem
    · rw [List.concat_eq_append] at heq hmem
      rw [← List.cons_append, ← List.append_assoc] at heq
      obtain ⟨rfl, hm⟩ := List.append_inj' heq rfl
      cases hm
      rcases List.mem_append.1 hmem with hmem | hmem
      · exact .inl ⟨ms₁, ms₂, rfl, hmem⟩
      · exact .inr ⟨List.mem_append_right _ List.mem_cons_self, (List.mem_singleton.1 hmem).symm⟩
  · rintro (⟨ms₁, ms₂, rfl, hmem⟩ | ⟨hstart, rfl⟩)
    · exact ⟨ms₁, ms₂ ++ [m], by simp, List.mem_append_left _ hmem⟩
    · obtain ⟨ms₁, ms₂, rfl⟩ := List.append_of_mem hstart
      exact ⟨ms₁, ms₂ ++ [.shutdown], by simp, by simp⟩

theorem shutDown_concat_of_ne (hm : m ≠ .shutdown) : ShutDown (ms ++ [m]) ↔ ShutDown ms := by
  rw [shutDown_concat]
  exact or_iff_left fun h => hm h.2

/-- What was called is seen in the loop and its handle. -/
structure Recalls (ms : List Move) (s : Scheduler) : Prop where
  idle : s.phase = .idle ↔ .start ∉ ms
  attached : s.attached = true ↔ .start ∈ ms ∧ ¬ ShutDown ms
  cancelled : s.cancelled = true ↔ .cancel ∈ ms ∨ ShutDown ms
  connected : s.connected = true

/-! ## Phases -/

/-- The loop was set going and is not over. -/
def Alive (s : Scheduler) : Prop := s.phase = .running ∨ s.phase = .draining

instance (s : Scheduler) : Decidable s.Alive := inferInstanceAs (Decidable (_ ∨ _))

/-- The loop has taken its last command. -/
def Over (s : Scheduler) : Prop := s.phase ≠ .idle ∧ s.phase ≠ .running

theorem isRunning_eq_true_iff : s.isRunning = true ↔ s.Alive ∧ s.attached = true := by
  simp [isRunning, Alive, and_comm]

/-- A move other than a turn sets the loop going or leaves its phase alone. -/
theorem phase_move_of_ne_turn (hturn : ∀ now, m ≠ .turn now) :
    (s.move m).phase = s.phase ∨ m = .start ∧ s.phase = .idle ∧ (s.move m).phase = .running := by
  by_cases haside : m.Aside
  · exact .inl (aside_move haside).1
  cases m with
  | start =>
    rcases move_start_cases s with h | ⟨hidle, h⟩ <;> rw [h]
    · exact .inl rfl
    · exact .inr ⟨rfl, hidle, rfl⟩
  | shutdown => rcases move_shutdown_cases s with h | h <;> rw [h] <;> exact .inl rfl
  | submit c => rcases move_submit_cases s c with ⟨-, h⟩ | ⟨-, h⟩ <;> rw [h] <;> exact .inl rfl
  | turn now => exact absurd rfl (hturn now)
  | cancel => exact .inl rfl
  | drop => exact .inl rfl
  | _ => exact (haside trivial).elim

/-- The phases a loop goes through: a start sets it going; in a turn it begins to drain, if it was told to, or breaks
down; and in a turn without a run in flight it stops. -/
theorem phase_move (s : Scheduler) (m : Move) : (s.move m).phase = s.phase ∨
    (m = .start ∧ s.phase = .idle ∧ (s.move m).phase = .running) ∨
    ∃ now, m = .turn now ∧
      (s.phase = .running ∧ (s.Told ∧ (s.move m).phase = .draining ∨ (s.move m).phase = .broken) ∨
        s.phase = .draining ∧ s.runs = [] ∧ (s.move m).phase = .stopped) := by
  by_cases hturn : ∃ now, m = .turn now
  · obtain ⟨now, rfl⟩ := hturn
    show (s.turn now).1.phase = _ ∨ _
    cases serves_turn s now with
    | waits hphase _ _ =>
      rcases hphase with hphase | ⟨⟨hrunning, htold⟩, hphase⟩
      · exact .inl hphase
      · exact .inr (.inr ⟨now, rfl, .inl ⟨hrunning, .inl ⟨htold, hphase⟩⟩⟩)
    | answers _ _ _ hs' _ => exact .inl (by rw [hs'])
    | abandons hphase _ _ _ =>
      rcases hphase with ⟨hrunning, hphase⟩ | hstops
      · exact .inr (.inr ⟨now, rfl, .inl ⟨hrunning, .inr hphase⟩⟩)
      · exact .inr (.inr ⟨now, rfl, .inr hstops⟩)
  · push Not at hturn
    exact (phase_move_of_ne_turn hturn).imp_right .inl

/-- A loop is idle until it is started. -/
theorem idle_move_iff (s : Scheduler) (m : Move) : (s.move m).phase = .idle ↔ s.phase = .idle ∧ m ≠ .start := by
  rcases phase_move s m with h | ⟨rfl, hidle, h⟩ | ⟨now, rfl, ⟨hrunning, ⟨-, h⟩ | h⟩ | ⟨hdraining, -, h⟩⟩ <;>
    rw [h]
  · refine ⟨fun hidle => ⟨hidle, ?_⟩, And.left⟩
    rintro rfl
    rw [move, start, if_pos hidle] at h
    exact absurd (h.trans hidle) (by simp)
  · simp
  · simp [hrunning]
  · simp [hrunning]
  · simp [hdraining]

/-- A loop that takes no more commands takes none later. -/
theorem Over.move (h : s.Over) (m : Move) : (s.move m).Over := by
  obtain ⟨hidle, hrunning⟩ := h
  rcases phase_move s m with hsame | ⟨-, hphase, -⟩ | ⟨-, -, ⟨hphase, -⟩ | ⟨-, -, hphase⟩⟩
  · exact ⟨hsame ▸ hidle, hsame ▸ hrunning⟩
  · exact absurd hphase hidle
  · exact absurd hphase hrunning
  · constructor <;> rw [hphase] <;> simp

theorem Over.moves (h : s.Over) (ms : List Move) : (s.moves ms).Over := by
  induction ms generalizing s with
  | nil => exact h
  | cons m ms ih => exact ih (h.move m)

/-- A loop that is not alive is not alive later, once it was started. -/
theorem not_alive_moves (h : s.Over) (hdead : ¬ s.Alive) (ms : List Move) : ¬ (s.moves ms).Alive := by
  induction ms generalizing s with
  | nil => exact hdead
  | cons m ms ih =>
    refine ih (h.move m) ?_
    rcases phase_move s m with hsame | ⟨-, hphase, -⟩ | ⟨-, -, ⟨hphase, -⟩ | ⟨hphase, -, -⟩⟩
    · rwa [Alive, hsame]
    · exact absurd hphase h.1
    · exact absurd hphase h.2
    · exact absurd (.inr hphase) hdead

/-! ### What was called, and the loop -/

section Recalls

variable (h : Recalls ms s)
include h

/-- A move that is none of the three calls leaves what is recalled. -/
theorem Recalls.of_other {s' : Scheduler} (hstart : m ≠ .start) (hcancel : m ≠ .cancel) (hshutdown : m ≠ .shutdown)
    (hidle : s'.phase = .idle ↔ s.phase = .idle) (hattached : s'.attached = s.attached)
    (hcancelled : s'.cancelled = s.cancelled) (hconnected : s'.connected = s.connected) : Recalls (ms ++ [m]) s' := by
  have hsame : ∀ {m' : Move}, m ≠ m' → (m' ∈ ms ++ [m] ↔ m' ∈ ms) := by
    intro m' hne
    simp [hne.symm]
  have hshut : ShutDown (ms ++ [m]) ↔ ShutDown ms := shutDown_concat_of_ne hshutdown
  refine ⟨?_, ?_, ?_, hconnected.trans h.connected⟩
  · rw [hidle, hsame hstart, h.idle]
  · rw [hattached, hsame hstart, hshut, h.attached]
  · rw [hcancelled, hsame hcancel, hshut, h.cancelled]

theorem Recalls.move_start : Recalls (ms ++ [.start]) (s.move .start) := by
  have hshut : ShutDown (ms ++ [.start]) ↔ ShutDown ms := shutDown_concat_of_ne (by simp)
  rcases move_start_cases s with hmove | ⟨hidle, hmove⟩
  · have hstart : .start ∈ ms := by
      by_contra hnew
      have hidle : (s.move .start).phase = .idle := by rw [hmove, h.idle.2 hnew]
      exact ((idle_move_iff s .start).1 hidle).2 rfl
    rw [hmove]
    refine ⟨?_, ?_, ?_, h.connected⟩
    · simp [h.idle, hstart]
    · simp [h.attached, hshut, hstart]
    · simp [h.cancelled, hshut]
  · -- There was no shutdown of a loop that was idle.
    have hnone : ¬ ShutDown ms := fun hs => h.idle.1 hidle (start_mem_of_shutDown hs)
    rw [hmove]
    refine ⟨?_, ?_, ?_, h.connected⟩
    · simp
    · simp [hshut, hnone]
    · simp [h.cancelled, hshut]

theorem Recalls.move_cancel : Recalls (ms ++ [.cancel]) (s.move .cancel) := by
  have hshut : ShutDown (ms ++ [.cancel]) ↔ ShutDown ms := shutDown_concat_of_ne (by simp)
  refine ⟨?_, ?_, ?_, h.connected⟩
  · simp [Scheduler.move, Scheduler.cancel, h.idle]
  · simp [Scheduler.move, Scheduler.cancel, h.attached, hshut]
  · simp [Scheduler.move, Scheduler.cancel]

theorem Recalls.move_shutdown : Recalls (ms ++ [.shutdown]) (s.move .shutdown) := by
  have hshut : ShutDown (ms ++ [.shutdown]) ↔ .start ∈ ms := by
    rw [shutDown_concat]
    exact ⟨fun hs => hs.elim start_mem_of_shutDown And.left, fun hstart => .inr ⟨hstart, rfl⟩⟩
  cases hattached : s.attached with
  | true =>
    have hstart := (h.attached.1 hattached).1
    have hmove : s.move .shutdown = { s with attached := false, cancelled := true } := by
      simp [Scheduler.move, beginShutdown, hattached]
    rw [hmove]
    refine ⟨?_, ?_, ?_, h.connected⟩
    · simp [h.idle]
    · simp [hshut, hstart]
    · simp [hshut, hstart]
  | false =>
    -- A handle that was started and lost the loop was shut down before.
    have hlost : .start ∈ ms → ShutDown ms := by
      intro hstart
      by_contra hnone
      simp [h.attached.2 ⟨hstart, hnone⟩] at hattached
    have hsame : ShutDown (ms ++ [.shutdown]) ↔ ShutDown ms := hshut.trans ⟨hlost, start_mem_of_shutDown⟩
    have hmove : s.move .shutdown = s := by simp [Scheduler.move, beginShutdown, hattached]
    rw [hmove]
    refine ⟨?_, ?_, ?_, h.connected⟩
    · simp [h.idle]
    · simp [h.attached, hsame]
    · simp [h.cancelled, hsame]

theorem Recalls.move (hdrop : m ≠ .drop) : Recalls (ms ++ [m]) (s.move m) := by
  by_cases haside : m.Aside
  · obtain ⟨hphase, -, hhandle⟩ := aside_move (s := s) haside
    have hother : m ≠ .start ∧ m ≠ .cancel ∧ m ≠ .shutdown := by
      refine ⟨?_, ?_, ?_⟩ <;> rintro rfl <;> exact haside
    exact h.of_other hother.1 hother.2.1 hother.2.2 (by rw [hphase]) hhandle.attached hhandle.cancelled
      hhandle.connected
  cases m with
  | start => exact h.move_start
  | cancel => exact h.move_cancel
  | shutdown => exact h.move_shutdown
  | drop => exact absurd rfl hdrop
  | submit c =>
    rcases move_submit_cases s c with ⟨-, hmove⟩ | ⟨-, hmove⟩ <;> rw [hmove] <;>
      exact h.of_other (by simp) (by simp) (by simp) .rfl rfl rfl rfl
  | turn now =>
    obtain ⟨hattached, hcancelled, hconnected, -⟩ := sameHandle_turn s now
    refine h.of_other (by simp) (by simp) (by simp) ?_ hattached hcancelled hconnected
    show (s.move (.turn now)).phase = .idle ↔ _
    rw [idle_move_iff]
    exact and_iff_left (by simp)
  | _ => exact (haside trivial).elim

end Recalls

/-- As long as the handle exists, what was called is seen in the loop. -/
theorem recalls_moves (hdrop : .drop ∉ ms) : Recalls ms (({} : Scheduler).moves ms) := by
  induction ms using List.reverseRecOn with
  | nil => exact ⟨by simp [moves], by simp [moves], by simp [moves, ShutDown], rfl⟩
  | append_singleton ms m ih =>
    rw [List.mem_append, not_or] at hdrop
    rw [moves_append]
    exact (ih hdrop.1).move (by rintro rfl; simp at hdrop)

/-- A loop that drains or has stopped was told to. -/
theorem told_moves (hdrop : .drop ∉ ms)
    (h : (({} : Scheduler).moves ms).phase = .draining ∨ (({} : Scheduler).moves ms).phase = .stopped) :
    .cancel ∈ ms ∨ ShutDown ms := by
  induction ms using List.reverseRecOn with
  | nil => simp [moves] at h
  | append_singleton ms m ih =>
    have hbefore : .drop ∉ ms := fun hmem => hdrop (List.mem_append_left _ hmem)
    have hlater : .cancel ∈ ms ∨ ShutDown ms → .cancel ∈ ms ++ [m] ∨ ShutDown (ms ++ [m]) :=
      .imp (List.mem_append_left _) fun hs => shutDown_concat.2 (.inl hs)
    apply hlater
    rw [moves_append] at h
    change ((({} : Scheduler).moves ms).move m).phase = _ ∨ ((({} : Scheduler).moves ms).move m).phase = _ at h
    rcases phase_move (({} : Scheduler).moves ms) m with hsame | ⟨-, -, hphase⟩ |
      ⟨-, -, ⟨-, ⟨htold, -⟩ | hphase⟩ | ⟨hphase, -, -⟩⟩
    · exact ih hbefore (hsame ▸ h)
    · exact absurd h (by simp [hphase])
    · have hrecalls := recalls_moves hbefore
      rcases htold with hcancelled | hgone
      · exact hrecalls.cancelled.1 hcancelled
      · exact absurd (hrecalls.connected.symm.trans hgone) (by simp)
    · exact absurd h (by simp [hphase])
    · exact ih hbefore (.inl hphase)

end Scheduler

end Rota
