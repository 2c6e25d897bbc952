import Rota.Proofs.Pass
import Rota.Proofs.Site

/-!
# Turns of the loop

A turn of the loop carries out a command, makes a timer pass, or does neither (`Scheduler.deed?`). What it does to the
stores is what the dispatcher does there.

- one lemma for each of the three (`Scheduler.turn_of_command`, `Scheduler.turn_of_pass`, `Scheduler.turn_of_idle`);
- a turn that does neither leaves the stores alone, as do the steps of a run (`Scheduler.sameStores_turn`).
-/

namespace Rota

open Dispatcher (Deed)

/-- What a run was handed over as. -/
def Run.dispatch (r : Run) : Dispatch := ⟨r.detail, r.fireTime⟩

namespace Scheduler

variable {s s' : Scheduler} {now : Instant}

/-! ## What a turn does -/

/-- What the next turn of the loop does with the stores. -/
def deed? (s : Scheduler) : Option Deed :=
  if s.phase = .running ∧ s.cancelled = false then
    match s.inbox with
    | (_, c) :: _ => some (.command c)
    | [] => if s.connected = true ∧ s.endedRun? = none then some .pass else none
  else none

/-- A loop that does something with the stores is running. -/
theorem running_of_deed {x : Deed} (h : s.deed? = some x) : s.phase = .running ∧ s.cancelled = false := by
  unfold deed? at h
  split at h
  · assumption
  · cases h

/-- A command that is carried out next waits in the inbox. -/
theorem exists_mem_inbox {c : Command} (h : s.deed? = some (.command c)) : ∃ ticket, (ticket, c) ∈ s.inbox := by
  unfold deed? at h
  split at h
  · split at h
    · rename_i ticket c' inbox hinbox
      cases h
      exact ⟨ticket, hinbox ▸ List.mem_cons_self⟩
    · split at h <;> cases h
  · cases h

section Running

variable (hcancelled : s.cancelled = false)
include hcancelled

theorem runningTurn_of_cons {ticket : Nat} {c : Command} {inbox : List (Nat × Command)}
    (hinbox : s.inbox = (ticket, c) :: inbox) (now : Instant) :
    s.runningTurn now = { s with inbox }.takeCommand now ticket c := by
  unfold runningTurn
  rw [if_neg (by simp [hcancelled]), hinbox]

theorem runningTurn_of_disconnected (hinbox : s.inbox = []) (hconnected : s.connected = false) (now : Instant) :
    s.runningTurn now = ({ s with phase := .draining }, []) := by
  unfold runningTurn
  rw [if_neg (by simp [hcancelled]), hinbox]
  exact if_pos (by simp [hconnected])

theorem runningTurn_of_connected (hinbox : s.inbox = []) (hconnected : s.connected = true) (now : Instant) :
    s.runningTurn now = match s.endedRun? with
      | some (id, panicked) => ((s.join id panicked).atHead, [])
      | none => s.takePass now := by
  unfold runningTurn
  rw [if_neg (by simp [hcancelled]), hinbox]
  exact if_neg (by simp [hconnected])

end Running

theorem not_mem_abandonInbox (s : Scheduler) (ticket : Nat) (answer : Answer) :
    (ticket, .ok answer) ∉ s.abandonInbox.2 := by
  intro h
  obtain ⟨x, -, hx⟩ := List.mem_map.1 h
  cases hx

/-- A turn that carries out a command. -/
theorem turn_of_command {c : Command} (h : s.deed? = some (.command c)) (now : Instant) :
    (∃ ticket inbox d reply, s.inbox = (ticket, c) :: inbox ∧ s.dispatcher.handle now c = some (d, reply) ∧
      s.turn now = ({ s with inbox, dispatcher := d.noteRegistered }, [(ticket, reply)])) ∨
    s.dispatcher.handle now c = none ∧ (s.turn now).1 = { s with phase := .broken, inbox := [] } ∧
      (s.turn now).2 = s.abandonInbox.2 := by
  obtain ⟨hphase, hcancelled⟩ := running_of_deed h
  have hturn : s.turn now = s.runningTurn now := by
    unfold turn
    rw [hphase]
  unfold deed? at h
  rw [if_pos ⟨hphase, hcancelled⟩] at h
  split at h
  · rename_i ticket c' inbox hinbox
    cases h
    rw [hturn, runningTurn_of_cons hcancelled hinbox]
    unfold takeCommand
    cases hd : s.dispatcher.handle now c with
    | none =>
      refine .inr ⟨rfl, rfl, ?_⟩
      show _ = s.inbox.map _
      rw [hinbox]
      rfl
    | some q =>
      obtain ⟨d, reply⟩ := q
      exact .inl ⟨ticket, inbox, d, reply, hinbox, rfl, rfl⟩
  · split at h <;> cases h

/-- A turn that makes a timer pass. -/
theorem turn_of_pass (h : s.deed? = some .pass) (now : Instant) : s.turn now = s.takePass now := by
  obtain ⟨hphase, hcancelled⟩ := running_of_deed h
  unfold deed? at h
  rw [if_pos ⟨hphase, hcancelled⟩] at h
  split at h
  · cases h
  · rename_i hinbox
    split at h
    · rename_i hidle
      unfold turn
      rw [hphase]
      exact (runningTurn_of_connected hcancelled hinbox hidle.1 now).trans (by rw [hidle.2])
    · cases h

/-- A timer pass is made only when no command waits. -/
theorem inbox_of_pass (h : s.deed? = some .pass) : s.inbox = [] := by
  unfold deed? at h
  split at h
  · split at h
    · cases h
    · assumption
  · cases h

/-! ## Steps that leave the stores alone -/

/-- Two schedulers have the same stores, and the second has nothing that the first has not. -/
structure SameStores (s s' : Scheduler) : Prop where
  jobs : s'.dispatcher.jobs = s.dispatcher.jobs
  queue : s'.dispatcher.queue = s.dispatcher.queue
  registry : s'.registry = s.registry
  broken : s'.phase = .broken ↔ s.phase = .broken
  runs : s'.runs.length ≤ s.runs.length
  inbox : s'.inbox = s.inbox ∨ s'.inbox = []

theorem SameStores.refl (s : Scheduler) : SameStores s s := ⟨rfl, rfl, rfl, .rfl, Nat.le_refl _, .inl rfl⟩

theorem SameStores.atHead (h : SameStores s s') : SameStores s s'.atHead :=
  ⟨h.jobs, h.queue, h.registry, h.broken, h.runs, h.inbox⟩

theorem length_setStatus (s : Scheduler) (id : Nat) (status : RunStatus) :
    (s.setStatus id status).runs.length = s.runs.length := List.length_map _

/-- A beginning changes the status of one run and the guards, or counts a skip. -/
theorem beginRun_cases (s : Scheduler) (id : Nat) :
    s.beginRun id = s ∨ (∃ guards, s.beginRun id = { s with guards }.setStatus id .inside) ∨
      ∃ kind, s.beginRun id = (s.withMetrics (·.skip kind)).setStatus id .skipping := by
  unfold beginRun
  split
  · split
    · exact .inr (.inl ⟨_, rfl⟩)
    · split
      · exact .inr (.inl ⟨_, rfl⟩)
      · exact .inr (.inr ⟨_, rfl⟩)
  · exact .inl rfl

/-- An end changes the status of one run and the guards, and may record an execution time. -/
theorem finishRun_cases (s : Scheduler) (id : Nat) (panicked : Bool) (took : Span) :
    s.finishRun id panicked took = s ∨
      ∃ guards p, s.finishRun id panicked took = { s with guards }.setStatus id (.ended p) ∨
        s.finishRun id panicked took = ({ s with guards }.recordDuration took).setStatus id (.ended p) := by
  unfold finishRun
  split
  · rename_i job _ _
    cases job <;> cases panicked
    · exact .inr ⟨_, _, .inr rfl⟩
    · exact .inr ⟨_, _, .inl rfl⟩
    · exact .inr ⟨_, _, .inr rfl⟩
    · exact .inr ⟨_, _, .inl rfl⟩
  · exact .inr ⟨_, _, .inr rfl⟩
  · exact .inl rfl

theorem sameStores_beginRun (s : Scheduler) (id : Nat) : SameStores s (s.beginRun id) := by
  rcases beginRun_cases s id with h | ⟨guards, h⟩ | ⟨kind, h⟩ <;> rw [h]
  · exact .refl s
  · exact ⟨rfl, rfl, rfl, .rfl, Nat.le_of_eq (length_setStatus ..), .inl rfl⟩
  · exact ⟨rfl, rfl, rfl, .rfl, Nat.le_of_eq (length_setStatus ..), .inl rfl⟩

theorem sameStores_finishRun (s : Scheduler) (id : Nat) (panicked : Bool) (took : Span) :
    SameStores s (s.finishRun id panicked took) := by
  rcases finishRun_cases s id panicked took with h | ⟨guards, p, h | h⟩ <;> rw [h]
  · exact .refl s
  · exact ⟨rfl, rfl, rfl, .rfl, Nat.le_of_eq (length_setStatus ..), .inl rfl⟩
  · exact ⟨rfl, rfl, rfl, .rfl, Nat.le_of_eq (length_setStatus ..), .inl rfl⟩

theorem sameStores_join (s : Scheduler) (id : Nat) (panicked : Bool) : SameStores s (s.join id panicked) :=
  ⟨rfl, rfl, rfl, .rfl, List.length_filter_le _ _, .inl rfl⟩

/-- The loop was told to stop, or there is no handle any more. -/
def Told (s : Scheduler) : Prop := s.cancelled = true ∨ s.connected = false

/-- A turn that does nothing with the stores begins the end of the loop, joins a run that is over, ends the loop, or
does nothing at all. -/
theorem turn_of_idle (h : s.deed? = none) (now : Instant) :
    ((s.phase = .running ∧ s.Told) ∧ s.turn now = ({ s with phase := .draining }, [])) ∨
    (∃ id panicked, s.endedRun? = some (id, panicked) ∧
      ((s.phase = .running ∧ s.turn now = ((s.join id panicked).atHead, [])) ∨
        s.phase = .draining ∧ s.turn now = (s.join id panicked, []))) ∨
    (s.phase = .draining ∧ s.runs = [] ∧ s.turn now = ({ s with phase := .stopped } : Scheduler).atHead.abandonInbox) ∨
    s.phase ≠ .running ∧ s.turn now = (s, []) := by
  unfold turn
  split
  · rename_i hphase
    by_cases hcancelled : s.cancelled = true
    · unfold runningTurn
      rw [if_pos hcancelled]
      exact .inl ⟨⟨hphase, .inl hcancelled⟩, rfl⟩
    · have hfree : s.cancelled = false := Bool.eq_false_iff.2 hcancelled
      unfold deed? at h
      rw [if_pos ⟨hphase, hfree⟩] at h
      split at h
      · cases h
      · rename_i hinbox
        split at h
        · cases h
        · rename_i hbusy
          by_cases hconnected : s.connected = true
          · rw [runningTurn_of_connected hfree hinbox hconnected]
            cases hended : s.endedRun? with
            | none => exact absurd ⟨hconnected, hended⟩ hbusy
            | some x => exact .inr (.inl ⟨x.1, x.2, rfl, .inl ⟨hphase, rfl⟩⟩)
          · have hgone : s.connected = false := Bool.eq_false_iff.2 hconnected
            rw [runningTurn_of_disconnected hfree hinbox hgone]
            exact .inl ⟨⟨hphase, .inr hgone⟩, rfl⟩
  · rename_i hphase
    unfold drainingTurn
    cases hended : s.endedRun? with
    | some x => exact .inr (.inl ⟨x.1, x.2, rfl, .inr ⟨hphase, rfl⟩⟩)
    | none =>
      by_cases hruns : s.runs = []
      · exact .inr (.inr (.inl ⟨hphase, hruns, if_pos hruns⟩))
      · exact .inr (.inr (.inr ⟨by simp [hphase], if_neg hruns⟩))
  · rename_i hrunning _
    exact .inr (.inr (.inr ⟨hrunning, rfl⟩))

/-- A turn that does nothing with the stores leaves them alone. -/
theorem sameStores_turn (h : s.deed? = none) (now : Instant) : SameStores s (s.turn now).1 := by
  rcases turn_of_idle h now with
    ⟨⟨hphase, -⟩, ht⟩ | ⟨id, panicked, -, ⟨-, ht⟩ | ⟨-, ht⟩⟩ | ⟨hphase, -, ht⟩ | ⟨-, ht⟩ <;> rw [ht]
  · exact ⟨rfl, rfl, rfl, by simp [hphase], Nat.le_refl _, .inl rfl⟩
  · exact (sameStores_join s id panicked).atHead
  · exact sameStores_join s id panicked
  · exact ⟨rfl, rfl, rfl, by simp [hphase, atHead, abandonInbox], Nat.le_refl _, .inr rfl⟩
  · exact .refl s

end Scheduler

end Rota
