import Rota.Proofs.Answer
import Rota.Proofs.Balance

/-!
# Commands and their answers

Every command that is taken is answered once, in the order in which the commands came (`Scheduler.tickets_moves`).

- a turn answers commands that waited, in their order, and leaves the others (`Scheduler.tickets_turn`);
- a command that is carried out ends in none of the errors of a command that no loop carries out
  (`Dispatcher.not_unserved_of_handle`).
-/

namespace Rota

/-! ## Errors -/

/-- The errors of a command that no loop has carried out. -/
def SchedulerError.Unserved : SchedulerError → Prop
  | .notStarted | .alreadyStarted | .closed | .unanswered => True
  | _ => False

/-- A command that is carried out ends in no such error. -/
theorem Dispatcher.not_unserved_of_handle {d d' : Dispatcher} {now : Instant} {c : Command} {e : SchedulerError}
    (h : d.handle now c = some (d', .error e)) : ¬ e.Unserved := by
  cases c with
  | schedule detail t =>
    simp only [handle, schedule] at h
    split at h
    · cases h
      exact id
    · split at h
      · cases h
      · cases h
        exact id
      · cases h
  | delete k =>
    simp only [handle, delete] at h
    split at h
    · cases h
    · cases h
      exact id
  | clear => cases h
  | keys => cases h
  | info k =>
    simp only [handle] at h
    split at h
    · cases h
    · cases h
      exact id

namespace Scheduler

variable {s : Scheduler} {m : Move} {ms : List Move} {now : Instant}

/-! ## Answers -/

/-- What a move answers, by the tickets of the commands. -/
def replies (s : Scheduler) : Move → Replies
  | .turn now => (s.turn now).2
  | _ => []

/-- A turn answers commands that waited, in their order, and leaves the others. -/
theorem tickets_turn (s : Scheduler) (now : Instant) :
    (s.turn now).2.map Prod.fst ++ (s.turn now).1.inbox.map Prod.fst = s.inbox.map Prod.fst := by
  cases serves_turn s now with
  | waits _ hinbox hreplies => rw [hreplies, hinbox, List.map_nil, List.nil_append]
  | answers _ hinbox _ hs' hreplies =>
    rw [hreplies, hs', hinbox]
    rfl
  | abandons _ hinbox _ hreplies =>
    rw [hreplies, hinbox, List.map_nil, List.append_nil, abandonInbox, List.map_map]
    rfl

/-- What a move answers, followed by the commands that wait after it, is what waited before it and what it took. -/
theorem tickets_move (s : Scheduler) (m : Move) : ∃ taken,
    (s.replies m).map Prod.fst ++ (s.move m).inbox.map Prod.fst = s.inbox.map Prod.fst ++ taken ∧
      List.range s.nextTicket ++ taken = List.range (s.move m).nextTicket := by
  have hnone : ∀ {s' : Scheduler} {rs : Replies}, rs.map Prod.fst ++ s'.inbox.map Prod.fst = s.inbox.map Prod.fst →
      s'.nextTicket = s.nextTicket → ∃ taken : List Nat,
        rs.map Prod.fst ++ s'.inbox.map Prod.fst = s.inbox.map Prod.fst ++ taken ∧
          List.range s.nextTicket ++ taken = List.range s'.nextTicket := by
    intro s' rs hinbox hnext
    exact ⟨[], by rw [hinbox, List.append_nil], by rw [hnext, List.append_nil]⟩
  by_cases haside : m.Aside
  · obtain ⟨-, hinbox, hhandle⟩ := aside_move (s := s) haside
    refine hnone ?_ hhandle.nextTicket
    rw [hinbox]
    cases m <;> first | exact haside.elim | rfl
  cases m with
  | turn now => exact hnone (tickets_turn s now) (sameHandle_turn s now).nextTicket
  | submit c =>
    rcases move_submit_cases s c with ⟨-, h⟩ | ⟨-, h⟩
    · exact hnone (by rw [h]; rfl) (by rw [h])
    · refine ⟨[s.nextTicket], ?_, ?_⟩
      · rw [h, List.map_append]
        rfl
      · rw [h, List.range_succ]
  | start => rcases move_start_cases s with h | ⟨-, h⟩ <;> exact hnone (by rw [h]; rfl) (by rw [h])
  | shutdown => rcases move_shutdown_cases s with h | h <;> exact hnone (by rw [h]; rfl) (by rw [h])
  | cancel => exact hnone rfl rfl
  | drop => exact hnone rfl rfl
  | _ => exact (haside trivial).elim

/-- Every command that is taken is answered once or waits, in the order of the tickets. -/
theorem tickets_moves (ms : List Move) :
    (along replies {} ms).map Prod.fst ++ (({} : Scheduler).moves ms).inbox.map Prod.fst =
      List.range (({} : Scheduler).moves ms).nextTicket := by
  induction ms using List.reverseRecOn with
  | nil => rfl
  | append_singleton ms m ih =>
    obtain ⟨taken, hinbox, hnext⟩ := tickets_move (({} : Scheduler).moves ms) m
    rw [moves_append, along_concat, List.map_append, List.append_assoc]
    refine (congrArg _ hinbox).trans ?_
    rw [← List.append_assoc, ih]
    exact hnext

theorem noted_moves (ms : List Move) : (({} : Scheduler).moves ms).Noted := by
  induction ms using List.reverseRecOn with
  | nil => exact fun _ => rfl
  | append_singleton ms m ih =>
    rw [moves_append]
    exact noted_move ih m

/-- A command that no loop has carried out gets its answer in a turn that leaves all stores and counters alone. -/
theorem dispatcher_of_unserved (hnoted : s.Noted) {ticket : Nat} {e : SchedulerError}
    (hreply : (ticket, .error e) ∈ (s.turn now).2) (he : e.Unserved) :
    e = .unanswered ∧ (s.turn now).1.dispatcher = s.dispatcher := by
  cases serves_turn s now with
  | waits _ _ hreplies => cases hreplies ▸ hreply
  | answers _ _ hd _ hreplies =>
    cases List.mem_singleton.1 (hreplies ▸ hreply)
    exact absurd he (Dispatcher.not_unserved_of_handle hd)
  | abandons _ _ hstores hreplies =>
    obtain ⟨x, hx, heq⟩ := List.mem_map.1 (hreplies ▸ hreply)
    cases heq
    refine ⟨rfl, ?_⟩
    rcases hstores with hempty | hsame | ⟨hdraining, hsame⟩
    · rw [hempty] at hx
      cases hx
    · exact hsame
    · -- The loop notes the number of jobs once more when it stops, which it has noted already.
      have hregistered : s.dispatcher.metrics.registered = UInt64.ofNat s.dispatcher.jobs.size :=
        hnoted (by simp [hdraining])
      rw [hsame, Dispatcher.noteRegistered, ← hregistered]

end Scheduler

end Rota
