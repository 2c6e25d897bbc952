import Rota.Proofs.Course

/-!
# Requests that are answered

A client sends a command and lets the loop turn until its ticket has an answer. Tickets are handed out once
(`Scheduler.Ticketed`), so the answer a client gets is the one to its own command, whatever else waits in the inbox.

- a turn lets the commands wait, carries out the first one or abandons all (`serves_turn`), so it answers with success
  only the first (`turn_of_reply`);
- a request that succeeds is carried out last of all that waited (`request_of_ok`);
- tickets stay handed out once over all events of a site (`Site.ticketed_run`).
-/

namespace Rota

namespace Scheduler

variable {s : Scheduler} {m : Move} {now : Instant} {c : Command} {ticket : Nat} {answer : Answer}

/-! ## Turns -/

/-- Two schedulers have the same handle, and have handed out the same tickets. -/
structure SameHandle (s s' : Scheduler) : Prop where
  attached : s'.attached = s.attached
  cancelled : s'.cancelled = s.cancelled
  connected : s'.connected = s.connected
  nextTicket : s'.nextTicket = s.nextTicket

theorem sameHandle_turn (s : Scheduler) (now : Instant) : SameHandle s (s.turn now).1 := by
  cases hdeed : s.deed? with
  | none =>
    rcases turn_of_idle hdeed now with ⟨-, ht⟩ | ⟨id, panicked, -, ⟨-, ht⟩ | ⟨-, ht⟩⟩ | ⟨-, -, ht⟩ | ⟨-, ht⟩ <;>
      rw [ht] <;> exact ⟨rfl, rfl, rfl, rfl⟩
  | some x =>
    cases x with
    | command c =>
      rcases turn_of_command hdeed now with ⟨ticket, inbox, d, reply, -, -, ht⟩ | ⟨-, ht, -⟩ <;> rw [ht] <;>
        exact ⟨rfl, rfl, rfl, rfl⟩
    | pass =>
      obtain ⟨runs, nextRun, hlaunch⟩ := frame_launch
        { s with dispatcher := (s.dispatcher.pass now).dispatcher } (s.dispatcher.pass now).fired
      rw [turn_of_pass hdeed]
      unfold takePass
      dsimp only
      rw [hlaunch]
      split <;> exact ⟨rfl, rfl, rfl, rfl⟩

/-- What a turn does with the commands that wait, and what it answers. -/
inductive Serves (s : Scheduler) (now : Instant) (s' : Scheduler) (replies : Replies) : Prop
  /-- They go on waiting; the loop may begin to drain. -/
  | waits (hphase : s'.phase = s.phase ∨ (s.phase = .running ∧ s.Told) ∧ s'.phase = .draining)
      (hinbox : s'.inbox = s.inbox) (hreplies : replies = [])
  /-- The first one is carried out. -/
  | answers {ticket : Nat} {c : Command} {inbox : List (Nat × Command)} {d : Dispatcher}
      {reply : Except SchedulerError Answer} (hdeed : s.deed? = some (.command c))
      (hinbox : s.inbox = (ticket, c) :: inbox) (hreply : s.dispatcher.handle now c = some (d, reply))
      (hs' : s' = { s with inbox, dispatcher := d.noteRegistered }) (hreplies : replies = [(ticket, reply)])
  /-- None of them is carried out any more, as the loop breaks down or stops. -/
  | abandons (hphase : s.phase = .running ∧ s'.phase = .broken ∨
        s.phase = .draining ∧ s.runs = [] ∧ s'.phase = .stopped) (hinbox : s'.inbox = [])
      (hstores : s.inbox = [] ∨ s'.dispatcher = s.dispatcher ∨
        s.phase = .draining ∧ s'.dispatcher = s.dispatcher.noteRegistered)
      (hreplies : replies = s.abandonInbox.2)

theorem serves_turn (s : Scheduler) (now : Instant) : Serves s now (s.turn now).1 (s.turn now).2 := by
  cases hdeed : s.deed? with
  | none =>
    rcases turn_of_idle hdeed now with ⟨htold, ht⟩ | ⟨_, _, -, ⟨-, ht⟩ | ⟨-, ht⟩⟩ | ⟨hphase, hruns, ht⟩ | ⟨-, ht⟩ <;>
      rw [ht]
    · exact .waits (.inr ⟨htold, rfl⟩) rfl rfl
    · exact .waits (.inl rfl) rfl rfl
    · exact .waits (.inl rfl) rfl rfl
    · exact .abandons (.inr ⟨hphase, hruns, rfl⟩) rfl (.inr (.inr ⟨hphase, rfl⟩)) rfl
    · exact .waits (.inl rfl) rfl rfl
  | some x =>
    obtain ⟨hphase, -⟩ := running_of_deed hdeed
    cases x with
    | command c =>
      rcases turn_of_command hdeed now with ⟨ticket, inbox, d, reply, hinbox, hd, ht⟩ | ⟨-, ht, habandoned⟩
      · rw [ht]
        exact .answers hdeed hinbox hd rfl rfl
      · rw [ht, habandoned]
        exact .abandons (.inl ⟨hphase, rfl⟩) rfl (.inr (.inl rfl)) rfl
    | pass =>
      have hinbox := inbox_of_pass hdeed
      obtain ⟨runs, nextRun, hlaunch⟩ := frame_launch
        { s with dispatcher := (s.dispatcher.pass now).dispatcher } (s.dispatcher.pass now).fired
      rw [turn_of_pass hdeed]
      unfold takePass
      dsimp only
      rw [hlaunch]
      split
      · exact .abandons (.inl ⟨hphase, rfl⟩) rfl (.inl hinbox) rfl
      · exact .waits (.inl rfl) rfl rfl

/-- A turn leaves the inbox alone, takes its first command or empties it. -/
theorem inbox_turn (s : Scheduler) (now : Instant) :
    (s.turn now).1.inbox = s.inbox ∨ (s.turn now).1.inbox = s.inbox.tail ∨ (s.turn now).1.inbox = [] := by
  cases serves_turn s now with
  | waits _ hinbox _ => exact .inl hinbox
  | answers _ hinbox _ hs' _ => exact .inr (.inl (by rw [hs', hinbox]; rfl))
  | abandons _ hinbox _ _ => exact .inr (.inr hinbox)

/-- A turn that answers a ticket with success has carried out the command that came first. -/
theorem turn_of_reply (h : (ticket, .ok answer) ∈ (s.turn now).2) :
    ∃ c inbox d, s.inbox = (ticket, c) :: inbox ∧ s.phase = .running ∧ s.cancelled = false ∧
      s.dispatcher.handle now c = some (d, .ok answer) ∧
      (s.turn now).1 = { s with inbox, dispatcher := d.noteRegistered } := by
  cases serves_turn s now with
  | waits _ _ hreplies => cases hreplies ▸ h
  | answers hdeed hinbox hd hs' hreplies =>
    obtain ⟨hphase, hcancelled⟩ := running_of_deed hdeed
    cases List.mem_singleton.1 (hreplies ▸ h)
    exact ⟨_, _, _, hinbox, hphase, hcancelled, hd, hs'⟩
  | abandons _ _ _ hreplies => exact absurd (hreplies ▸ h) (not_mem_abandonInbox s _ _)

/-! ## Requests -/

/-- The command of a ticket waits behind commands with other tickets, or is gone. -/
def Awaits (ticket : Nat) (c : Command) (s : Scheduler) : Prop :=
  s.inbox = [] ∨ ∃ before, s.inbox = before ++ [(ticket, c)] ∧ ∀ x ∈ before, x.1 ≠ ticket

theorem Awaits.turn (h : s.Awaits ticket c) (now : Instant) : (s.turn now).1.Awaits ticket c := by
  rcases h with h | ⟨before, hinbox, hother⟩
  · rcases inbox_turn s now with hi | hi | hi
    · exact .inl (hi.trans h)
    · exact .inl (by rw [hi, h]; rfl)
    · exact .inl hi
  · rcases inbox_turn s now with hi | hi | hi
    · exact .inr ⟨before, hi.trans hinbox, hother⟩
    · rw [hinbox] at hi
      cases before with
      | nil => exact .inl hi
      | cons x before => exact .inr ⟨before, hi, fun y hy => hother y (List.mem_cons_of_mem _ hy)⟩
    · exact .inl hi

/-- What a client finds that waited for its command to be carried out with success. -/
theorem awaitReply_of_ok {n : Nat} (hs : s.Awaits ticket c) (h : (awaitReply now ticket n s).2 = .ok answer) :
    ∃ (s' : Scheduler) (d : Dispatcher), s'.Ready ∧ s'.dispatcher.handle now c = some (d, .ok answer) ∧
      (awaitReply now ticket n s).1 = { s' with dispatcher := d.noteRegistered } := by
  induction n generalizing s with
  | zero => cases h
  | succ n ih =>
    have hturn := hs.turn now
    have hreply : (ticket, .ok answer) ∈ (s.turn now).2 → _ := turn_of_reply
    obtain ⟨⟨s₁, replies⟩, ht⟩ : ∃ q, s.turn now = q := ⟨_, rfl⟩
    rw [ht] at hturn hreply
    simp only [awaitReply, ht] at h ⊢
    cases hlookup : replies.lookup ticket with
    | none =>
      rw [hlookup] at h
      exact ih hturn h
    | some reply =>
      rw [hlookup] at h
      change reply = _ at h
      subst h
      obtain ⟨c', inbox, d, hinbox, hphase, hcancelled, hd, hs₁⟩ := hreply (by
        obtain ⟨l, l', hl, -⟩ := List.lookup_eq_some_iff.1 hlookup
        rw [hl]
        exact List.mem_append_right _ List.mem_cons_self)
      -- The command that was answered is the last one of the inbox.
      rcases hs with hempty | ⟨before, hbefore, hother⟩
      · rw [hempty] at hinbox
        cases hinbox
      · rw [hbefore] at hinbox
        cases before with
        | nil =>
          cases hinbox
          exact ⟨{ s with inbox := [] }, d, ⟨hphase, hcancelled, rfl⟩, hd, hs₁⟩
        | cons x before =>
          obtain ⟨rfl, -⟩ := List.cons.inj hinbox
          exact absurd rfl (hother _ List.mem_cons_self)

/-- Every command that waits has a ticket that was handed out. -/
def Ticketed (s : Scheduler) : Prop := ∀ x ∈ s.inbox, x.1 < s.nextTicket

/-- A request that succeeds is carried out by a loop that has nothing else waiting. -/
theorem request_of_ok (hs : s.Ticketed) (h : (s.request now c).2 = .ok answer) :
    ∃ (s' : Scheduler) (d : Dispatcher), s'.Ready ∧ s'.dispatcher.handle now c = some (d, .ok answer) ∧
      (s.request now c).1 = { s' with dispatcher := d.noteRegistered } := by
  unfold request at h ⊢
  cases hsubmit : s.submit c with
  | error err =>
    rw [hsubmit] at h
    cases h
  | ok q =>
    obtain ⟨s₁, ticket⟩ := q
    rw [hsubmit] at h
    have hawaits : s₁.Awaits ticket c := by
      unfold submit at hsubmit
      split at hsubmit <;> cases hsubmit
      exact .inr ⟨s.inbox, rfl, fun x hx => Nat.ne_of_lt (hs x hx)⟩
    exact awaitReply_of_ok hawaits h

/-! ## Tickets -/

/-- What hands out no ticket and adds no command keeps the tickets in order. -/
theorem Ticketed.of_subset {s' : Scheduler} (hs : s.Ticketed) (hinbox : ∀ x ∈ s'.inbox, x ∈ s.inbox)
    (hnext : s'.nextTicket = s.nextTicket) : s'.Ticketed :=
  fun x hx => hnext ▸ hs x (hinbox x hx)

theorem Ticketed.turn (hs : s.Ticketed) (now : Instant) : (s.turn now).1.Ticketed :=
  hs.of_subset (fun _ hx => mem_inbox_turn hx) (sameHandle_turn s now).nextTicket

theorem Ticketed.submit {s' : Scheduler} (hs : s.Ticketed) (h : s.submit c = .ok (s', ticket)) : s'.Ticketed := by
  unfold Scheduler.submit at h
  split at h <;> cases h
  intro x hx
  rcases List.mem_append.1 hx with hx | hx
  · exact Nat.lt_succ_of_lt (hs x hx)
  · cases List.mem_singleton.1 hx
    exact Nat.lt_succ_self _

theorem Ticketed.request (hs : s.Ticketed) (now : Instant) (c : Command) : (s.request now c).1.Ticketed := by
  have hawait : ∀ (n : Nat) (s : Scheduler) (ticket : Nat), s.Ticketed → (awaitReply now ticket n s).1.Ticketed := by
    intro n
    induction n with
    | zero => exact fun s ticket hs => hs
    | succ n ih =>
      intro s ticket hs
      have hturn := hs.turn now
      obtain ⟨⟨s', replies⟩, ht⟩ : ∃ q, s.turn now = q := ⟨_, rfl⟩
      rw [ht] at hturn
      simp only [awaitReply, ht]
      cases replies.lookup ticket with
      | some reply => exact hturn
      | none => exact ih s' ticket hturn
  unfold Scheduler.request
  cases h : s.submit c with
  | error err => exact hs
  | ok q =>
    obtain ⟨s', ticket⟩ := q
    exact hawait _ s' ticket (hs.submit h)

/-- A move that comes from a run, or from a client of the registry. -/
def Move.Aside : Move → Prop
  | .beginRun _ | .finishRun .. | .registry _ => True
  | _ => False

/-- Such a move touches neither the loop nor its handle. -/
theorem aside_move (h : m.Aside) :
    (s.move m).phase = s.phase ∧ (s.move m).inbox = s.inbox ∧ SameHandle s (s.move m) := by
  match m with
  | .beginRun id =>
    rcases beginRun_cases s id with h | ⟨guards, h⟩ | ⟨kind, h⟩ <;> rw [move, h] <;>
      exact ⟨rfl, rfl, rfl, rfl, rfl, rfl⟩
  | .finishRun id panicked took =>
    rcases finishRun_cases s id panicked took with h | ⟨guards, p, h | h⟩ <;> rw [move, h] <;>
      exact ⟨rfl, rfl, rfl, rfl, rfl, rfl⟩
  | .registry r => exact ⟨rfl, rfl, rfl, rfl, rfl, rfl⟩

theorem Ticketed.move (hs : s.Ticketed) (m : Move) : (s.move m).Ticketed := by
  by_cases haside : m.Aside
  · obtain ⟨-, hinbox, hhandle⟩ := aside_move (s := s) haside
    exact hs.of_subset (fun x hx => hinbox ▸ hx) hhandle.nextTicket
  cases m with
  | turn now => exact hs.turn now
  | submit c =>
    unfold Scheduler.move
    dsimp only
    split
    · exact hs.submit ‹_›
    · exact hs
  | start => rcases move_start_cases s with h | ⟨-, h⟩ <;> rw [h] <;> exact hs
  | cancel => exact hs
  | drop => exact hs
  | shutdown => rcases move_shutdown_cases s with h | h <;> rw [h] <;> exact hs
  | _ => exact (haside trivial).elim

end Scheduler

namespace Site

variable {β : Type} {e : Engine β} {s : Site β}

theorem ticketed_step {now : Instant} {w : World β} (hw : w.scheduler.Ticketed) (t : Task) (ts : List Task) :
    (World.step e now w (t :: ts)).1.scheduler.Ticketed := by
  cases t with
  | act a =>
    rw [World.step_act]
    cases a with
    | request c =>
      have h := hw.request now c
      obtain ⟨⟨s, reply⟩, hs⟩ : ∃ q, w.scheduler.request now c = q := ⟨_, rfl⟩
      rw [hs] at h
      simp only [World.act, World.request, hs]
      cases reply <;> exact h
    | rebind c => exact hw
    | record k d => exact hw
  | routine c delay x =>
    rw [World.step_of_forall_ne w (by simp)]
    simp only [World.takeUp]
    split <;> exact hw
  | adhoc routine =>
    rw [World.step_of_forall_ne w (by simp)]
    exact hw

theorem ticketed_happen (hs : s.world.scheduler.Ticketed) (ev : Event) :
    (s.happen e ev).world.scheduler.Ticketed := by
  cases hmove : ev.move? with
  | some m =>
    rw [happen_of_move? hmove]
    exact hs.move m
  | none =>
    by_cases hclient : ∃ i now, ev = .client i now
    · obtain ⟨i, now, rfl⟩ := hclient
      cases hi : s.clients[i]? with
      | none => rw [happen_client_idle (.inl hi)]; exact hs
      | some ts =>
        cases ts with
        | nil => rw [happen_client_idle (.inr hi)]; exact hs
        | cons t ts =>
          rw [happen_client hi]
          exact ticketed_step hs t ts
    · rcases happen_of_call (e := e) (s := s) hmove (fun i now h => hclient ⟨i, now, h⟩) with ⟨ts, -, h⟩ | h
      · rw [h]
        exact hs
      · rw [h]
        exact hs

/-- Whatever happens at a site, tickets are handed out once. -/
theorem ticketed_run (hs : s.world.scheduler.Ticketed) (evs : List Event) :
    (s.run e evs).world.scheduler.Ticketed := by
  induction evs generalizing s with
  | nil => exact hs
  | cons ev evs ih => exact ih (ticketed_happen hs ev)

end Site

end Rota
