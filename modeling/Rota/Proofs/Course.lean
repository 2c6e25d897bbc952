import Rota.Proofs.Plan
import Rota.Proofs.Moves
import Rota.Proofs.World

/-!
# The stores of a site

An event at a site is a move of the scheduler, a new call, or a step of a client (`Event.move?`). What clients register
are run-once triggers and triggers that were read from the expressions of a configuration, so over all events the
stores of the loop stay in order (`Site.ordered_run`).

- a request to a loop that has nothing else waiting is answered by the dispatcher, or fails and leaves the stores alone
  (`Scheduler.request_of_idle`).
-/

namespace Rota

/-! ## Requests -/

namespace Scheduler

variable {s : Scheduler} {now : Instant} {c : Command}

/-- A request to a loop with an empty inbox is carried out at once, or fails and leaves the dispatcher alone. -/
theorem request_of_idle (hinbox : s.inbox = []) (now : Instant) (c : Command) :
    (∃ d reply, s.dispatcher.handle now c = some (d, reply) ∧ s.request now c = (s.answered d, reply)) ∨
    ((∃ err, (s.request now c).2 = .error err) ∧ (s.request now c).1.dispatcher = s.dispatcher ∧
      (s.phase = .broken → (s.request now c).1.phase = .broken)) := by
  by_cases hphase : s.phase = .running
  · cases hcancelled : s.cancelled with
    | false =>
      have hready : s.Ready := ⟨hphase, hcancelled, hinbox⟩
      cases hd : s.dispatcher.handle now c with
      | some q =>
        obtain ⟨d, reply⟩ := q
        exact .inl ⟨d, reply, rfl, request_of_handle hready hd⟩
      | none =>
        rw [request_of_handle_none hready hd]
        exact .inr ⟨⟨_, rfl⟩, rfl, fun _ => rfl⟩
    | true =>
      -- The loop turns once, to the end of its work, and the request is never answered.
      have hsubmit : s.submit c =
          .ok ({ s with inbox := [(s.nextTicket, c)], nextTicket := s.nextTicket + 1 }, s.nextTicket) := by
        unfold submit
        simp only [hphase, hinbox, List.nil_append]
      have hrequest : s.request now c =
          ({ s with phase := .draining, inbox := [(s.nextTicket, c)], nextTicket := s.nextTicket + 1 },
            .error .unanswered) := by
        unfold request
        simp only [hsubmit, List.length_singleton, awaitReply, turn, hphase, runningTurn, hcancelled, ↓reduceIte,
          List.lookup_nil]
      rw [hrequest]
      exact .inr ⟨⟨_, rfl⟩, rfl, fun h => absurd (hphase.symm.trans h) (by simp)⟩
  · have hsubmit : ∃ err, s.submit c = .error err := by
      unfold submit
      cases hp : s.phase with
      | running => exact absurd hp hphase
      | _ => exact ⟨_, rfl⟩
    obtain ⟨err, hsubmit⟩ := hsubmit
    refine .inr ?_
    unfold request
    rw [hsubmit]
    exact ⟨⟨err, rfl⟩, rfl, id⟩

/-- A loop that has broken down stays so. -/
theorem request_of_broken (h : s.phase = .broken) (now : Instant) (c : Command) :
    s.request now c = (s, .error .closed) := by
  unfold request submit
  rw [h]

theorem Ordered.awaitReply (ticket : Nat) (n : Nat) (hs : s.Ordered) : (awaitReply now ticket n s).1.Ordered := by
  induction n generalizing s with
  | zero => exact hs
  | succ n ih =>
    have hturn := hs.turn now
    obtain ⟨⟨s', replies⟩, ht⟩ : ∃ q, s.turn now = q := ⟨_, rfl⟩
    rw [ht] at hturn
    simp only [Scheduler.awaitReply, ht]
    cases replies.lookup ticket with
    | some reply => exact hturn
    | none => exact ih hturn

theorem Ordered.request (hs : s.Ordered) (hc : c.Parsed) : (s.request now c).1.Ordered := by
  unfold Scheduler.request
  cases h : s.submit c with
  | error err => exact hs
  | ok q =>
    obtain ⟨s', ticket⟩ := q
    have hmove : (s.move (.submit c)).Ordered := hs.move hc
    rw [Scheduler.move, h] at hmove
    exact hmove.awaitReply ticket _

end Scheduler

/-! ## Clients -/

/-- A step that brings in no recurring trigger but one that was made from an expression. -/
def Task.Parsed : Task → Prop
  | .act (.request c) => c.Parsed
  | .routine _ _ x => (Trigger.recurring x.full).Parsed ∧ ∀ t ∈ x.incremental, (Trigger.recurring t).Parsed
  | _ => True

/-- The triggers of a plan were made from expressions. -/
theorem Plan.parsed_of_build {c : Config} {p : Plan} (hp : Plan.build c = .ok p) {x : Plan.Entry}
    (hx : x ∈ p.entries) (delay : Span) : (Task.routine c delay x).Parsed := by
  obtain ⟨ρ, -, hρ⟩ := Plan.mem_entries hp hx
  obtain ⟨-, hfull, hincremental⟩ := Plan.entry_eq_ok hρ
  refine ⟨⟨_, hfull⟩, fun t ht => ?_⟩
  unfold Plan.Incremental at hincremental
  split at hincremental
  · rw [hincremental] at ht
    cases ht
  · obtain ⟨t', ht', hsome⟩ := hincremental
    rw [hsome] at ht
    cases ht
    exact ⟨_, ht'⟩

namespace World

variable {β : Type} {e : Engine β} {now : Instant} {w : World β}

/-- A client that carries out an act goes on with the rest unless the act is refused. -/
theorem step_act (e : Engine β) (now : Instant) (w : World β) (a : Act) (ts : List Task) :
    step e now w (.act a :: ts) = ((act e now w a).1,
      match (act e now w a).2 with
      | .done => .inr ts
      | o => .inl o) := by
  obtain ⟨⟨w', o⟩, hw'⟩ : ∃ q, act e now w a = q := ⟨_, rfl⟩
  rw [step, hw']
  cases o <;> rfl

/-- A client's request to a loop that has nothing else waiting goes through, or changes no store. -/
theorem act_request_of_idle (hinbox : w.scheduler.inbox = []) (e : Engine β) (now : Instant) (c : Command) :
    (∃ d answer, w.scheduler.dispatcher.handle now c = some (d, .ok answer) ∧
      act e now w (.request c) = ({ w with scheduler := w.scheduler.answered d }, .done)) ∨
    ∃ s err, act e now w (.request c) = ({ w with scheduler := s }, .refused (.scheduler err)) ∧
      s.dispatcher.jobs = w.jobs ∧ s.registry = w.scheduler.registry := by
  rcases Scheduler.request_of_idle hinbox now c with ⟨d, reply, hd, hr⟩ | ⟨⟨err, herr⟩, hsame, -⟩
  · cases reply with
    | ok answer => exact .inl ⟨d, answer, hd, act_request_ok hr⟩
    | error err =>
      refine .inr ⟨_, err, act_request_error hr, ?_⟩
      rcases Dispatcher.handle_cases hd with ⟨rfl, -⟩ | ⟨_, _, _, _, _, _, hreply⟩ | ⟨_, _, _, _, hreply⟩ |
        ⟨_, _, hreply⟩
      · exact ⟨rfl, rfl⟩
      all_goals cases hreply
  · exact .inr ⟨_, err, act_request_error (Prod.ext rfl herr), congrArg Dispatcher.jobs hsame,
      congrArg Dispatcher.registry hsame⟩

theorem ordered_act (hw : w.scheduler.Ordered) {a : Act} (ha : (Task.act a).Parsed) :
    (act e now w a).1.scheduler.Ordered := by
  cases a with
  | request c =>
    have h : (w.scheduler.request now c).1.Ordered := hw.request ha
    obtain ⟨⟨s, reply⟩, hs⟩ : ∃ q, w.scheduler.request now c = q := ⟨_, rfl⟩
    rw [hs] at h
    simp only [act, World.request, hs]
    cases reply <;> exact h
  | rebind c => exact hw
  | record k d => exact hw.move (m := .registry _) trivial

/-- The registrations of a routine bring in its triggers. -/
theorem parsed_registrations {n : Nat} {h : Handler} {catchUp : Bool} {c : Config} {delay : Span} {x : Plan.Entry}
    (hx : (Task.routine c delay x).Parsed) {a : Act} (ha : a ∈ registrations n h catchUp delay x) :
    (Task.act a).Parsed := by
  unfold registrations at ha
  rcases List.mem_append.1 ha with ha | ha
  · rcases List.mem_append.1 ha with ha | ha
    · rw [List.mem_cons, List.mem_singleton] at ha
      rcases ha with rfl | rfl
      · exact hx.1
      · trivial
    · cases catchUp with
      | false => cases ha
      | true =>
        cases List.mem_singleton.1 ha
        trivial
  · cases hi : x.incremental with
    | none =>
      rw [hi] at ha
      cases ha
    | some t =>
      rw [hi, List.mem_cons, List.mem_singleton] at ha
      rcases ha with rfl | rfl
      · exact hx.2 t hi
      · trivial

/-- What follows on a task brings in no trigger that the task does not. -/
theorem parsed_takeUp {t : Task} (ht : t.Parsed) {as : List Act} (h : (takeUp e now w t).2 = some as) {a : Act}
    (ha : a ∈ as) : (Task.act a).Parsed := by
  cases t with
  | act a' =>
    cases h
    cases List.mem_singleton.1 ha
    exact ht
  | routine c delay x =>
    simp only [takeUp] at h
    split at h
    · cases h
      cases ha
    · obtain ⟨catchUp, -, rfl⟩ := Option.map_eq_some_iff.1 h
      exact parsed_registrations ht ha
  | adhoc routine =>
    cases h
    obtain ⟨d, -, rfl⟩ := List.mem_map.1 ha
    trivial

theorem ordered_takeUp (hw : w.scheduler.Ordered) (t : Task) : (takeUp e now w t).1.scheduler.Ordered := by
  cases t with
  | act a => exact hw
  | routine c delay x =>
    simp only [takeUp]
    split <;> exact hw
  | adhoc routine => exact hw.move (m := .registry _) trivial

theorem step_of_broken (h : w.scheduler.phase = .broken) (t : Task) (ts : List Task) :
    (step e now w (t :: ts)).1.scheduler.phase = .broken := by
  cases t with
  | act a =>
    rw [step_act]
    cases a with
    | request c =>
      rw [act_request_error (Scheduler.request_of_broken h now c)]
      exact h
    | rebind c => exact h
    | record k d => exact h
  | routine c delay x =>
    rw [step_of_forall_ne w (by simp)]
    simp only [takeUp]
    split <;> exact h
  | adhoc routine =>
    rw [step_of_forall_ne w (by simp)]
    exact h

end World

/-! ## Events -/

/-- The move of the scheduler that an event is; nothing for a new call and a step of a client. -/
def Event.move? : Event → Option Scheduler.Move
  | .start => some .start
  | .cancel => some .cancel
  | .drop => some .drop
  | .shutdown => some .shutdown
  | .delete key => some (.submit (.delete key))
  | .clear => some (.submit .clear)
  | .keys => some (.submit .keys)
  | .info key => some (.submit (.info key))
  | .turn now => some (.turn now)
  | .beginRun id => some (.beginRun id)
  | .finishRun id panicked took => some (.finishRun id panicked took)
  | .schedule .. => none
  | .apply .. => none
  | .adhoc _ => none
  | .client .. => none

/-- The calls an event makes. -/
def Event.call? : Event → Option (List Task)
  | .schedule c delay => (Plan.build c).toOption.map (World.installTasks c delay)
  | .apply c delay => (Plan.build c).toOption.map (World.applyTasks c delay)
  | .adhoc routine => some [.adhoc routine]
  | _ => none

theorem Event.parsed_of_move? {ev : Event} {m : Scheduler.Move} (h : ev.move? = some m) : m.Parsed := by
  cases ev <;> cases h <;> trivial

theorem Event.parsed_of_call? {ev : Event} {ts : List Task} (h : ev.call? = some ts) : ∀ t ∈ ts, t.Parsed := by
  intro t ht
  cases ev with
  | schedule c delay =>
    obtain ⟨p, hp, rfl⟩ := Option.map_eq_some_iff.1 h
    obtain ⟨x, hx, rfl⟩ := List.mem_map.1 ht
    exact Plan.parsed_of_build (by cases hb : Plan.build c <;> simp_all [Except.toOption]) hx delay
  | apply c delay =>
    obtain ⟨p, hp, rfl⟩ := Option.map_eq_some_iff.1 h
    rw [World.applyTasks, List.mem_cons, List.mem_cons] at ht
    rcases ht with rfl | rfl | ht
    · trivial
    · trivial
    · obtain ⟨x, hx, rfl⟩ := List.mem_map.1 ht
      exact Plan.parsed_of_build (by cases hb : Plan.build c <;> simp_all [Except.toOption]) hx delay
  | adhoc routine =>
    cases h
    cases List.mem_singleton.1 ht
    trivial
  | _ => cases h

namespace Site

variable {β : Type} {e : Engine β} {s : Site β} {ev : Event} {now : Instant}

/-- What happens in an event that is a move. -/
theorem happen_of_move? {m : Scheduler.Move} (h : ev.move? = some m) :
    s.happen e ev = s.withScheduler fun r => r.move m := by
  cases ev <;> cases h <;> rfl

/-- What happens in an event that is neither a move nor a step of a client. -/
theorem happen_of_call (hmove : ev.move? = none) (hclient : ∀ i now, ev ≠ .client i now) :
    (∃ ts, ev.call? = some ts ∧ s.happen e ev = s.call ts) ∨ s.happen e ev = s := by
  cases ev with
  | schedule c delay =>
    unfold happen Event.call?
    dsimp only
    split
    · rename_i hp
      exact .inl ⟨_, by rw [hp]; rfl, rfl⟩
    · exact .inr rfl
  | apply c delay =>
    unfold happen Event.call?
    dsimp only
    split
    · rename_i hp
      exact .inl ⟨_, by rw [hp]; rfl, rfl⟩
    · exact .inr rfl
  | adhoc routine => exact .inl ⟨_, rfl, rfl⟩
  | client i now => exact absurd rfl (hclient i now)
  | _ => cases hmove

/-- What happens when a client takes its next step. -/
theorem happen_client {i : Nat} {t : Task} {ts : List Task} (hi : s.clients[i]? = some (t :: ts)) (now : Instant) :
    s.happen e (.client i now) =
      { world := (World.step e now s.world (t :: ts)).1
        clients := s.clients.set i ((World.step e now s.world (t :: ts)).2.elim (fun _ => []) id) } := by
  obtain ⟨⟨w, next⟩, hw⟩ : ∃ q, World.step e now s.world (t :: ts) = q := ⟨_, rfl⟩
  simp only [happen, hi, hw]
  cases next <;> rfl

/-- A client that has nothing ahead of it does nothing. -/
theorem happen_client_idle {i : Nat} (hi : s.clients[i]? = none ∨ s.clients[i]? = some []) :
    s.happen e (.client i now) = s := by
  rcases hi with hi | hi
  · simp only [happen, hi]
  · simp only [happen, hi, World.step]
    have hset : s.clients.set i [] = s.clients := by
      obtain ⟨hlt, hget⟩ := List.getElem?_eq_some_iff.1 hi
      rw [← hget, List.set_getElem_self]
    rw [hset]

/-- The stores of the loop are in order, and so are the steps that clients have ahead of them. -/
structure Ordered (s : Site β) : Prop where
  scheduler : s.world.scheduler.Ordered
  clients : ∀ ts ∈ s.clients, ∀ t ∈ ts, t.Parsed

theorem ordered_client (hs : s.Ordered) (i : Nat) (now : Instant) : (s.happen e (.client i now)).Ordered := by
  cases hi : s.clients[i]? with
  | none => rw [happen_client_idle (.inl hi)]; exact hs
  | some ts =>
    cases ts with
    | nil => rw [happen_client_idle (.inr hi)]; exact hs
    | cons t ts =>
      have hparsed : ∀ t' ∈ t :: ts, t'.Parsed := hs.clients _ (List.mem_of_getElem? hi)
      have hrest : ∀ t' ∈ ts, t'.Parsed := fun t' ht' => hparsed t' (List.mem_cons_of_mem _ ht')
      -- It is enough to look at the world and at what the client has ahead of it next.
      suffices h : (World.step e now s.world (t :: ts)).1.scheduler.Ordered ∧
          ∀ t' ∈ (World.step e now s.world (t :: ts)).2.elim (fun _ => []) id, t'.Parsed by
        rw [happen_client hi]
        refine ⟨h.1, fun ts' hts' => ?_⟩
        rcases List.mem_or_eq_of_mem_set hts' with hts' | rfl
        · exact hs.clients ts' hts'
        · exact h.2
      by_cases hact : ∃ a, t = .act a
      · obtain ⟨a, rfl⟩ := hact
        rw [World.step_act]
        refine ⟨World.ordered_act hs.scheduler (hparsed _ List.mem_cons_self), ?_⟩
        cases (World.act e now s.world a).2 with
        | done => exact hrest
        | _ => simp
      · rw [World.step_of_forall_ne _ fun a ha => hact ⟨a, ha⟩]
        refine ⟨World.ordered_takeUp hs.scheduler t, ?_⟩
        cases has : (World.takeUp e now s.world t).2 with
        | none => simp
        | some as =>
          intro t' ht'
          rcases List.mem_append.1 ht' with ht' | ht'
          · obtain ⟨a, ha, rfl⟩ := List.mem_map.1 ht'
            exact World.parsed_takeUp (hparsed _ List.mem_cons_self) has ha
          · exact hrest t' ht'

theorem ordered_happen (hs : s.Ordered) (ev : Event) : (s.happen e ev).Ordered := by
  cases hmove : ev.move? with
  | some m =>
    rw [happen_of_move? hmove]
    exact ⟨hs.scheduler.move (Event.parsed_of_move? hmove), hs.clients⟩
  | none =>
    by_cases hclient : ∃ i now, ev = .client i now
    · obtain ⟨i, now, rfl⟩ := hclient
      exact ordered_client hs i now
    · rcases happen_of_call (e := e) (s := s) hmove (fun i now h => hclient ⟨i, now, h⟩) with ⟨ts, hts, h⟩ | h
      · rw [h]
        refine ⟨hs.scheduler, fun ts' hts' => ?_⟩
        rcases List.mem_append.1 hts' with hts' | hts'
        · exact hs.clients ts' hts'
        · cases List.mem_singleton.1 hts'
          exact Event.parsed_of_call? hts
      · rw [h]
        exact hs

theorem ordered_run (hs : s.Ordered) (evs : List Event) : (s.run e evs).Ordered := by
  induction evs generalizing s with
  | nil => exact hs
  | cons ev evs ih => exact ih (ordered_happen hs ev)

/-- A loop that has broken down stays so. -/
theorem happen_of_broken (h : s.world.scheduler.phase = .broken) (ev : Event) :
    (s.happen e ev).world.scheduler.phase = .broken := by
  cases hmove : ev.move? with
  | some m =>
    rw [happen_of_move? hmove]
    exact Scheduler.move_of_broken h m
  | none =>
    by_cases hclient : ∃ i now, ev = .client i now
    · obtain ⟨i, now, rfl⟩ := hclient
      cases hi : s.clients[i]? with
      | none => rw [happen_client_idle (.inl hi)]; exact h
      | some ts =>
        cases ts with
        | nil => rw [happen_client_idle (.inr hi)]; exact h
        | cons t ts =>
          rw [happen_client hi]
          exact World.step_of_broken h t ts
    · rcases happen_of_call (e := e) (s := s) hmove (fun i now h => hclient ⟨i, now, h⟩) with ⟨ts, -, hcall⟩ | hcall
      · rw [hcall]
        exact h
      · rw [hcall]
        exact h

end Site

end Rota
