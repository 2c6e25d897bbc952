import Rota.Proofs.Recorded

/-!
# Keys that are spoken for

A request for a backup of a routine out of turn registers the recorded job of the routine once more, under a key made
of the routine's name, the clock reading and the number of the derivation. The request goes through exactly if this key
is free (`World.grants_iff`).

- the number is what follows the last dash of the key, so that derivations with different numbers have different keys
  (`Registry.adhocKey_number`);
- a key is spoken for if it is registered or waits to be (`Scheduler.Booked`), and a turn brings in none
  (`Scheduler.turn_books`);
- a step of a client brings in a key of a routine it takes up, or derives one with the next number (`World.books_step`).
-/

namespace Rota

/-! ## Derived keys -/

/-- What follows the last of some separators is the same in equal texts. -/
theorem Text.eq_of_append_cons_eq {c : Char} {as bs xs ys : List Char} (hx : c ∉ xs) (hy : c ∉ ys)
    (h : as ++ c :: xs = bs ++ c :: ys) : xs = ys := by
  rcases List.append_eq_append_iff.1 h with ⟨l, -, hl⟩ | ⟨l, -, hl⟩
  · cases l with
    | nil => exact (List.cons.inj hl).2
    | cons a l =>
      rw [(List.cons.inj hl).2] at hx
      exact absurd (List.mem_append_right l List.mem_cons_self) hx
  · cases l with
    | nil => exact (List.cons.inj hl).2.symm
    | cons a l =>
      rw [(List.cons.inj hl).2] at hy
      exact absurd (List.mem_append_right l List.mem_cons_self) hy

/-- Equal derived keys have the same number, whatever routines and readings they are made of. -/
theorem Registry.adhocKey_number {r r' : String} {t t' : Instant} {n n' : UInt64}
    (h : adhocKey r t n = adhocKey r' t' n') : n = n' := by
  have hname := congrArg (fun k => k.name.toList) h
  simp only [adhocKey, Key.full, String.toList_append] at hname
  have hdash : "-".toList = ['-'] := rfl
  rw [hdash, List.append_assoc, List.append_assoc _ ['-']] at hname
  have hdigits := Text.eq_of_append_cons_eq (Text.dash_not_mem_decimal _) (Text.dash_not_mem_decimal _) hname
  exact UInt64.toNat_inj.1 (Text.decimal_injective hdigits)

/-! ## The request -/

namespace World

variable {β : Type} {now : Instant} {routine : String} {w : World β}

/-- The key under which a backup of a routine out of turn is registered. -/
def adhocKey (w : World β) (now : Instant) (routine : String) : Key :=
  Registry.adhocKey routine now w.scheduler.registry.sequence

/-- A request for a backup of a routine out of turn goes through: a recorded job is registered under a key that was
free, to fire once and at once, and no other registration and nothing that is recorded changes. -/
def Grants (now : Instant) (routine : String) (d : Detail) (w : World β) : Prop :=
  ∃ w', scheduleAdhoc now routine w = (w', .ok (some (w.adhocKey now routine))) ∧ w.adhocKey now routine ∉ w.jobs ∧
    w'.jobs = w.jobs.insert (w.adhocKey now routine)
      ⟨⟨w.adhocKey now routine, d.job⟩, .once ⟨.zero, .pending⟩, now⟩ ∧ w'.details = w.details

/-- Without a recorded full backup of the routine the answer is that there is none, and nothing changes. -/
theorem scheduleAdhoc_of_none (h : w.details[Key.full routine]? = none) :
    scheduleAdhoc now routine w = (w, .ok none) := by
  have hget : w.scheduler.registry.get? (.full routine) = none := h
  unfold scheduleAdhoc Registry.deriveAdhoc
  rw [hget]
  rfl

/-- A trigger that fires at once has its fire time at the reading, if this lies in the calendar. -/
theorem next_immediate (hnow : now ≤ Instant.latest) :
    Trigger.immediate.next now = (.once ⟨.zero, .pending⟩, .due now) := by
  have htarget : RunOnce.target? Span.zero now = some now := by
    unfold RunOnce.target?
    rw [Instant.add_zero, if_pos ⟨Nat.zero_le _, hnow⟩]
  simp only [Trigger.immediate, Trigger.after, Trigger.next, RunOnce.next, htarget]

/-- The world once a backup out of turn is derived: the next number is taken. -/
def withDerivation (w : World β) : World β := w.withRegistry fun r => { r with sequence := r.sequence + 1 }

section Request

variable {d : Detail} (h : w.details[Key.full routine]? = some d)
include h

/-- The request registers the recorded job under the derived key. -/
theorem scheduleAdhoc_of_some {s : Scheduler} {reply : Except SchedulerError Answer}
    (hr : w.withDerivation.scheduler.request now (.schedule ⟨w.adhocKey now routine, d.job⟩ .immediate) = (s, reply)) :
    scheduleAdhoc now routine w =
      ({ w with scheduler := s }, reply.map fun _ => some (w.adhocKey now routine)) := by
  have hget : w.scheduler.registry.get? (.full routine) = some d := h
  unfold scheduleAdhoc Registry.deriveAdhoc
  rw [hget]
  exact congrArg (fun q : Scheduler × Except SchedulerError Answer =>
    (({ w with scheduler := q.1 } : World β), q.2.map fun _ => some (w.adhocKey now routine))) hr

variable (hw : w.Ready)
include hw

theorem grants_of_free (hnow : now ≤ Instant.latest) (hfree : w.adhocKey now routine ∉ w.jobs) :
    w.Grants now routine d := by
  have hready : w.withDerivation.Ready := ⟨hw.running, hw.uncancelled, hw.idle⟩
  have hhandle : w.withDerivation.scheduler.dispatcher.handle now (.schedule ⟨w.adhocKey now routine, d.job⟩ .immediate)
      = _ := Dispatcher.schedule_of_due hfree (next_immediate hnow)
  have hr := Scheduler.request_of_handle hready hhandle
  exact ⟨_, scheduleAdhoc_of_some h hr, hfree, rfl, rfl⟩

theorem refused_of_mem (hmem : w.adhocKey now routine ∈ w.jobs) :
    ∃ w', scheduleAdhoc now routine w = (w', .error (.jobAlreadyExists (w.adhocKey now routine))) ∧
      w'.jobs = w.jobs ∧ w'.details = w.details := by
  have hready : w.withDerivation.Ready := ⟨hw.running, hw.uncancelled, hw.idle⟩
  have hhandle : w.withDerivation.scheduler.dispatcher.handle now (.schedule ⟨w.adhocKey now routine, d.job⟩ .immediate)
      = _ := Dispatcher.schedule_of_mem hmem
  have hr := Scheduler.request_of_handle hready hhandle
  exact ⟨_, scheduleAdhoc_of_some h hr, rfl, rfl⟩

/-- The request goes through exactly if the derived key is free. -/
theorem grants_iff (hnow : now ≤ Instant.latest) :
    w.Grants now routine d ↔ w.adhocKey now routine ∉ w.jobs :=
  ⟨fun ⟨_, _, hfree, _⟩ => hfree, grants_of_free h hw hnow⟩

end Request

end World

/-! ## Keys that are spoken for -/

/-- A command that registers a key. -/
def Command.Registers (k : Key) : Command → Prop
  | .schedule d _ => d.key = k
  | _ => False

namespace Dispatcher

variable {d d' : Dispatcher} {now : Instant} {c : Command} {reply : Except SchedulerError Answer} {k : Key}

theorem mem_jobs_handle (h : d.handle now c = some (d', reply)) (hk : k ∈ d'.jobs) : k ∈ d.jobs ∨ c.Registers k := by
  rcases handle_cases h with ⟨rfl, -⟩ | ⟨r, t, rfl, -, -, rfl, -⟩ | ⟨k', -, -, rfl, -⟩ | ⟨-, rfl, -⟩
  · exact .inl hk
  · rcases Std.ExtTreeMap.mem_insert.1 hk with hkey | hold
    · exact .inr (Std.LawfulEqCmp.compare_eq_iff_eq.1 hkey)
    · exact .inl hold
  · exact .inl (Std.ExtTreeMap.mem_of_mem_erase hk)
  · exact absurd hk Std.ExtTreeMap.not_mem_empty

theorem sequence_handle (h : d.handle now c = some (d', reply)) : d'.registry.sequence = d.registry.sequence := by
  rcases handle_cases h with ⟨rfl, -⟩ | ⟨r, t, -, -, -, rfl, -⟩ | ⟨k', -, -, rfl, -⟩ | ⟨-, rfl, -⟩ <;> rfl

end Dispatcher

namespace Scheduler

variable {s : Scheduler} {now : Instant} {c : Command} {k : Key}

/-- A key is registered, or a command that waits registers it. -/
def Booked (s : Scheduler) (k : Key) : Prop := k ∈ s.dispatcher.jobs ∨ ∃ x ∈ s.inbox, x.2.Registers k

/-- A turn books no key and takes no number. -/
theorem turn_books (s : Scheduler) (now : Instant) :
    (∀ k, (s.turn now).1.Booked k → s.Booked k) ∧
      (s.turn now).1.registry.sequence = s.registry.sequence := by
  have hwaits : ∀ {k}, (∃ x ∈ (s.turn now).1.inbox, x.2.Registers k) → s.Booked k := by
    rintro k ⟨x, hx, hk⟩
    exact .inr ⟨x, mem_inbox_turn hx, hk⟩
  cases hdeed : s.deed? with
  | none =>
    have hsame := sameStores_turn hdeed now
    refine ⟨fun k hk => hk.elim (fun hmem => .inl (hsame.jobs ▸ hmem)) hwaits, ?_⟩
    rw [hsame.registry]
  | some x =>
    cases x with
    | command c =>
      rcases turn_of_command hdeed now with ⟨ticket, inbox, d, reply, hinbox, hd, ht⟩ | ⟨-, ht, -⟩
      · refine ⟨fun k hk => hk.elim (fun hmem => ?_) hwaits, ?_⟩
        · rw [ht] at hmem
          rcases Dispatcher.mem_jobs_handle hd hmem with hold | hnew
          · exact .inl hold
          · exact .inr ⟨(ticket, c), hinbox ▸ List.mem_cons_self, hnew⟩
        · have hsequence : d.registry.sequence = s.dispatcher.registry.sequence := Dispatcher.sequence_handle hd
          rw [ht]
          exact hsequence
      · refine ⟨fun k hk => hk.elim (fun hmem => ?_) hwaits, ?_⟩
        · rw [ht] at hmem
          exact .inl hmem
        · rw [ht]
          rfl
    | pass =>
      refine ⟨fun k hk => hk.elim (fun hmem => ?_) hwaits, ?_⟩
      · rw [turn_of_pass hdeed, jobs_takePass] at hmem
        exact .inl (Dispatcher.mem_jobs_passFor hmem)
      · rw [turn_of_pass hdeed, registry_takePass]
        exact congrArg Registry.sequence (Dispatcher.registry_passFor ..)

theorem awaitReply_books (now : Instant) (ticket n : Nat) (s : Scheduler) :
    (∀ k, (awaitReply now ticket n s).1.Booked k → s.Booked k) ∧
      (awaitReply now ticket n s).1.registry.sequence = s.registry.sequence := by
  induction n generalizing s with
  | zero => exact ⟨fun k hk => hk, rfl⟩
  | succ n ih =>
    obtain ⟨hbooked, hsequence⟩ := turn_books s now
    obtain ⟨⟨s', replies⟩, ht⟩ : ∃ q, s.turn now = q := ⟨_, rfl⟩
    rw [ht] at hbooked hsequence
    simp only [awaitReply, ht]
    cases replies.lookup ticket with
    | some reply => exact ⟨hbooked, hsequence⟩
    | none =>
      obtain ⟨hlater, hlast⟩ := ih s'
      exact ⟨fun k hk => hbooked k (hlater k hk), hlast.trans hsequence⟩

/-- A command that is sent books the key it registers. -/
theorem submit_books (s : Scheduler) (c : Command) :
    (∀ k, (s.move (.submit c)).Booked k → s.Booked k ∨ c.Registers k) ∧
      (s.move (.submit c)).registry.sequence = s.registry.sequence := by
  rcases move_submit_cases s c with ⟨-, h⟩ | ⟨-, h⟩ <;> rw [h]
  · exact ⟨fun k hk => .inl hk, rfl⟩
  · refine ⟨fun k hk => ?_, rfl⟩
    rcases hk with hmem | ⟨x, hx, hreg⟩
    · exact .inl (.inl hmem)
    · rcases List.mem_append.1 hx with hx | hx
      · exact .inl (.inr ⟨x, hx, hreg⟩)
      · cases List.mem_singleton.1 hx
        exact .inr hreg

theorem request_books (s : Scheduler) (now : Instant) (c : Command) :
    (∀ k, (s.request now c).1.Booked k → s.Booked k ∨ c.Registers k) ∧
      (s.request now c).1.registry.sequence = s.registry.sequence := by
  obtain ⟨hsubmit, hsame⟩ := submit_books s c
  unfold request
  cases h : s.submit c with
  | error err => exact ⟨fun k hk => .inl hk, rfl⟩
  | ok q =>
    obtain ⟨s', ticket⟩ := q
    have hmove : s.move (.submit c) = s' := by simp only [move, h]
    rw [hmove] at hsubmit hsame
    obtain ⟨hawait, hlast⟩ := awaitReply_books now ticket s'.inbox.length s'
    exact ⟨fun k hk => hsubmit k (hawait k hk), hlast.trans hsame⟩

/-- A move that neither lets the loop turn nor gives it anything books no key. -/
theorem booked_of_sameStores {s' : Scheduler} (h : SameStores s s') (hk : s'.Booked k) : s.Booked k := by
  rcases hk with hmem | ⟨x, hx, hreg⟩
  · exact .inl (h.jobs ▸ hmem)
  · rcases h.inbox with hi | hi
    · exact .inr ⟨x, hi ▸ hx, hreg⟩
    · rw [hi] at hx
      cases hx

end Scheduler

/-! ## Clients -/

/-- A step that registers a key. -/
def Task.Registers (k : Key) : Task → Prop
  | .act (.request c) => c.Registers k
  | _ => False

namespace World

variable {β : Type} {now : Instant} {w : World β} {k : Key}

/-- Whether a step derives a backup out of turn. -/
def derives (w : World β) : Task → Bool
  | .adhoc routine => decide (Key.full routine ∈ w.details)
  | _ => false

/-- The keys that the registrations of a routine register have the name of the routine. -/
theorem name_of_registrations {n : Nat} {h : Handler} {catchUp : Bool} {delay : Span} {x : Plan.Entry} {a : Act}
    (ha : a ∈ registrations n h catchUp delay x) (hk : (Task.act a).Registers k) : k.name = x.name := by
  unfold registrations at ha
  rcases List.mem_append.1 ha with ha | ha
  · rcases List.mem_append.1 ha with ha | ha
    · rw [List.mem_cons, List.mem_singleton] at ha
      rcases ha with rfl | rfl
      · exact congrArg Key.name hk.symm
      · exact hk.elim
    · cases catchUp with
      | false => cases ha
      | true =>
        cases List.mem_singleton.1 ha
        exact congrArg Key.name hk.symm
  · cases hi : x.incremental with
    | none =>
      rw [hi] at ha
      cases ha
    | some t =>
      rw [hi, List.mem_cons, List.mem_singleton] at ha
      rcases ha with rfl | rfl
      · exact congrArg Key.name hk.symm
      · exact hk.elim

/-- The steps that a client has ahead of it after a step. -/
def ahead (q : World β × (Outcome ⊕ List Task)) : List Task := q.2.elim (fun _ => []) id

/-- What a step of a client does to the keys that are spoken for: it takes up a routine of the key's name, or derives
the key, or the key was spoken for before. -/
structure Books (now : Instant) (w : World β) (t : Task) (ts : List Task) (q : World β × (Outcome ⊕ List Task)) :
    Prop where
  keys : ∀ k, (q.1.scheduler.Booked k ∨ ∃ t' ∈ ahead q, t'.Registers k) →
    (w.scheduler.Booked k ∨ ∃ t' ∈ t :: ts, t'.Registers k) ∨
      (∃ c delay x, t = .routine c delay x ∧ k.name = x.name) ∨
      w.derives t = true ∧ ∃ routine, k = w.adhocKey now routine
  sequence : q.1.scheduler.registry.sequence = w.scheduler.registry.sequence + .ofNat (w.derives t).toNat
  routines : ∀ c delay x, Task.routine c delay x ∈ ahead q → Task.routine c delay x ∈ ts

variable (e : Engine β) (now : Instant) (w : World β) (ts : List Task)

theorem scheduler_act_request (c : Command) :
    (act e now w (.request c)).1.scheduler = (w.scheduler.request now c).1 := by
  obtain ⟨⟨s, reply⟩, hs⟩ : ∃ q, w.scheduler.request now c = q := ⟨_, rfl⟩
  simp only [act, World.request, hs]
  cases reply <;> rfl

theorem books_act (a : Act) : Books now w (.act a) ts (step e now w (.act a :: ts)) := by
  have hahead : ∀ t' ∈ ahead (step e now w (.act a :: ts)), t' ∈ ts := by
    intro t' ht'
    rw [step_act] at ht'
    cases ho : (act e now w a).2 with
    | done =>
      rw [ho] at ht'
      exact ht'
    | _ =>
      rw [ho] at ht'
      cases ht'
  have hstores : (∀ k, (act e now w a).1.scheduler.Booked k → w.scheduler.Booked k ∨ (Task.act a).Registers k) ∧
      (act e now w a).1.scheduler.registry.sequence = w.scheduler.registry.sequence := by
    cases a with
    | request c =>
      rw [scheduler_act_request]
      exact Scheduler.request_books w.scheduler now c
    | rebind c => exact ⟨fun k hk => .inl hk, rfl⟩
    | record key d => exact ⟨fun k hk => .inl hk, rfl⟩
  rw [step_act] at hahead ⊢
  refine ⟨fun k hk => .inl ?_, ?_, fun c delay x hx => hahead _ hx⟩
  · rcases hk with hk | ⟨t', ht', hreg⟩
    · rcases hstores.1 k hk with hold | hnew
      · exact .inl hold
      · exact .inr ⟨_, List.mem_cons_self, hnew⟩
    · exact .inr ⟨t', List.mem_cons_of_mem _ (hahead t' ht'), hreg⟩
  · rw [hstores.2]
    exact (UInt64.add_zero _).symm

theorem books_routine (c : Config) (delay : Span) (x : Plan.Entry) :
    Books now w (.routine c delay x) ts (step e now w (.routine c delay x :: ts)) := by
  rw [step_of_forall_ne w (by simp)]
  obtain ⟨hscheduler, hacts⟩ := takeUp_routine_cases e now w c delay x
  refine ⟨fun k hk => ?_, ?_, fun c' delay' x' hx' => ?_⟩
  · rcases hk with hk | ⟨t', ht', hreg⟩
    · exact .inl (.inl (hscheduler ▸ hk))
    · cases has : (takeUp e now w (.routine c delay x)).2 with
      | none =>
        rw [has] at ht'
        cases ht'
      | some as =>
        rw [has] at ht'
        rcases List.mem_append.1 ht' with ht' | ht'
        · obtain ⟨a, ha, rfl⟩ := List.mem_map.1 ht'
          rcases hacts as has with rfl | ⟨n, h, catchUp, rfl⟩
          · cases ha
          · exact .inr (.inl ⟨c, delay, x, rfl, name_of_registrations ha hreg⟩)
        · exact .inl (.inr ⟨t', List.mem_cons_of_mem _ ht', hreg⟩)
  · rw [hscheduler]
    exact (UInt64.add_zero _).symm
  · cases has : (takeUp e now w (.routine c delay x)).2 with
    | none =>
      rw [has] at hx'
      cases hx'
    | some as =>
      rw [has] at hx'
      rcases List.mem_append.1 hx' with hx' | hx'
      · obtain ⟨a, -, ha⟩ := List.mem_map.1 hx'
        cases ha
      · exact hx'

theorem books_adhoc (routine : String) :
    Books now w (.adhoc routine) ts (step e now w (.adhoc routine :: ts)) := by
  rw [step_of_forall_ne w (by simp)]
  cases hd : w.details[Key.full routine]? with
  | none =>
    have hderives : w.derives (.adhoc routine) = false := by
      simp [derives, Std.ExtTreeMap.mem_iff_isSome_getElem?, hd]
    have hget : w.scheduler.registry.get? (.full routine) = none := hd
    simp only [takeUp, Registry.deriveAdhoc, hget]
    refine ⟨fun k hk => .inl ?_, ?_, fun c delay x hx => hx⟩
    · rcases hk with hk | ⟨t', ht', hreg⟩
      · exact .inl hk
      · exact .inr ⟨t', List.mem_cons_of_mem _ ht', hreg⟩
    · rw [hderives]
      exact (UInt64.add_zero _).symm
  | some d =>
    have hderives : w.derives (.adhoc routine) = true := by
      simp [derives, Std.ExtTreeMap.mem_iff_isSome_getElem?, hd]
    have hget : w.scheduler.registry.get? (.full routine) = some d := hd
    simp only [takeUp, Registry.deriveAdhoc, hget]
    refine ⟨fun k hk => ?_, ?_, fun c delay x hx => ?_⟩
    · rcases hk with hk | ⟨t', ht', hreg⟩
      · exact .inl (.inl hk)
      · rcases List.mem_cons.1 ht' with rfl | ht'
        · exact .inr (.inr ⟨hderives, routine, hreg.symm⟩)
        · exact .inl (.inr ⟨t', List.mem_cons_of_mem _ ht', hreg⟩)
    · rw [hderives]
      rfl
    · rcases List.mem_cons.1 hx with hx | hx
      · cases hx
      · exact hx

theorem books_step (t : Task) : Books now w t ts (step e now w (t :: ts)) := by
  cases t with
  | act a => exact books_act e now w ts a
  | routine c delay x => exact books_routine e now w ts c delay x
  | adhoc routine => exact books_adhoc e now w ts routine

end World

end Rota
