import Rota.Proofs.Course
import Rota.Proofs.SingleFlight

/-!
# Clients that record what they registered

A command removes a key from both stores of a dispatcher or from none (`Dispatcher.handle_keeps`), and a turn keeps what
is registered unless a pass finds that a trigger has run out (`Scheduler.turn_keeps`). A client records a key only right
after it registered the key (`Announced`), whatever steps it takes.
-/

namespace Rota

open Dispatcher (Deed)

/-! ## Commands and turns -/

/-- A command that removes what is registered. -/
def Command.Removes : Command → Prop
  | .delete _ => True
  | .clear => True
  | _ => False

namespace Dispatcher

variable {d d' : Dispatcher} {now : Instant} {c : Command} {reply : Except SchedulerError Answer} {k : Key}

/-- A command records nothing. -/
theorem details_handle (h : d.handle now c = some (d', reply)) (hk : k ∈ d'.registry.details) :
    k ∈ d.registry.details := by
  rcases handle_cases h with ⟨rfl, -⟩ | ⟨r, t, -, -, -, rfl, -⟩ | ⟨k', -, -, rfl, -⟩ | ⟨-, rfl, -⟩
  · exact hk
  · exact hk
  · exact Std.ExtTreeMap.mem_of_mem_erase hk
  · exact absurd hk Std.ExtTreeMap.not_mem_empty

/-- A key that a command removes from the jobs is not recorded afterwards. -/
theorem handle_keeps (h : d.handle now c = some (d', reply)) (hk : k ∈ d.jobs) :
    k ∈ d'.jobs ∨ (c.Removes ∧ k ∉ d'.registry.details) := by
  rcases handle_cases h with ⟨rfl, -⟩ | ⟨r, t, -, -, -, rfl, -⟩ | ⟨k', rfl, -, rfl, -⟩ | ⟨rfl, rfl, -⟩
  · exact .inl hk
  · exact .inl (Std.ExtTreeMap.mem_insert.2 (.inr hk))
  · by_cases hkey : k' = k
    · subst hkey
      exact .inr ⟨trivial, fun h => (Std.ExtTreeMap.mem_erase.1 h).1 Std.ReflCmp.compare_self⟩
    · exact .inl (Std.ExtTreeMap.mem_erase.2 ⟨mt Std.LawfulEqCmp.compare_eq_iff_eq.1 hkey, hk⟩)
  · exact .inr ⟨trivial, Std.ExtTreeMap.not_mem_empty⟩

theorem registry_passFor (now : Instant) (n : Nat) (d : Dispatcher) :
    (passFor now n d).dispatcher.registry = d.registry := by
  induction n generalizing d with
  | zero => rfl
  | succ n ih =>
    unfold passFor
    split
    · rfl
    · split
      · rfl
      · dsimp only
        split
        · exact ih _
        · split
          · exact ih _
          · exact ih _
          · rfl

end Dispatcher

namespace Scheduler

variable {s : Scheduler} {now : Instant} {k : Key}

/-- A timer pass takes a job off because its trigger has no fire time after the reading. -/
def RunsOut (s : Scheduler) (now : Instant) (k : Key) : Prop :=
  s.deed? = some .pass ∧ ∃ r, s.dispatcher.jobs[k]? = some r ∧ r.due ≤ now ∧ r.fire now = none

/-- A turn records nothing. -/
theorem details_turn (halive : (s.turn now).1.phase ≠ .broken) (hk : k ∈ (s.turn now).1.registry.details) :
    k ∈ s.registry.details := by
  cases hdeed : s.deed? with
  | none => exact (sameStores_turn hdeed now).registry ▸ hk
  | some x =>
    cases x with
    | command c =>
      rcases turn_of_command hdeed now with ⟨ticket, inbox, d, reply, -, hd, ht⟩ | ⟨-, ht, -⟩
      · rw [ht] at hk
        exact Dispatcher.details_handle hd hk
      · rw [ht] at halive
        exact absurd rfl halive
    | pass =>
      rw [turn_of_pass hdeed] at halive hk
      have hbroken := unbroken_of_takePass halive
      obtain ⟨m, hdispatcher, -⟩ := takePass_of_unbroken hbroken
      have hregistry : (s.takePass now).1.registry = s.registry :=
        (congrArg Dispatcher.registry hdispatcher).trans (Dispatcher.registry_passFor ..)
      exact hregistry ▸ hk

/-- A job that a turn takes off has run out, or a command removed it from both stores. -/
theorem turn_keeps (hs : s.Ordered) (halive : (s.turn now).1.phase ≠ .broken) (hk : k ∈ s.dispatcher.jobs) :
    k ∈ (s.turn now).1.dispatcher.jobs ∨ s.RunsOut now k ∨
      ((∃ x ∈ s.inbox, x.2.Removes) ∧ k ∉ (s.turn now).1.registry.details) := by
  cases hdeed : s.deed? with
  | none => exact .inl ((sameStores_turn hdeed now).jobs ▸ hk)
  | some x =>
    have hphase : s.phase ≠ .broken := by simp [(running_of_deed hdeed).1]
    cases x with
    | command c =>
      rcases turn_of_command hdeed now with ⟨ticket, inbox, d, reply, hinbox, hd, ht⟩ | ⟨-, ht, -⟩
      · rw [ht]
        rcases Dispatcher.handle_keeps hd hk with hmem | ⟨hremoves, hgone⟩
        · exact .inl hmem
        · exact .inr (.inr ⟨⟨(ticket, c), hinbox ▸ List.mem_cons_self, hremoves⟩, hgone⟩)
      · rw [ht] at halive
        exact absurd rfl halive
    | pass =>
      rw [turn_of_pass hdeed] at halive ⊢
      have hbroken := unbroken_of_takePass halive
      obtain ⟨m, hdispatcher, -⟩ := takePass_of_unbroken hbroken
      obtain ⟨r, hr⟩ := Option.isSome_iff_exists.1 (Std.ExtTreeMap.mem_iff_isSome_getElem?.1 hk)
      have hjobs : (s.takePass now).1.dispatcher.jobs[k]? = r.after? now := by
        rw [hdispatcher]
        exact (Dispatcher.jobs_pass (hs.tidy hphase) (hs.parsed hphase) hbroken k).trans (by rw [hr, Option.bind_some])
      by_cases hdue : r.due ≤ now
      · cases hfire : r.fire now with
        | none => exact .inr (.inl ⟨hdeed, r, hr, hdue, hfire⟩)
        | some r' =>
          rw [Registration.after?_of_le hdue, hfire] at hjobs
          exact .inl (Std.ExtTreeMap.mem_iff_isSome_getElem?.2 (by rw [hjobs]; rfl))
      · rw [Registration.after?_of_lt (Int.not_le.1 hdue)] at hjobs
        exact .inl (Std.ExtTreeMap.mem_iff_isSome_getElem?.2 (by rw [hjobs]; rfl))

end Scheduler

/-! ## Clients -/

/-- A step that records a key comes right after the one that registers the key; the key that a step before these
registers is given. -/
def Announced : Option Key → List Task → Prop
  | _, [] => True
  | o, .act (.record k _) :: ts => o = some k ∧ Announced none ts
  | _, .act (.request (.schedule d _)) :: ts => Announced (some d.key) ts
  | _, _ :: ts => Announced none ts

namespace Announced

variable {o : Option Key} {ts : List Task}

/-- Steps that record nothing at first do not ask for a registration before them. -/
theorem of_none (h : Announced none ts) (o : Option Key) : Announced o ts := by
  cases ts with
  | nil => trivial
  | cons t ts =>
    unfold Announced at h ⊢
    split at h <;> simp_all

theorem installTasks (c : Config) (delay : Span) (p : Plan) : Announced none (World.installTasks c delay p) := by
  unfold World.installTasks
  induction p.entries with
  | nil => trivial
  | cons x xs ih => exact ih

theorem of_call? {ev : Event} (h : ev.call? = some ts) : Announced none ts := by
  cases ev with
  | schedule c delay =>
    obtain ⟨p, -, rfl⟩ := Option.map_eq_some_iff.1 h
    exact installTasks c delay p
  | apply c delay =>
    obtain ⟨p, -, rfl⟩ := Option.map_eq_some_iff.1 h
    exact installTasks c delay p
  | adhoc routine =>
    cases h
    trivial
  | _ => cases h

/-- The registrations of a routine record each key right after it is registered. -/
theorem registrations (n : Nat) (h : Handler) (catchUp : Bool) (delay : Span) (x : Plan.Entry)
    (hts : Announced none ts) : Announced none ((World.registrations n h catchUp delay x).map Task.act ++ ts) := by
  unfold World.registrations
  cases x.incremental with
  | none =>
    cases catchUp with
    | true => exact ⟨rfl, hts.of_none _⟩
    | false => exact ⟨rfl, hts⟩
  | some t => cases catchUp <;> exact ⟨rfl, rfl, hts⟩

end Announced

namespace World

variable {β : Type} {e : Engine β} {now : Instant} {w : World β} {out : Key → Prop}

/-- A key is registered, or is one of those that are excused. -/
def Accounts (out : Key → Prop) (w : World β) (k : Key) : Prop := k ∈ w.jobs ∨ out k

/-- A registration that goes through is there. -/
theorem mem_jobs_of_schedule {d d' : Dispatcher} {x : Detail} {t : Trigger} {answer : Answer}
    (h : d.handle now (.schedule x t) = some (d', .ok answer)) : x.key ∈ d'.jobs := by
  change d.schedule now x t = _ at h
  by_cases hk : x.key ∈ d.jobs
  · rw [Dispatcher.schedule_of_mem hk] at h
    cases h
  · obtain ⟨⟨t', a⟩, ht⟩ : ∃ q, t.next now = q := ⟨_, rfl⟩
    cases a with
    | due due =>
      rw [Dispatcher.schedule_of_due hk ht] at h
      cases h
      exact Std.ExtTreeMap.mem_insert_self
    | refused err =>
      rw [Dispatcher.schedule_of_refused hk ht] at h
      cases h
    | overrun =>
      rw [Dispatcher.schedule_of_overrun hk ht] at h
      cases h

/-- A client that takes up a routine goes on with nothing or with its registrations. -/
theorem takeUp_routine_cases (e : Engine β) (now : Instant) (w : World β) (c : Config) (delay : Span)
    (x : Plan.Entry) :
    (takeUp e now w (.routine c delay x)).1.scheduler = w.scheduler ∧
      ∀ as, (takeUp e now w (.routine c delay x)).2 = some as →
        as = [] ∨ ∃ n h catchUp, as = registrations n h catchUp delay x := by
  simp only [takeUp]
  split
  · exact ⟨rfl, fun as h => .inl (Option.some.inj h).symm⟩
  · refine ⟨rfl, fun as h => ?_⟩
    obtain ⟨catchUp, -, rfl⟩ := Option.map_eq_some_iff.1 h
    exact .inr ⟨_, _, catchUp, rfl⟩

/-- After a step of a client all that is recorded is accounted for, and goes on to be in the steps ahead of it. -/
structure Accounted (out : Key → Prop) (q : World β × (Outcome ⊕ List Task)) : Prop where
  recorded : ∀ k ∈ q.1.details, q.1.Accounts out k
  ahead : ∀ ts, q.2 = .inr ts →
    (∃ o, Announced o ts ∧ ∀ k ∈ o, q.1.Accounts out k) ∧ q.1.scheduler.inbox = []

variable {ts : List Task} {o : Option Key}

/-- A step that keeps the jobs and adds no record. -/
theorem accounted_of_same {w' : World β} {next : Outcome ⊕ List Task} (hrecorded : ∀ k ∈ w.details, w.Accounts out k)
    (hjobs : w'.jobs = w.jobs) (hdetails : ∀ k ∈ w'.details, k ∈ w.details)
    (hahead : ∀ ts, next = .inr ts → Announced none ts ∧ w'.scheduler.inbox = []) : Accounted out (w', next) := by
  refine ⟨fun k hk => ?_, fun ts hts => ⟨⟨none, (hahead ts hts).1, by simp⟩, (hahead ts hts).2⟩⟩
  unfold Accounts
  rw [hjobs]
  exact hrecorded k (hdetails k hk)

theorem accounted_request (e : Engine β) (now : Instant) {c : Command} (hinbox : w.scheduler.inbox = [])
    (hrecorded : ∀ k ∈ w.details, w.Accounts out k) (hannounced : Announced o (.act (.request c) :: ts)) :
    Accounted out (step e now w (.act (.request c) :: ts)) := by
  rw [step_act]
  rcases act_request_of_idle hinbox e now c with ⟨d, answer, hd, ha⟩ | ⟨s, err, ha, hjobs, hregistry⟩
  · rw [ha]
    -- A key that is still recorded was not taken off the jobs.
    have hkeeps : ∀ k ∈ d.registry.details, w.Accounts out k → k ∈ d.jobs ∨ out k := by
      intro k hk hacc
      rcases hacc with hmem | hout
      · rcases Dispatcher.handle_keeps hd hmem with h | ⟨-, h⟩
        · exact .inl h
        · exact absurd hk h
      · exact .inr hout
    refine ⟨fun k hk => hkeeps k hk (hrecorded k (Dispatcher.details_handle hd hk)), ?_⟩
    rintro _ ⟨⟩
    refine ⟨?_, hinbox⟩
    cases c with
    | schedule x t =>
      have hx := mem_jobs_of_schedule hd
      refine ⟨some x.key, hannounced, ?_⟩
      rintro _ ⟨⟩
      exact .inl hx
    | _ => exact ⟨none, hannounced, by simp⟩
  · rw [ha]
    refine accounted_of_same hrecorded hjobs (fun k hk => ?_) (by rintro _ ⟨⟩)
    unfold details at hk ⊢
    rwa [← hregistry]

theorem accounted_record (e : Engine β) (now : Instant) {k : Key} {d : Detail} (hinbox : w.scheduler.inbox = [])
    (hrecorded : ∀ k ∈ w.details, w.Accounts out k) (hannounced : Announced o (.act (.record k d) :: ts))
    (ho : ∀ k ∈ o, w.Accounts out k) : Accounted out (step e now w (.act (.record k d) :: ts)) := by
  rw [step_act]
  obtain ⟨rfl, hts⟩ := hannounced
  refine ⟨fun k' hk' => ?_, ?_⟩
  · rcases Std.ExtTreeMap.mem_insert.1 hk' with h | h
    · rw [← Std.LawfulEqCmp.compare_eq_iff_eq.1 h]
      exact ho k rfl
    · exact hrecorded k' h
  · rintro _ ⟨⟩
    exact ⟨⟨none, hts, by simp⟩, hinbox⟩

theorem accounted_routine (e : Engine β) (now : Instant) {c : Config} {delay : Span} {x : Plan.Entry}
    (hinbox : w.scheduler.inbox = []) (hrecorded : ∀ k ∈ w.details, w.Accounts out k)
    (hannounced : Announced none ts) : Accounted out (step e now w (.routine c delay x :: ts)) := by
  rw [step_of_forall_ne w (by simp)]
  obtain ⟨hscheduler, has⟩ := takeUp_routine_cases e now w c delay x
  refine accounted_of_same hrecorded (congrArg (fun s => s.dispatcher.jobs) hscheduler) (fun k hk => ?_)
    fun ts' hts' => ⟨?_, hscheduler ▸ hinbox⟩
  · unfold details at hk ⊢
    rwa [hscheduler] at hk
  · cases hacts : (takeUp e now w (.routine c delay x)).2 with
    | none =>
      rw [hacts] at hts'
      cases hts'
    | some as =>
      rw [hacts] at hts'
      cases hts'
      rcases has as hacts with rfl | ⟨n, h, catchUp, rfl⟩
      · exact hannounced
      · exact Announced.registrations n h catchUp delay x hannounced

theorem accounted_adhoc (e : Engine β) (now : Instant) {routine : String} (hinbox : w.scheduler.inbox = [])
    (hrecorded : ∀ k ∈ w.details, w.Accounts out k) (hannounced : Announced none ts) :
    Accounted out (step e now w (.adhoc routine :: ts)) := by
  rw [step_of_forall_ne w (by simp)]
  obtain ⟨hdetails, -⟩ := deriveAdhoc_spec w.scheduler.registry routine now
  obtain ⟨⟨r, derived⟩, hr⟩ : ∃ q, w.scheduler.registry.deriveAdhoc routine now = q := ⟨_, rfl⟩
  simp only [takeUp, hr] at hdetails ⊢
  refine accounted_of_same hrecorded rfl (fun k hk => ?_) ?_
  · unfold details
    rwa [← hdetails]
  · rintro _ ⟨⟩
    refine ⟨?_, hinbox⟩
    cases derived with
    | none => exact hannounced
    | some d => exact Announced.of_none hannounced _

/-- A step of a client, with nothing else waiting, records only keys that are registered, and keeps the steps ahead
such that this goes on. -/
theorem accounted_step (e : Engine β) (now : Instant) {t : Task} (hinbox : w.scheduler.inbox = [])
    (hrecorded : ∀ k ∈ w.details, w.Accounts out k) (hannounced : Announced o (t :: ts))
    (ho : ∀ k ∈ o, w.Accounts out k) : Accounted out (step e now w (t :: ts)) := by
  cases t with
  | act a =>
    cases a with
    | request c => exact accounted_request e now hinbox hrecorded hannounced
    | record k d => exact accounted_record e now hinbox hrecorded hannounced ho
    | rebind c =>
      rw [step_act]
      refine accounted_of_same hrecorded rfl (fun k hk => hk) ?_
      rintro _ ⟨⟩
      exact ⟨hannounced, hinbox⟩
  | routine c delay x => exact accounted_routine e now hinbox hrecorded hannounced
  | adhoc routine => exact accounted_adhoc e now hinbox hrecorded hannounced

end World

end Rota
