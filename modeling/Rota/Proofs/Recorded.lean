import Mathlib.Data.List.Induction
import Rota.Proofs.Announced

/-!
# What is recorded and what is registered

A routine's recurring backups are recorded as well as registered. As long as the clients come one at a time
(`Site.Sequential`), a key that is recorded is registered, unless a timer pass took its job off because the trigger had
no fire time left: the pass does not look at what is recorded.

- an event of a site keeps every recorded key registered or run out (`Site.Agrees`);
- so every key that is recorded is registered or has run out (`Site.recorded_iff`).
-/

namespace Rota

open Dispatcher (Deed)

/-! ## Sequential histories -/

namespace Site

variable {β : Type} {e : Engine β} {s : Site β} {ev : Event} {now : Instant} {out : Key → Prop}

/-- Clients come one at a time: a call begins, or a removal is asked for, only when no call is under way and no command
waits, and a client goes on only when no command waits. -/
def Admits (s : Site β) : Event → Prop
  | .client .. => s.world.scheduler.inbox = []
  | .delete _ | .clear | .schedule .. | .apply .. | .adhoc _ =>
    s.world.scheduler.inbox = [] ∧ ∀ ts ∈ s.clients, ts = []
  | _ => True

/-- A history in which clients come one at a time. -/
def Sequential (e : Engine β) : Site β → List Event → Prop
  | _, [] => True
  | s, ev :: evs => s.Admits ev ∧ Sequential e (s.happen e ev) evs

instance (s : Site β) : (ev : Event) → Decidable (s.Admits ev)
  | .client .. => inferInstanceAs (Decidable (_ = _))
  | .delete _ => inferInstanceAs (Decidable (_ ∧ _))
  | .clear => inferInstanceAs (Decidable (_ ∧ _))
  | .schedule .. => inferInstanceAs (Decidable (_ ∧ _))
  | .apply .. => inferInstanceAs (Decidable (_ ∧ _))
  | .adhoc _ => inferInstanceAs (Decidable (_ ∧ _))
  | .start => inferInstanceAs (Decidable True)
  | .cancel => inferInstanceAs (Decidable True)
  | .drop => inferInstanceAs (Decidable True)
  | .shutdown => inferInstanceAs (Decidable True)
  | .keys => inferInstanceAs (Decidable True)
  | .info _ => inferInstanceAs (Decidable True)
  | .turn _ => inferInstanceAs (Decidable True)
  | .beginRun _ => inferInstanceAs (Decidable True)
  | .finishRun .. => inferInstanceAs (Decidable True)

instance decidableSequential (e : Engine β) : ∀ (s : Site β) (evs : List Event), Decidable (Sequential e s evs)
  | _, [] => inferInstanceAs (Decidable True)
  | s, ev :: evs =>
    have := decidableSequential e (s.happen e ev) evs
    inferInstanceAs (Decidable (_ ∧ _))

/-- Every key that is recorded is registered or excused, a client that is under way is alone, keeps this so, and nobody
else asks for a removal. -/
structure Agrees (out : Key → Prop) (s : Site β) : Prop where
  recorded : ∀ k ∈ s.world.details, s.world.Accounts out k
  ahead : ∀ {i : Nat} {t : Task} {ts : List Task}, s.clients[i]? = some (t :: ts) →
    (∃ o, Announced o (t :: ts) ∧ ∀ k ∈ o, s.world.Accounts out k) ∧
      ∀ x ∈ s.world.scheduler.inbox, ¬ x.2.Removes
  alone : ∀ {i j : Nat} {t t' : Task} {ts ts' : List Task}, s.clients[i]? = some (t :: ts) →
    s.clients[j]? = some (t' :: ts') → i = j

/-- A turn keeps what is recorded accounted for, if the keys that run out are excused. -/
theorem Agrees.turn (h : s.Agrees out) (hs : s.Ordered) (halive : (s.world.scheduler.turn now).1.phase ≠ .broken) :
    (s.withScheduler fun r => (r.turn now).1).Agrees fun k => out k ∨ s.world.scheduler.RunsOut now k := by
  have hkeeps : ∀ k, s.world.Accounts out k → (∀ x ∈ s.world.scheduler.inbox, ¬ x.2.Removes) ∨
      k ∈ (s.world.scheduler.turn now).1.registry.details →
      (s.withScheduler fun r => (r.turn now).1).world.Accounts
        (fun k => out k ∨ s.world.scheduler.RunsOut now k) k := by
    intro k hk hwhy
    rcases hk with hmem | hout
    · rcases Scheduler.turn_keeps hs.scheduler halive hmem with h | h | ⟨⟨x, hx, hremoves⟩, hgone⟩
      · exact .inl h
      · exact .inr (.inr h)
      · rcases hwhy with hqueries | hrecorded
        · exact absurd hremoves (hqueries x hx)
        · exact absurd hrecorded hgone
    · exact .inr (.inl hout)
  refine ⟨fun k hk => ?_, fun hi => ?_, h.alone⟩
  · exact hkeeps k (h.recorded k (Scheduler.details_turn halive hk)) (.inr hk)
  · obtain ⟨⟨o, ho, hacc⟩, hqueries⟩ := h.ahead hi
    exact ⟨⟨o, ho, fun k hk => hkeeps k (hacc k hk) (.inl hqueries)⟩,
      fun x hx => hqueries x (Scheduler.mem_inbox_turn hx)⟩

theorem Agrees.mono {out' : Key → Prop} (h : s.Agrees out) (hout : ∀ k, k ∉ s.world.jobs → out k → out' k) :
    s.Agrees out' := by
  have hkeeps : ∀ k, s.world.Accounts out k → s.world.Accounts out' k := by
    intro k hk
    by_cases hmem : k ∈ s.world.jobs
    · exact .inl hmem
    · exact .inr (hout k hmem (hk.resolve_left hmem))
  refine ⟨fun k hk => hkeeps k (h.recorded k hk), fun hi => ?_, h.alone⟩
  obtain ⟨⟨o, ho, hacc⟩, hqueries⟩ := h.ahead hi
  exact ⟨⟨o, ho, fun k hk => hkeeps k (hacc k hk)⟩, hqueries⟩

/-- A move that leaves the jobs and what is recorded alone, and brings in no removal while a client is under way. -/
theorem Agrees.of_same {f : Scheduler → Scheduler} (h : s.Agrees out)
    (hjobs : (f s.world.scheduler).dispatcher.jobs = s.world.jobs)
    (hregistry : (f s.world.scheduler).registry = s.world.scheduler.registry)
    (hinbox : (∀ ts ∈ s.clients, ts = []) ∨
      ∀ x ∈ (f s.world.scheduler).inbox, x ∈ s.world.scheduler.inbox ∨ ¬ x.2.Removes) :
    (s.withScheduler f).Agrees out := by
  have hkeeps : ∀ k, s.world.Accounts out k → (s.withScheduler f).world.Accounts out k := by
    intro k hk
    refine hk.imp (fun hmem => ?_) id
    show k ∈ (f s.world.scheduler).dispatcher.jobs
    rwa [hjobs]
  refine ⟨fun k hk => hkeeps k (h.recorded k ?_), fun hi => ?_, h.alone⟩
  · unfold World.details at hk ⊢
    rwa [← hregistry]
  · obtain ⟨⟨o, ho, hacc⟩, hqueries⟩ := h.ahead hi
    refine ⟨⟨o, ho, fun k hk => hkeeps k (hacc k hk)⟩, fun x hx => ?_⟩
    rcases hinbox with hidle | hinbox
    · cases hidle _ (List.mem_of_getElem? hi)
    · exact (hinbox x hx).elim (hqueries x) id

theorem inbox_submit (r : Scheduler) (c : Command) {x : Nat × Command} (hx : x ∈ (r.move (.submit c)).inbox) :
    x ∈ r.inbox ∨ x.2 = c := by
  rcases Scheduler.move_submit_cases r c with ⟨-, h⟩ | ⟨-, h⟩ <;> rw [h] at hx
  · exact .inl hx
  · rcases List.mem_append.1 hx with hx | hx
    · exact .inl hx
    · cases List.mem_singleton.1 hx
      exact .inr rfl

theorem stores_submit (r : Scheduler) (c : Command) :
    (r.move (.submit c)).dispatcher = r.dispatcher := by
  rcases Scheduler.move_submit_cases r c with ⟨-, h⟩ | ⟨-, h⟩ <;> rw [h]

/-- An event that is a move keeps what is recorded accounted for. -/
theorem Agrees.move (h : s.Agrees out) (hs : s.Ordered) (hadmits : s.Admits ev) {m : Scheduler.Move}
    (hm : ev.move? = some m) (halive : (s.happen e ev).world.scheduler.phase ≠ .broken) :
    (s.happen e ev).Agrees fun k => out k ∨ ∃ now, ev = .turn now ∧ s.world.scheduler.RunsOut now k := by
  rw [happen_of_move? hm] at halive ⊢
  by_cases hturn : ∃ now, ev = .turn now
  · obtain ⟨now, rfl⟩ := hturn
    cases hm
    exact (h.turn hs halive).mono fun k _ hk => hk.imp id fun hr => ⟨now, rfl, hr⟩
  · refine Agrees.mono ?_ fun k _ hk => Or.inl hk
    by_cases hsubmit : ∃ c, m = .submit c
    · obtain ⟨c, rfl⟩ := hsubmit
      have hstores := stores_submit s.world.scheduler c
      refine h.of_same (congrArg Dispatcher.jobs hstores) (congrArg Dispatcher.registry hstores) ?_
      cases ev with
      | delete key => exact .inl hadmits.2
      | clear => exact .inl hadmits.2
      | keys =>
        cases hm
        exact .inr fun x hx => (inbox_submit _ _ hx).imp id fun hc => by rw [hc]; exact id
      | info key =>
        cases hm
        exact .inr fun x hx => (inbox_submit _ _ hx).imp id fun hc => by rw [hc]; exact id
      | _ => cases hm
    · have hsame : Scheduler.SameStores s.world.scheduler (s.world.scheduler.move m) := by
        cases ev <;> cases hm
        case turn now => exact absurd ⟨now, rfl⟩ hturn
        case delete => exact absurd ⟨_, rfl⟩ hsubmit
        case clear => exact absurd ⟨_, rfl⟩ hsubmit
        case keys => exact absurd ⟨_, rfl⟩ hsubmit
        case info => exact absurd ⟨_, rfl⟩ hsubmit
        all_goals exact Scheduler.sameStores_move (by simp) (by simp) (by simp)
      refine h.of_same hsame.jobs hsame.registry (.inr fun x hx => .inl ?_)
      rcases hsame.inbox with hi | hi
      · exact hi ▸ hx
      · rw [hi] at hx
        cases hx

/-- A new call keeps what is recorded accounted for. -/
theorem Agrees.call (h : s.Agrees out) (hadmits : s.world.scheduler.inbox = [] ∧ ∀ ts ∈ s.clients, ts = [])
    {ts : List Task} (hts : Announced none ts) : (s.call ts).Agrees out := by
  have hlast : ∀ {i : Nat} {t : Task} {ts' : List Task}, (s.call ts).clients[i]? = some (t :: ts') →
      i = s.clients.length ∧ ts = t :: ts' := by
    intro i t ts' hi
    change (s.clients ++ [ts])[i]? = _ at hi
    rw [List.getElem?_append] at hi
    split at hi
    · cases hadmits.2 _ (List.mem_of_getElem? hi)
    · rw [List.getElem?_singleton] at hi
      split at hi
      · cases hi
        exact ⟨by omega, rfl⟩
      · cases hi
  refine ⟨h.recorded, fun hi => ?_, fun hi hj => (hlast hi).1.trans (hlast hj).1.symm⟩
  obtain ⟨-, rfl⟩ := hlast hi
  refine ⟨⟨none, hts, by simp⟩, fun x hx => ?_⟩
  rw [show (s.call _).world.scheduler.inbox = [] from hadmits.1] at hx
  cases hx

/-- A step of a client keeps what is recorded accounted for. -/
theorem Agrees.client (h : s.Agrees out) (hadmits : s.world.scheduler.inbox = []) (i : Nat) (now : Instant) :
    (s.happen e (.client i now)).Agrees out := by
  cases hi : s.clients[i]? with
  | none => rw [happen_client_idle (.inl hi)]; exact h
  | some ts =>
    cases ts with
    | nil => rw [happen_client_idle (.inr hi)]; exact h
    | cons t ts =>
      rw [happen_client hi]
      obtain ⟨⟨o, ho, hacc⟩, -⟩ := h.ahead hi
      obtain ⟨hrecorded, hnext⟩ := World.accounted_step e now hadmits h.recorded ho hacc
      -- Only the client that took the step can be under way afterwards.
      have hother : ∀ {j : Nat} {t' : Task} {ts' : List Task},
          (s.clients.set i ((World.step e now s.world (t :: ts)).2.elim (fun _ => []) id))[j]? = some (t' :: ts') →
            j = i ∧ (World.step e now s.world (t :: ts)).2 = .inr (t' :: ts') := by
        intro j t' ts' hj
        rw [List.getElem?_set] at hj
        split at hj
        · rename_i hij
          split at hj
          · refine ⟨hij.symm, ?_⟩
            cases hstep : (World.step e now s.world (t :: ts)).2 with
            | inl outcome =>
              rw [hstep] at hj
              cases hj
            | inr next =>
              rw [hstep] at hj
              cases hj
              rfl
          · cases hj
        · rename_i hij
          exact absurd (h.alone hi hj) hij
      refine ⟨hrecorded, fun hj => ?_, fun hj hj' => (hother hj).1.trans (hother hj').1.symm⟩
      obtain ⟨hahead, hinbox⟩ := hnext _ (hother hj).2
      exact ⟨hahead, fun x hx => by rw [hinbox] at hx; cases hx⟩

/-- An event of a history in which clients come one at a time keeps what is recorded accounted for. -/
theorem agrees_happen (h : s.Agrees out) (hs : s.Ordered) (hadmits : s.Admits ev)
    (halive : (s.happen e ev).world.scheduler.phase ≠ .broken) :
    (s.happen e ev).Agrees fun k => out k ∨ ∃ now, ev = .turn now ∧ s.world.scheduler.RunsOut now k := by
  cases hmove : ev.move? with
  | some m => exact h.move hs hadmits hmove halive
  | none =>
    refine Agrees.mono ?_ fun k _ hk => Or.inl hk
    by_cases hclient : ∃ i now, ev = .client i now
    · obtain ⟨i, now, rfl⟩ := hclient
      exact h.client hadmits i now
    · have hidle : s.world.scheduler.inbox = [] ∧ ∀ ts ∈ s.clients, ts = [] := by
        cases ev with
        | schedule c delay => exact hadmits
        | apply c delay => exact hadmits
        | adhoc routine => exact hadmits
        | client i now => exact absurd ⟨i, now, rfl⟩ hclient
        | _ => cases hmove
      rcases happen_of_call (e := e) (s := s) hmove (fun i now h => hclient ⟨i, now, h⟩) with ⟨ts, hts, hcall⟩ | hcall
      · rw [hcall]
        exact h.call hidle (Announced.of_call? hts)
      · rw [hcall]
        exact h

/-! ## Histories -/

/-- A timer pass took the job of a key off because its trigger had no fire time left, and the key was not registered
since. -/
def RanOut (e : Engine β) (s : Site β) (evs : List Event) (k : Key) : Prop :=
  ∃ before now after, evs = before ++ .turn now :: after ∧ (s.run e before).world.scheduler.RunsOut now k ∧
    ∀ l, l <+: after → k ∉ (s.run e (before ++ .turn now :: l)).world.jobs

variable {evs : List Event} {k : Key}

theorem run_append (s : Site β) (evs evs' : List Event) : s.run e (evs ++ evs') = (s.run e evs).run e evs' :=
  List.foldl_append

/-- A key that has run out is not registered. -/
theorem RanOut.not_mem (h : RanOut e s evs k) : k ∉ (s.run e evs).world.jobs := by
  obtain ⟨before, now, after, rfl, -, hgone⟩ := h
  exact hgone after List.prefix_rfl

/-- A key that has run out stays so until it is registered. -/
theorem RanOut.concat (h : RanOut e s evs k) (hk : k ∉ (s.run e (evs ++ [ev])).world.jobs) :
    RanOut e s (evs ++ [ev]) k := by
  obtain ⟨before, now, after, rfl, hruns, hgone⟩ := h
  refine ⟨before, now, after ++ [ev], by simp, hruns, fun l hl => ?_⟩
  rcases List.prefix_concat_iff.1 hl with rfl | hl
  · rwa [List.append_assoc] at hk
  · exact hgone l hl

/-- A key runs out in a timer pass. -/
theorem ranOut_of_runsOut (h : (s.run e evs).world.scheduler.RunsOut now k)
    (hk : k ∉ (s.run e (evs ++ [.turn now])).world.jobs) : RanOut e s (evs ++ [.turn now]) k := by
  refine ⟨evs, now, [], rfl, h, fun l hl => ?_⟩
  rw [List.prefix_nil.1 hl]
  exact hk

theorem sequential_concat : Sequential e s (evs ++ [ev]) ↔ Sequential e s evs ∧ (s.run e evs).Admits ev := by
  induction evs generalizing s with
  | nil => simp [Sequential, run]
  | cons ev' evs ih =>
    rw [List.cons_append, Sequential, Sequential, ih, and_assoc]
    rfl

/-- Over a history in which clients come one at a time, what is recorded is registered or has run out. -/
theorem agrees_run (h : s.Agrees fun _ => False) (hs : s.Ordered) (hsequential : Sequential e s evs)
    (halive : (s.run e evs).world.scheduler.phase ≠ .broken) : (s.run e evs).Agrees (RanOut e s evs) := by
  induction evs using List.reverseRecOn with
  | nil => exact h.mono fun k _ => False.elim
  | append_singleton evs ev ih =>
    obtain ⟨hbefore, hadmits⟩ := sequential_concat.1 hsequential
    have hrun : s.run e (evs ++ [ev]) = (s.run e evs).happen e ev := run_append s evs [ev]
    rw [hrun] at halive ⊢
    have hagrees := ih hbefore fun hbroken => halive (happen_of_broken hbroken ev)
    refine (agrees_happen hagrees (ordered_run hs evs) hadmits halive).mono fun k hk hwhy => ?_
    rcases hwhy with hout | ⟨now, rfl, hruns⟩
    · exact hout.concat (hrun ▸ hk)
    · exact ranOut_of_runsOut hruns (hrun ▸ hk)

/-- A site that has a new scheduler and no clients. -/
theorem ordered_fresh (w : World β) : (fresh w).Ordered := ⟨Scheduler.ordered_default, by simp [fresh]⟩

theorem agrees_fresh (w : World β) : (fresh w).Agrees fun _ => False :=
  ⟨fun _ hk => absurd hk Std.ExtTreeMap.not_mem_empty, by simp [fresh], by simp [fresh]⟩

/-- Whatever happens to a new scheduler whose clients come one at a time, a key that is recorded is registered or its
trigger has run out; so all recorded keys are registered exactly if none has run out, and a backup out of turn can be
derived exactly from a full backup that is recorded. -/
theorem recorded_iff (e : Engine β) (w : World β) (evs : List Event) (hsequential : Sequential e (fresh w) evs)
    (halive : ((fresh w).run e evs).world.scheduler.phase ≠ .broken) :
    (∀ k ∈ ((fresh w).run e evs).world.details,
      k ∈ ((fresh w).run e evs).world.jobs ∨ RanOut e (fresh w) evs k) ∧
    ((∀ k ∈ ((fresh w).run e evs).world.details, k ∈ ((fresh w).run e evs).world.jobs) ↔
      ∀ k ∈ ((fresh w).run e evs).world.details, ¬ RanOut e (fresh w) evs k) ∧
    ∀ (routine : String) (now : Instant),
      (((fresh w).run e evs).world.scheduler.registry.deriveAdhoc routine now).2.isSome ↔
        Key.full routine ∈ ((fresh w).run e evs).world.details := by
  have hagrees := agrees_run (agrees_fresh w) (ordered_fresh w) hsequential halive
  refine ⟨hagrees.recorded, ⟨fun hall k hk hran => hran.not_mem (hall k hk), fun hnone k hk => ?_⟩,
    fun routine now => ?_⟩
  · exact (hagrees.recorded k hk).resolve_right (hnone k hk)
  · unfold Registry.deriveAdhoc Registry.get? World.details
    rw [Std.ExtTreeMap.mem_iff_isSome_getElem?]
    split <;> simp_all

/-! ### A routine that fires once -/

/-- After an hourly routine is scheduled, and its first backup begins, all that is recorded is registered. -/
theorem recorded_hourly :
    Sequential (World.plainEngine none) (fresh {}) firstBackup ∧
    Key.full "hourly" ∈ ((fresh {}).run (World.plainEngine none) firstBackup).world.details ∧
    ∀ k ∈ ((fresh {}).run (World.plainEngine none) firstBackup).world.details,
      ¬ RanOut (World.plainEngine none) (fresh {}) firstBackup k := by
  have hsequential : Sequential (World.plainEngine none) (fresh {}) firstBackup := by decide +kernel
  have hall : ∀ k ∈ ((fresh {}).run (World.plainEngine none) firstBackup).world.details,
      k ∈ ((fresh {}).run (World.plainEngine none) firstBackup).world.jobs := by
    have hkeys : ∀ k ∈ ((fresh {}).run (World.plainEngine none) firstBackup).world.details.keys,
        k ∈ ((fresh {}).run (World.plainEngine none) firstBackup).world.jobs := by decide +kernel
    exact fun k hk => hkeys k (Std.ExtTreeMap.mem_keys.2 hk)
  exact ⟨hsequential, by decide +kernel, (recorded_iff _ {} _ hsequential (by decide +kernel)).2.1.1 hall⟩

/-- A routine with a single occurrence, an hour after noon. -/
def single : Config := Config.empty.withRoutine "single" { fullCron := "0 0 13 1 5 * 2024" }

/-- The routine is scheduled, and an hour later a timer pass fires its only backup. -/
def singleBackup : List Event :=
  [.start, .schedule single .zero] ++ List.replicate 4 (.client 0 World.noon) ++ [.turn (.ofSecond 1714568400)]

/-- The full backup of the routine is recorded and not registered, and a backup out of turn can be derived from it. -/
theorem single_recorded :
    Sequential (World.plainEngine (some World.noon)) (fresh {}) singleBackup ∧
    ((fresh {}).run (World.plainEngine (some World.noon)) singleBackup).world.scheduler.phase = .running ∧
    Key.full "single" ∈ ((fresh {}).run (World.plainEngine (some World.noon)) singleBackup).world.details ∧
    Key.full "single" ∉ ((fresh {}).run (World.plainEngine (some World.noon)) singleBackup).world.jobs ∧
    (((fresh {}).run (World.plainEngine (some World.noon)) singleBackup).world.scheduler.registry.deriveAdhoc "single"
      (.ofSecond 1714568400)).2.isSome := by
  decide +kernel

end Site

end Rota
