import Rota.Proofs.InForce
import Rota.Proofs.LastClear

/-!
# Calls with other numbers of handlers

A call that runs alone takes its steps at the same readings of the clock as among others, and makes handlers with other
numbers. Apart from the numbers two worlds that a call sees alike stay alike over its steps.
-/

namespace Rota

/-! ## Handlers under other numbers -/

/-- An act with the numbers of handlers moved up. -/
def Act.shift (d : Nat) : Act → Act
  | .request (.schedule x t) => .request (.schedule (x.shift d) t)
  | .record k x => .record k (x.shift d)
  | a => a

/-- A step with the numbers of handlers moved up. -/
def Task.shift (d : Nat) : Task → Task
  | .act a => .act (a.shift d)
  | t => t

theorem registrations_shift (n d : Nat) (h : Handler) (needed : Bool) (delay : Span) (x : Plan.Entry) :
    (World.registrations n h needed delay x).map (Act.shift d) = World.registrations (n + d) h needed delay x := by
  unfold World.registrations
  cases needed <;> cases x.incremental <;> rfl

theorem Act.adds_shift_iff {d : Nat} {a : Act} : World.Adds (a.shift d) ↔ World.Adds a := by
  unfold Act.shift
  split <;> rfl

theorem Task.installs_shift_iff {d : Nat} {t : Task} : (t.shift d).Installs ↔ t.Installs := by
  cases t with
  | act a => exact Act.adds_shift_iff
  | _ => rfl

theorem Act.eq_schedule_of_shift {d : Nat} {a : Act} {x : Detail} {t : Trigger}
    (h : a.shift d = .request (.schedule x t)) : ∃ y, a = .request (.schedule y t) ∧ y.shift d = x := by
  unfold shift at h
  split at h
  · cases h
    exact ⟨_, rfl, rfl⟩
  · cases h
  · rename_i hne _
    exact absurd h (hne x t)

theorem Act.eq_record_of_shift {d : Nat} {a : Act} {k : Key} {x : Detail} (h : a.shift d = .record k x) :
    ∃ y, a = .record k y ∧ y.shift d = x := by
  unfold shift at h
  split at h
  · cases h
  · cases h
    exact ⟨_, rfl, rfl⟩
  · rename_i hne
    exact absurd h (hne k x)

theorem Task.eq_act_of_shift {d : Nat} {t : Task} {a : Act} (h : t.shift d = .act a) :
    ∃ b, t = .act b ∧ b.shift d = a := by
  cases t with
  | act b =>
    cases h
    exact ⟨b, rfl, rfl⟩
  | _ => cases h

theorem Task.eq_routine_of_shift {d : Nat} {t : Task} {c : Config} {delay : Span} {x : Plan.Entry}
    (h : t.shift d = .routine c delay x) : t = .routine c delay x := by
  cases t with
  | act b => cases h
  | _ => exact h

theorem Reconfiguration.installs_shift (r : Reconfiguration) (d : Nat) :
    r.installs.map (Task.shift d) = r.installs := by
  rw [installs, World.installTasks, List.map_map]
  rfl

/-- Another call at most binds backends, and none does so after the call itself. -/
def Undisturbed (i : Nat) (xs : List Contribution) : Prop :=
  ∃ others x mine, xs = others ++ x :: mine ∧ (∀ y ∈ others, y.binding?.isSome) ∧
    (x.call = i ∧ x.binding?.isSome) ∧ ∀ y ∈ mine, y.call = i

/-- The call for a configuration, if its expressions can be read. -/
def Reconfiguration.read? (delay : Span) (c : Config) : Option Reconfiguration :=
  match h : Plan.build c with
  | .ok p => some ⟨c, delay, p, h⟩
  | .error _ => none

namespace World

variable {β : Type} {e : Engine β} {now : Instant} {m n : Nat} {v v' w w' : World β}

/-- A key is registered in the one of two worlds exactly if it is registered in the other. -/
theorem Alike.mem_jobs_iff (h : Alike m n v w) (k : Key) : k ∈ v.jobs ↔ k ∈ w.jobs := by
  rw [Std.ExtTreeMap.mem_iff_isSome_getElem?, Std.ExtTreeMap.mem_iff_isSome_getElem?]
  have hk := congrArg Option.isSome (h.jobs k)
  rwa [Option.isSome_map, Option.isSome_map, Bool.eq_iff_iff] at hk

theorem Alike.enter (h : Alike m n v w) {d d' : Detail} (hd : d.shift m = d'.shift n) (t : Trigger) (due : Instant) :
    Alike m n (v.enter ⟨d, t, due⟩) (w.enter ⟨d', t, due⟩) := by
  have hkey : (d.shift m).key = (d'.shift n).key := congrArg Detail.key hd
  change d.key = d'.key at hkey
  refine ⟨fun k => ?_, ?_, h.details, h.bindings⟩
  · rw [jobs_enter, jobs_enter, Std.ExtTreeMap.getElem?_insert, Std.ExtTreeMap.getElem?_insert]
    dsimp only
    rw [hkey]
    split
    · exact congrArg some (congrArg (fun d => (⟨d, t, due⟩ : Registration)) hd)
    · exact h.jobs k
  · rw [queue_enter, queue_enter, h.queue]
    dsimp only
    rw [hkey]

theorem Alike.put (h : Alike m n v w) {d d' : Detail} (hd : d.shift m = d'.shift n) (k : Key) :
    Alike m n (v.withRegistry (·.put k d)) (w.withRegistry (·.put k d')) := by
  refine ⟨h.jobs, h.queue, fun k' => ?_, h.bindings⟩
  change (v.details.insert k d)[k']?.map _ = (w.details.insert k d')[k']?.map _
  rw [Std.ExtTreeMap.getElem?_insert, Std.ExtTreeMap.getElem?_insert]
  split
  · exact congrArg some hd
  · exact h.details k'

/-- A step that installs goes through in a world that is alike, with a handler of its own. -/
theorem Alike.advance (h : Alike m n v w) (hhandlers : v.handlers + m = w.handlers + n) {t t' : Task}
    {ts ts' us' : List Task} (hinstalls : t'.Installs) (ht : t.shift m = t'.shift n)
    (hts : ts.map (Task.shift m) = ts'.map (Task.shift n)) (ha : Advance e now w ts' t' w' us') :
    ∃ v' us, Advance e now v ts t v' us ∧ Alike m n v' w' ∧ v'.handlers + m = w'.handlers + n ∧
      us.map (Task.shift m) = us'.map (Task.shift n) := by
  cases ha with
  | clear => exact hinstalls.elim
  | rebind c => exact hinstalls.elim
  | schedule hfree hdue =>
    obtain ⟨a, rfl, ha⟩ := Task.eq_act_of_shift ht
    obtain ⟨d, rfl, hd⟩ := Act.eq_schedule_of_shift ha
    have hkey : (d.shift m).key = _ := congrArg Detail.key hd
    have hfree' : d.key ∉ v.jobs := fun hmem => hfree (hkey ▸ (h.mem_jobs_iff d.key).1 hmem)
    exact ⟨_, _, .schedule hfree' hdue, h.enter hd _ _, hhandlers, hts⟩
  | record k d' =>
    obtain ⟨a, rfl, ha⟩ := Task.eq_act_of_shift ht
    obtain ⟨d, rfl, hd⟩ := Act.eq_record_of_shift ha
    exact ⟨_, _, .record k d, h.put hd k, hhandlers, hts⟩
  | refused hh =>
    cases Task.eq_routine_of_shift ht
    rw [← h.bindings] at hh
    exact ⟨_, _, .refused hh, ⟨h.jobs, h.queue, h.details, h.bindings⟩, hhandlers, hts⟩
  | @made c delay x handler needed hh hneeded =>
    cases Task.eq_routine_of_shift ht
    rw [← h.bindings] at hh
    refine ⟨_, _, .made hh hneeded, ⟨h.jobs, h.queue, h.details, h.bindings⟩, ?_, ?_⟩
    · change v.handlers + 1 + m = w.handlers + 1 + n
      omega
    · have hregistrations : ∀ (k d : Nat), ((registrations k handler needed delay x).map Task.act).map (Task.shift d) =
          (registrations (k + d) handler needed delay x).map Task.act := by
        intro k d
        rw [← registrations_shift, List.map_map, List.map_map]
        rfl
      rw [List.map_append, List.map_append, hregistrations, hregistrations, hhandlers, hts]

end World

/-! ## Turns -/

/-- The readings at which a client takes its steps, as the only client. -/
def ownTurns (i : Nat) (us : List (Nat × Instant)) : List (Nat × Instant) := (us.filter (·.1 = i)).map fun u => (0, u.2)

@[simp] theorem ownTurns_cons_self (i : Nat) (now : Instant) (us : List (Nat × Instant)) :
    ownTurns i ((i, now) :: us) = (0, now) :: ownTurns i us := by
  simp [ownTurns]

theorem ownTurns_cons_of_ne {i : Nat} {u : Nat × Instant} (h : u.1 ≠ i) (us : List (Nat × Instant)) :
    ownTurns i (u :: us) = ownTurns i us := by
  simp [ownTurns, h]

theorem ownTurns_append_of_no_turn {i : Nat} {us : List (Nat × Instant)} (h : ∀ u ∈ us, u.1 ≠ i)
    (us' : List (Nat × Instant)) : ownTurns i (us ++ us') = ownTurns i us' := by
  induction us with
  | nil => rfl
  | cons u us ih =>
    rw [List.cons_append, ownTurns_cons_of_ne (h u List.mem_cons_self), ih fun v hv => h v (List.mem_cons_of_mem _ hv)]

namespace World

variable {β : Type} {e : Engine β} {now : Instant} {u v w w' : World β}

/-- Two worlds with the same stores and as many handlers. -/
structure Untouched (w w' : World β) : Prop where
  jobs : w'.jobs = w.jobs
  queue : w'.queue = w.queue
  details : w'.details = w.details
  handlers : w'.handlers = w.handlers

theorem Untouched.refl (w : World β) : Untouched w w := ⟨rfl, rfl, rfl, rfl⟩

theorem Untouched.trans (h : Untouched u v) (h' : Untouched v w) : Untouched u w :=
  ⟨h'.jobs.trans h.jobs, h'.queue.trans h.queue, h'.details.trans h.details, h'.handlers.trans h.handlers⟩

/-- A world without registrations and records is like any other one. -/
theorem alike_of_blank {m n : Nat} (hv : v.Blank) (hw : w.Blank) (hbindings : v.bindings = w.bindings) :
    Alike m n v w := by
  refine ⟨fun k => ?_, hv.queue.trans hw.queue.symm, fun k => ?_, hbindings⟩
  · rw [hv.jobs, hw.jobs]
    rfl
  · rw [hv.details, hw.details]
    rfl

/-- Acts come before the rest of the steps. -/
theorem perform_map_act_append (as : List Act) (ts : List Task) (w : World β) :
    perform e now (as.map Task.act ++ ts) w =
      match acts e now as w with
      | (w', .done) => perform e now ts w'
      | (w', o) => (w', o) := by
  induction as generalizing w with
  | nil => rfl
  | cons a as ih =>
    rw [List.map_cons, List.cons_append, perform, acts]
    simp only [takeUp, acts]
    obtain ⟨w', o⟩ := act e now w a
    cases o with
    | done => exact ih w'
    | _ => rfl

/-- A client performs its first step and then the steps that are ahead of it afterwards. -/
theorem perform_of_step {t : Task} {ts ts' : List Task} (h : step e now w (t :: ts) = (w', .inr ts')) :
    perform e now (t :: ts) w = perform e now ts' w' := by
  by_cases hact : ∃ a, t = .act a
  · obtain ⟨a, rfl⟩ := hact
    obtain ⟨⟨v, o⟩, hv⟩ : ∃ q, act e now w a = q := ⟨_, rfl⟩
    rw [step_act, hv] at h
    simp only [perform, takeUp, acts, hv]
    cases o with
    | done =>
      cases h
      rfl
    | _ => cases h
  · obtain ⟨⟨v, o⟩, hv⟩ : ∃ q, takeUp e now w t = q := ⟨_, rfl⟩
    rw [step_of_forall_ne w fun a ha => hact ⟨a, ha⟩, hv] at h
    rw [perform, hv]
    cases o with
    | none => cases h
    | some as =>
      cases h
      exact (perform_map_act_append as ts _).symm

end World

end Rota
