import Rota.Proofs.CatchUp
import Rota.Proofs.InForce

/-!
# What is in the way of an installation

A plan is built from expressions alone, and its triggers are asked for fire times only when it is installed. On a ready
loop, with the keys of the plan free, an installation ends with the first obstacle that it meets (`World.install_law`):

- a registration under a free key ends as the answer of its trigger has it (`act_schedule_outcome`), and those of a
  routine end with the first that is refused (`acts_registrations_outcome`);
- by induction over the plan the installation ends with the first obstacle of a routine (`perform_routines_outcome`);
- a trigger without a fire time and a delay that leads out of the calendar are such obstacles, a key that is taken is
  not (`Plan.Entry.Refusal`).
-/

namespace Rota

variable {β : Type} {e : Engine β} {now : Instant} {delay : Span} {c : Config}

/-! ## Outcomes in a row -/

namespace Outcome

/-- The outcome of two steps, the second of which is taken if the first is done. -/
def andThen : Outcome → Outcome → Outcome
  | .done, o => o
  | o, _ => o

variable {o : Outcome}

@[simp] theorem done_andThen (o : Outcome) : done.andThen o = o := rfl

theorem andThen_of_ne_done (ho : o ≠ .done) (a : Outcome) : o.andThen a = o := by
  cases o with
  | done => exact absurd rfl ho
  | refused err => rfl
  | broken => rfl

theorem andThen_done (o : Outcome) : o.andThen .done = o := by cases o <;> rfl

/-- Steps in a row end as one of them does. -/
theorem andThen_eq_or (o a : Outcome) : o.andThen a = o ∨ o.andThen a = a := by
  cases o with
  | done => exact .inr rfl
  | refused err => exact .inl rfl
  | broken => exact .inl rfl

end Outcome

/-- How a registration under a free key ends, by the answer of its trigger. -/
def NextFire.outcome (key : Key) : NextFire → Outcome
  | .due _ => .done
  | .refused err => .refused (.scheduler (.invalidTrigger key err))
  | .overrun => .refused (.scheduler .unanswered)

/-- A refusal with which a registration of a routine can meet at a clock reading. -/
inductive Plan.Entry.Refusal (x : Plan.Entry) (now : Instant) (delay : Span) : SchedulerError → Prop
  | full (hnone : x.full.schedule.after? now = none) :
    Refusal x now delay (.invalidTrigger (.full x.name) (.noNextFireTime x.full.expression))
  | catchUp (hnone : RunOnce.target? delay now = none) :
    Refusal x now delay (.invalidTrigger (.catchUp x.name) (.invalidDelay delay))
  | incremental {t : Recurring} (ht : x.incremental = some t) (hnone : t.schedule.after? now = none) :
    Refusal x now delay (.invalidTrigger (.incremental x.name) (.noNextFireTime t.expression))
  /-- In the last second of the calendar the loop breaks down over the trigger. -/
  | unanswered (hlast : Instant.lastSecond ≤ now.second) : Refusal x now delay .unanswered

/-- How the installation of a routine ends: the full backup is registered first, then the catch-up run if one is needed,
and then the incremental backup if there is one. -/
def Plan.Entry.outcome (x : Plan.Entry) (h : Handler) (now : Instant) (delay : Span) : Outcome :=
  match needsFullBackup? h.lastFull x.full now with
  | none => .broken
  | some needed =>
    let full := (x.full.next now).outcome (.full x.name)
    let catchUp := if needed then ((Trigger.after delay).next now).2.outcome (.catchUp x.name) else .done
    let incremental := match x.incremental with
      | none => .done
      | some t => (t.next now).outcome (.incremental x.name)
    (full.andThen catchUp).andThen incremental

/-- How the installation of routines ends; one whose handler is refused is left out. -/
def Plan.outcome (e : Engine β) (now : Instant) (delay : Span) (c : Config) (b : Std.ExtTreeMap String β) :
    List Plan.Entry → Outcome
  | [] => .done
  | x :: xs =>
    match e.handler c x.name b[x.name]? with
    | .error _ => Plan.outcome e now delay c b xs
    | .ok h => (x.outcome h now delay).andThen (Plan.outcome e now delay c b xs)

namespace World

variable {p : Plan} {w w' : World β}

/-! ## One routine -/

/-- A registration under a free key ends as the answer of its trigger has it. -/
theorem act_schedule_outcome (hw : w.Ready) {d : Detail} (hk : d.key ∉ w.jobs) (t : Trigger) :
    (act e now w (.request (.schedule d t))).2 = (t.next now).2.outcome d.key := by
  obtain ⟨⟨t', answer⟩, ht⟩ : ∃ q, t.next now = q := ⟨_, rfl⟩
  rw [ht]
  cases answer with
  | due due =>
    have hr := Scheduler.request_of_handle (c := .schedule d t) hw (Dispatcher.schedule_of_due hk ht)
    rw [act_request_ok hr]
    rfl
  | refused err =>
    have hr := Scheduler.request_of_handle (c := .schedule d t) hw (Dispatcher.schedule_of_refused hk ht)
    rw [act_request_error hr]
    rfl
  | overrun =>
    have hr := Scheduler.request_of_handle_none (c := .schedule d t) hw (Dispatcher.schedule_of_overrun hk ht)
    rw [act_request_error hr]
    rfl

theorem acts_cons_outcome (a : Act) (as : List Act) :
    (acts e now (a :: as) w).2 = (act e now w a).2.andThen (acts e now as (act e now w a).1).2 := by
  rw [acts]
  obtain ⟨v, o⟩ := act e now w a
  cases o <;> rfl

theorem acts_append_of_ne_done {as bs : List Act} {o : Outcome} (h : acts e now as w = (w', o)) (ho : o ≠ .done) :
    acts e now (as ++ bs) w = (w', o) := by
  induction as generalizing w with
  | nil =>
    cases h
    exact absurd rfl ho
  | cons a as ih =>
    obtain ⟨⟨v, o'⟩, hv⟩ : ∃ q, act e now w a = q := ⟨_, rfl⟩
    rw [acts, hv] at h
    rw [List.cons_append, acts, hv]
    cases o' with
    | done => exact ih h
    | refused err => exact h
    | broken => exact h

/-- Acts in a row end as the first ones do, unless these are done and leave a world in which the others go on. -/
theorem acts_append_outcome {as bs : List Act} (has : ∀ v, acts e now as w = (v, .done) → v = w') :
    (acts e now (as ++ bs) w).2 = (acts e now as w).2.andThen (acts e now bs w').2 := by
  obtain ⟨⟨v, o⟩, hv⟩ : ∃ q, acts e now as w = q := ⟨_, rfl⟩
  by_cases ho : o = .done
  · subst ho
    obtain rfl := has v hv
    rw [acts_append_of_done hv, hv, Outcome.done_andThen]
  · rw [acts_append_of_ne_done hv ho, hv, Outcome.andThen_of_ne_done ho]

section Routine

variable {x : Installed}

/-- A recurring backup under a free key ends as the answer of its trigger has it. -/
theorem acts_recurring_outcome (hw : w.Ready) {d : Detail} (hk : d.key ∉ w.jobs) (t : Recurring) :
    (acts e now [.request (.schedule d (.recurring t)), .record d.key d] w).2 = (t.next now).outcome d.key := by
  rw [acts_cons_outcome, act_schedule_outcome hw hk]
  exact Outcome.andThen_done _

/-- A catch-up run under a free key ends as the answer of its trigger has it, if it is needed. -/
theorem acts_catchUp_outcome (hw : w.Ready) {d : Detail} (hk : d.key ∉ w.jobs) (needed : Bool) :
    (acts e now (if needed then [.request (.schedule d (.after delay))] else []) w).2 =
      if needed then ((Trigger.after delay).next now).2.outcome d.key else .done := by
  cases needed with
  | false => rfl
  | true =>
    rw [if_pos rfl, if_pos rfl, acts_cons_outcome, act_schedule_outcome hw hk]
    exact Outcome.andThen_done _

/-- The registrations of a routine end with the first obstacle. -/
theorem acts_registrations_outcome (hw : w.Ready) (hfree : ∀ kind, ⟨x.name, kind⟩ ∉ w.jobs) {needed : Bool}
    (hneeded : needsFullBackup? x.handler.lastFull x.entry.full now = some needed) :
    (acts e now (registrations x.number x.handler needed delay x.entry) w).2 =
      x.entry.outcome x.handler now delay := by
  have hcatch : (⟨x.name, none⟩ : Key) ∉ (w.addKind now delay x (some .full)).jobs :=
    not_mem_jobs_addKind (hfree _) (by simp)
  have hinc : (⟨x.name, some .incremental⟩ : Key) ∉
      ((w.addKind now delay x (some .full)).addKind now delay x none).jobs :=
    not_mem_jobs_addKind (not_mem_jobs_addKind (hfree _) (by simp)) (by simp)
  -- Where the full backup is done, its registration is there, and where the catch-up run is done, this one, too.
  have hfull : ∀ v, acts e now [.request (.schedule (x.detail (some .full)) (.recurring x.entry.full)),
      .record (x.detail (some .full)).key (x.detail (some .full))] w = (v, .done) →
      v = w.addKind now delay x (some .full) := fun v hv =>
    ((acts_recurring_eq_done_iff delay hw (hfree _) rfl).1 hv).2
  have hboth : ∀ v, acts e now ([.request (.schedule (x.detail (some .full)) (.recurring x.entry.full)),
      .record (x.detail (some .full)).key (x.detail (some .full))] ++
        if needed then [.request (.schedule (x.detail none) (.after delay))] else []) w = (v, .done) →
      v = (w.addKind now delay x (some .full)).addKind now delay x none := by
    intro v hv
    obtain ⟨u, hu, hv⟩ := acts_append_eq_done_iff.1 hv
    obtain rfl := hfull u hu
    exact ((acts_catchUp_eq_done_iff hw.addKind hcatch hneeded).1 hv).2
  have hlast : (acts e now
      (match x.entry.incremental with
        | none => []
        | some t => [.request (.schedule (x.detail (some .incremental)) (.recurring t)),
            .record (x.detail (some .incremental)).key (x.detail (some .incremental))])
      ((w.addKind now delay x (some .full)).addKind now delay x none)).2 =
      match x.entry.incremental with
      | none => .done
      | some t => (t.next now).outcome (.incremental x.name) := by
    cases x.entry.incremental with
    | none => rfl
    | some t => exact acts_recurring_outcome hw.addKind.addKind hinc t
  rw [Plan.Entry.outcome, hneeded]
  refine (acts_append_outcome hboth).trans (congrArg₂ Outcome.andThen ?_ hlast)
  refine (acts_append_outcome hfull).trans (congrArg₂ Outcome.andThen ?_ ?_)
  · exact acts_recurring_outcome hw (hfree (some .full)) x.entry.full
  · exact acts_catchUp_outcome hw.addKind hcatch needed

end Routine

/-- A routine whose handler is made is what the world grows by, and the installation goes on; or it is in the way. -/
theorem perform_routine_cases {x : Plan.Entry} {h : Handler} (ts : List Task) (delay : Span) (hw : w.Ready)
    (hfree : ∀ kind, ⟨x.name, kind⟩ ∉ w.jobs) (hh : e.handler c x.name w.bindings[x.name]? = .ok h) :
    (x.outcome h now delay = .done ∧ ∃ w', Grown now delay [⟨x, w.handlers, h⟩] w w' ∧
        perform e now (.routine c delay x :: ts) w = perform e now ts w') ∨
      (x.outcome h now delay ≠ .done ∧
        (perform e now (.routine c delay x :: ts) w).2 = x.outcome h now delay) := by
  cases hneeded : needsFullBackup? h.lastFull x.full now with
  | none =>
    have houtcome : x.outcome h now delay = .broken := by rw [Plan.Entry.outcome, hneeded]
    rw [houtcome, perform_routine_of_undecided ts hh hneeded]
    exact .inr ⟨by simp, rfl⟩
  | some needed =>
    have houtcome : (acts e now (registrations w.handlers h needed delay x) (w.withHandler x.name)).2 =
        x.outcome h now delay :=
      acts_registrations_outcome (x := ⟨x, w.handlers, h⟩) (w := w.withHandler x.name) hw hfree hneeded
    obtain ⟨⟨u, o⟩, ha⟩ : ∃ q, acts e now (registrations w.handlers h needed delay x) (w.withHandler x.name) = q :=
      ⟨_, rfl⟩
    rw [← houtcome, ha]
    by_cases ho : o = .done
    · subst ho
      obtain ⟨-, rfl⟩ := (acts_registrations_eq_done_iff (x := ⟨x, w.handlers, h⟩) (w := w.withHandler x.name) hw
        hfree hneeded).1 ha
      exact .inl ⟨rfl, _, grown_addRoutine hw ⟨x, w.handlers, h⟩, perform_routine_of_acts_done ts hh hneeded ha⟩
    · exact .inr ⟨ho, congrArg Prod.snd (perform_routine_of_acts_ne_done ts hh hneeded ha ho)⟩

/-! ## All routines -/

variable (e now delay c) in
/-- An installation on a ready loop, with free keys, ends with the first obstacle. -/
theorem perform_routines_outcome {xs : List Plan.Entry} (hw : w.Ready) (hn : (xs.map Plan.Entry.name).Nodup)
    (hfree : ∀ x ∈ xs, ∀ kind, ⟨x.name, kind⟩ ∉ w.jobs) :
    (perform e now (xs.map (.routine c delay)) w).2 = Plan.outcome e now delay c w.bindings xs := by
  induction xs generalizing w with
  | nil => rfl
  | cons x xs ih =>
    obtain ⟨hx, hxs⟩ := List.nodup_cons.1 hn
    have hfree' : ∀ y ∈ xs, ∀ kind, (⟨y.name, kind⟩ : Key) ∉ w.jobs := fun y hy => hfree y (List.mem_cons_of_mem _ hy)
    rw [List.map_cons, Plan.outcome]
    cases hh : e.handler c x.name w.bindings[x.name]? with
    | error err =>
      rw [perform_routine_of_error _ hh]
      exact ih (w := w.withRefusal x.name err) hw hxs hfree'
    | ok h =>
      show _ = (x.outcome h now delay).andThen _
      rcases perform_routine_cases (xs.map (.routine c delay)) delay hw (hfree x List.mem_cons_self) hh with
        ⟨hdone, v, hgrown, hp⟩ | ⟨hne, hp⟩
      · -- The keys of the other routines stay free, as the names are different.
        have hne : ∀ y ∈ xs, ∀ z ∈ [(⟨x, w.handlers, h⟩ : Installed)], z.name ≠ y.name := by
          intro y hy z hz heq
          cases List.mem_singleton.1 hz
          exact hx (List.mem_map.2 ⟨y, hy, heq.symm⟩)
        rw [hp, hdone, Outcome.done_andThen, ← hgrown.bindings]
        exact ih hgrown.ready hxs fun y hy kind =>
          hgrown.not_mem_jobs (k := ⟨y.name, kind⟩) (hne y hy) (hfree' y hy kind)
      · rw [hp, Outcome.andThen_of_ne_done hne]

/-! ## The law -/

end World

namespace Plan

/-- Part of the installation of a routine goes through or meets with a refusal. -/
def Entry.Meets (x : Entry) (now : Instant) (delay : Span) (o : Outcome) : Prop :=
  o = .done ∨ ∃ err, o = .refused (.scheduler err) ∧ x.Refusal now delay err

variable {x : Entry} {key : Key}

theorem Entry.Meets.andThen {o a : Outcome} (ho : x.Meets now delay o) (ha : x.Meets now delay a) :
    x.Meets now delay (o.andThen a) := by
  rcases o.andThen_eq_or a with h | h
  · rwa [h]
  · rwa [h]

/-- A recurring trigger refuses only that there is no fire time, and gets no answer only in the last second. -/
theorem Entry.meets_recurring {t : Recurring}
    (hrefusal : t.schedule.after? now = none →
      x.Refusal now delay (.invalidTrigger key (.noNextFireTime t.expression))) :
    x.Meets now delay ((t.next now).outcome key) := by
  unfold Recurring.next
  by_cases hlast : Instant.lastSecond ≤ now.second
  · rw [if_pos hlast]
    exact .inr ⟨_, rfl, .unanswered hlast⟩
  · rw [if_neg hlast]
    cases hafter : t.schedule.after? now with
    | none => exact .inr ⟨_, rfl, hrefusal hafter⟩
    | some due => exact .inl rfl

/-- A fresh run-once trigger refuses only its delay. -/
theorem Entry.meets_catchUp :
    x.Meets now delay (((Trigger.after delay).next now).2.outcome (.catchUp x.name)) := by
  simp only [Trigger.after, Trigger.next, RunOnce.next]
  cases htarget : RunOnce.target? delay now with
  | none => exact .inr ⟨_, rfl, .catchUp htarget⟩
  | some due => exact .inl rfl

/-- A routine goes through or meets with a refusal, or the call breaks down as its last full backup lies at the end of
the calendar. -/
theorem Entry.outcome_cases (x : Entry) (h : Handler) (now : Instant) (delay : Span) :
    x.Meets now delay (x.outcome h now delay) ∨
      (x.outcome h now delay = .broken ∧ ∃ last, h.lastFull = some last ∧ Instant.lastSecond ≤ last.second) := by
  unfold outcome
  cases hneeded : needsFullBackup? h.lastFull x.full now with
  | none => exact .inr ⟨rfl, World.needsFullBackup?_eq_none_iff.1 hneeded⟩
  | some needed =>
    refine .inl ((meets_recurring .full).andThen ?_ |>.andThen ?_)
    · cases needed with
      | false => exact .inl rfl
      | true => exact meets_catchUp
    · cases hi : x.incremental with
      | none => exact .inl rfl
      | some t => exact meets_recurring (.incremental hi)

/-- The installation of routines goes through, or ends as that of one of them does. -/
theorem outcome_cases (e : Engine β) (now : Instant) (delay : Span) (c : Config) (b : Std.ExtTreeMap String β)
    (xs : List Plan.Entry) :
    outcome e now delay c b xs = .done ∨ ∃ x ∈ xs, ∃ h, e.handler c x.name b[x.name]? = .ok h ∧
      outcome e now delay c b xs = x.outcome h now delay := by
  induction xs with
  | nil => exact .inl rfl
  | cons x xs ih =>
    rw [outcome]
    cases hh : e.handler c x.name b[x.name]? with
    | error err =>
      rcases ih with hdone | ⟨y, hy, h, hyh, heq⟩
      · exact .inl hdone
      · exact .inr ⟨y, List.mem_cons_of_mem _ hy, h, hyh, heq⟩
    | ok h =>
      show (x.outcome h now delay).andThen _ = .done ∨ ∃ y ∈ x :: xs, ∃ h', _ ∧ (x.outcome h now delay).andThen _ = _
      rcases (x.outcome h now delay).andThen_eq_or (outcome e now delay c b xs) with heq | heq
      · exact .inr ⟨x, List.mem_cons_self, h, hh, heq⟩
      · rw [heq]
        rcases ih with hdone | ⟨y, hy, h', hyh, heq'⟩
        · exact .inl hdone
        · exact .inr ⟨y, List.mem_cons_of_mem _ hy, h', hyh, heq'⟩

variable (e now delay c) in
/-- The installation of routines goes through, meets with a refusal of one of them, or breaks down over the last full
backup of one of them. -/
theorem outcome_spec (b : Std.ExtTreeMap String β) (xs : List Entry) :
    outcome e now delay c b xs = .done ∨
    (∃ x ∈ xs, ∃ err, outcome e now delay c b xs = .refused (.scheduler err) ∧ x.Refusal now delay err) ∨
    (outcome e now delay c b xs = .broken ∧ ∃ x ∈ xs, ∃ h last, e.handler c x.name b[x.name]? = .ok h ∧
      h.lastFull = some last ∧ Instant.lastSecond ≤ last.second) := by
  rcases outcome_cases e now delay c b xs with hdone | ⟨x, hx, h, hh, heq⟩
  · exact .inl hdone
  · rcases x.outcome_cases h now delay with (hdone | ⟨err, herr, hrefusal⟩) | ⟨hbroken, last, hlast⟩
    · exact .inl (heq.trans hdone)
    · exact .inr (.inl ⟨x, hx, err, heq.trans herr, hrefusal⟩)
    · exact .inr (.inr ⟨heq.trans hbroken, x, hx, h, last, hh, hlast⟩)

end Plan

namespace World

/-- How an installation ends. -/
structure InstallLaw (e : Engine β) (now : Instant) (delay : Span) (c : Config) (p : Plan) (w : World β) : Prop where
  /-- It ends with the first obstacle, and goes through if there is none. -/
  outcome : (install e now delay c p w).2 = Plan.outcome e now delay c w.bindings p.entries
  /-- It goes through exactly if every routine whose handler is made is installable. -/
  done_iff : (install e now delay c p w).2 = .done ↔ AllInstallable e now delay c w.bindings p
  /-- It is refused only over a trigger of a routine. -/
  refused : ∀ err, (install e now delay c p w).2 = .refused err →
    ∃ x ∈ p.entries, ∃ s, err = .scheduler s ∧ x.Refusal now delay s
  /-- No key is refused because it is taken. -/
  fresh : ∀ k, (install e now delay c p w).2 ≠ .refused (.scheduler (.jobAlreadyExists k))
  /-- It breaks down only over the decision on a catch-up run, if the last full backup lies at the end of the calendar.
  -/
  broken : (install e now delay c p w).2 = .broken → ∃ x ∈ p.entries, ∃ h last,
    e.handler c x.name w.bindings[x.name]? = .ok h ∧ h.lastFull = some last ∧ Instant.lastSecond ≤ last.second

variable (e now delay) in
/-- Whatever plan is installed on a ready loop without registrations, the installation obeys the law. -/
theorem install_law {p : Plan} {w : World β} (hw : w.Ready) (hjobs : w.jobs = ∅) (hp : Plan.build c = .ok p) :
    InstallLaw e now delay c p w := by
  have hnames : (p.entries.map Plan.Entry.name).Nodup := Plan.names_nodup hp
  have hfree : ∀ x ∈ p.entries, ∀ kind, ⟨x.name, kind⟩ ∉ w.jobs := by simp [hjobs]
  have houtcome : (install e now delay c p w).2 = Plan.outcome e now delay c w.bindings p.entries :=
    perform_routines_outcome e now delay c hw hnames hfree
  have hspec := Plan.outcome_spec e now delay c w.bindings p.entries
  have hrefused : ∀ err, (install e now delay c p w).2 = .refused err →
      ∃ x ∈ p.entries, ∃ s, err = .scheduler s ∧ x.Refusal now delay s := by
    intro err h
    rw [← houtcome, h] at hspec
    rcases hspec with hdone | ⟨x, hx, s, hs, hrefusal⟩ | ⟨hbroken, -⟩
    · cases hdone
    · cases hs
      exact ⟨x, hx, s, rfl, hrefusal⟩
    · cases hbroken
  refine ⟨houtcome, ?_, hrefused, fun k h => ?_, fun h => ?_⟩
  · unfold install installTasks
    rw [← List.append_nil (p.entries.map _)]
    rcases perform_routines_cases e now delay c [] hw hnames hfree with ⟨hall, w', -, hd⟩ | ⟨⟨x, hx, h, hh, hbad⟩, hd⟩
    · rw [hd]
      exact ⟨fun _ => hall, fun _ => rfl⟩
    · exact ⟨fun hdone => absurd hdone hd, fun hall => absurd (hall x hx h hh) hbad⟩
  · obtain ⟨x, -, s, hs, hrefusal⟩ := hrefused _ h
    cases hs
    cases hrefusal
  · rw [← houtcome, h] at hspec
    rcases hspec with hdone | ⟨-, -, s, hs, -⟩ | ⟨-, hbroken⟩
    · cases hdone
    · cases hs
    · exact hbroken

theorem exists_build {γ : Type} {f : Plan → γ} {y : γ} (h : (Plan.build c).toOption.map f = some y) :
    ∃ p, Plan.build c = .ok p ∧ f p = y := by
  cases hp : Plan.build c with
  | error err =>
    rw [hp] at h
    cases h
  | ok p =>
    rw [hp] at h
    cases h
    exact ⟨p, rfl, rfl⟩

/-- The plan of the hourly routine is installed. -/
theorem install_hourly : ∃ p, Plan.build hourly = .ok p ∧
    (install (plainEngine (some noon)) noon .zero hourly p started).2 = .done := by
  obtain ⟨p, hp, -⟩ : ∃ p, Plan.build hourly = .ok p ∧ p.names = ["hourly"] := exists_build (by decide +kernel)
  have hlaw := install_law (plainEngine (some noon)) noon .zero (w := started) ⟨rfl, rfl, rfl⟩ rfl hp
  refine ⟨p, hp, hlaw.done_iff.2 fun x hx h hh => ?_⟩
  obtain ⟨hnext, hinc⟩ := hourly_next hp x hx
  cases hh
  refine ⟨⟨⟨_, hnext⟩, by simp [hinc]⟩, false, ?_, by simp⟩
  rw [needsFullBackup?, hnext]
  decide +kernel

/-- The plan of a schedule that is over is built, and refused when it is installed; and so is the hourly routine with a
catch-up run that is needed and lies beyond the calendar. -/
theorem install_over :
    (started.Ready ∧ started.jobs = ∅) ∧
    (∃ p, Plan.build hourlyAndOver = .ok p ∧ (install (plainEngine (some noon)) noon .zero hourlyAndOver p started).2 =
      .refused (.scheduler (.invalidTrigger (.full "over") (.noNextFireTime "0 0 0 1 1 * 2001")))) ∧
    ∃ p, Plan.build hourly = .ok p ∧ (install (plainEngine none) noon .longestDelay hourly p started).2 =
      .refused (.scheduler (.invalidTrigger (.catchUp "hourly") (.invalidDelay .longestDelay))) :=
  ⟨⟨⟨rfl, rfl, rfl⟩, rfl⟩, exists_build (by decide +kernel), exists_build (by decide +kernel)⟩

end World

end Rota
