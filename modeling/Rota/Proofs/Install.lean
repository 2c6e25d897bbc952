import Rota.Proofs.World

/-!
# Installing routines

What becomes of a ready world when the routines of a plan are installed and no other client is about.

- a routine goes through if its handler is refused or if it is installable, and not otherwise
  (`perform_routine_of_error`, `perform_routine_of_installable`, `perform_routine_of_not_installable`);
- routines that go through are what the world grows by (`Grown`, `perform_routines_cases`);
- however it ends, no registration is taken away and no clear is counted (`keeps_perform_routines`).
-/

namespace Rota.World

variable {β : Type} {e : Engine β} {now : Instant} {delay : Span} {c : Config} {w w' w'' : World β}

/-! ## The registrations of one routine -/

/-- The world after the registration of a kind that was accepted, if there is one, and its record. -/
def addKind (w : World β) (now : Instant) (delay : Span) (x : Installed) (kind : Option Kind) : World β :=
  match x.registration? now delay kind with
  | none => w
  | some r => if kind = none then w.enter r else (w.enter r).record r.detail

/-- The world after the registrations of a routine that were accepted. -/
def addRoutine (w : World β) (now : Instant) (delay : Span) (x : Installed) : World β :=
  ((w.addKind now delay x (some .full)).addKind now delay x none).addKind now delay x (some .incremental)

section Kind

variable {x : Installed}

theorem Ready.addKind (hw : w.Ready) {kind : Option Kind} : (w.addKind now delay x kind).Ready := by
  unfold World.addKind
  split
  · exact hw
  · split
    · exact hw.enter _
    · exact (hw.enter _).record _

/-- What is not a store stays as it is. -/
theorem frame_addKind (w : World β) (kind : Option Kind) :
    (w.addKind now delay x kind).bindings = w.bindings ∧ (w.addKind now delay x kind).bound = w.bound ∧
      (w.addKind now delay x kind).handlers = w.handlers ∧ (w.addKind now delay x kind).clears = w.clears := by
  unfold addKind
  split
  · exact ⟨rfl, rfl, rfl, rfl⟩
  · split <;> exact ⟨rfl, rfl, rfl, rfl⟩

/-- The stores gain the registration under its key. -/
theorem stores_addKind (w : World β) (kind : Option Kind) (k : Key) :
    (w.addKind now delay x kind).jobs[k]? =
        (if k = ⟨x.name, kind⟩ then x.registration? now delay kind else none).or w.jobs[k]? ∧
      (w.addKind now delay x kind).queue[k]? =
        ((if k = ⟨x.name, kind⟩ then x.registration? now delay kind else none).map Registration.due).or w.queue[k]? ∧
      (w.addKind now delay x kind).details[k]? =
        ((if k = ⟨x.name, kind⟩ ∧ kind ≠ none then x.registration? now delay kind else none).map
          Registration.detail).or w.details[k]? := by
  unfold addKind
  cases hr : x.registration? now delay kind with
  | none => simp
  | some r =>
    have hkey : r.detail.key = ⟨x.name, kind⟩ := by rw [Installed.detail_of_registration? hr]; rfl
    have hkeys : (⟨x.name, kind⟩ : Key) = k ↔ k = ⟨x.name, kind⟩ := eq_comm
    by_cases hkind : kind = none
    · simp only [hkind, ↓reduceIte, jobs_enter, queue_enter, details_enter, hkey, Std.ExtTreeMap.getElem?_insert,
        Std.LawfulEqCmp.compare_eq_iff_eq] at hkeys ⊢
      by_cases hk : k = ⟨x.name, none⟩ <;> simp [hk, hkeys]
    · simp only [hkind, ↓reduceIte, jobs_enter, queue_enter, details_enter, jobs_record, queue_record, details_record,
        hkey, Std.ExtTreeMap.getElem?_insert, Std.LawfulEqCmp.compare_eq_iff_eq, hkeys]
      by_cases hk : k = ⟨x.name, kind⟩ <;> simp [hk, hkind]

/-- The stores gain the registrations of a routine under their keys. -/
theorem stores_addRoutine (w : World β) (k : Key) :
    (w.addRoutine now delay x).jobs[k]? = (registered now delay [x] k).or w.jobs[k]? ∧
      (w.addRoutine now delay x).queue[k]? =
        ((registered now delay [x] k).map Registration.due).or w.queue[k]? ∧
      (w.addRoutine now delay x).details[k]? = (recorded now delay [x] k).or w.details[k]? := by
  unfold addRoutine recorded
  obtain ⟨name, kind⟩ := k
  by_cases hname : name = x.name
  · subst hname
    rcases kind with _ | _ | _ <;> simp [stores_addKind, registered]
  · simp [stores_addKind, registered, hname]

variable (delay) in
/-- A recurring backup under a free key goes through exactly if its trigger fires. -/
theorem acts_recurring_eq_done_iff (hw : w.Ready) {kind : Kind} {t : Recurring} (hk : ⟨x.name, some kind⟩ ∉ w.jobs)
    (hr : x.registration? now delay (some kind) =
      (t.next now).due?.map fun due => ⟨x.detail (some kind), .recurring t, due⟩) :
    acts e now [.request (.schedule (x.detail (some kind)) (.recurring t)),
        .record (x.detail (some kind)).key (x.detail (some kind))] w = (w', .done) ↔
      (∃ due, t.next now = .due due) ∧ w' = w.addKind now delay x (some kind) := by
  have hadd : ∀ {due}, t.next now = .due due →
      w.addKind now delay x (some kind) =
        (w.enter ⟨x.detail (some kind), .recurring t, due⟩).record (x.detail (some kind)) := by
    intro due hdue
    rw [addKind, hr, hdue]
    rfl
  rw [acts_cons_eq_done_iff]
  simp only [act_schedule_eq_done_iff hw, Trigger.next, Prod.mk.injEq]
  constructor
  · rintro ⟨_, ⟨-, _, due, ⟨rfl, hdue⟩, rfl⟩, h⟩
    cases h
    exact ⟨⟨due, hdue⟩, (hadd hdue).symm⟩
  · rintro ⟨⟨due, hdue⟩, rfl⟩
    exact ⟨_, ⟨hk, _, due, ⟨rfl, hdue⟩, rfl⟩, by rw [hadd hdue]; rfl⟩

variable (delay) in
/-- An incremental backup that may be missing goes through exactly if its trigger fires. -/
theorem acts_incremental_eq_done_iff (hw : w.Ready) (hk : ⟨x.name, some .incremental⟩ ∉ w.jobs) :
    acts e now
        (match x.entry.incremental with
          | none => []
          | some t => [.request (.schedule (x.detail (some .incremental)) (.recurring t)),
              .record (x.detail (some .incremental)).key (x.detail (some .incremental))]) w = (w', .done) ↔
      (∀ t, x.entry.incremental = some t → ∃ due, t.next now = .due due) ∧
        w' = w.addKind now delay x (some .incremental) := by
  cases hi : x.entry.incremental with
  | none => simp [acts, addKind, Installed.registration?, hi, eq_comm]
  | some t =>
    rw [acts_recurring_eq_done_iff delay hw hk (by simp [Installed.registration?, hi])]
    simp

/-- A catch-up run goes through exactly if its delay stays in the calendar. -/
theorem acts_catchUp_eq_done_iff (hw : w.Ready) (hk : ⟨x.name, none⟩ ∉ w.jobs) {catchUp : Bool}
    (hneeded : needsFullBackup? x.handler.lastFull x.entry.full now = some catchUp) :
    acts e now (if catchUp then [.request (.schedule (x.detail none) (.after delay))] else []) w = (w', .done) ↔
      (catchUp = true → RunOnce.target? delay now = some (now + delay)) ∧ w' = w.addKind now delay x none := by
  cases catchUp with
  | false => simp [acts, addKind, Installed.registration?, hneeded, eq_comm]
  | true =>
    rw [if_pos rfl, acts_cons_eq_done_iff]
    simp only [act_schedule_eq_done_iff hw, Trigger.after, Trigger.next, RunOnce.next, addKind,
      Installed.registration?, hneeded, ↓reduceIte]
    constructor
    · rintro ⟨_, ⟨-, t', due, ht, rfl⟩, h⟩
      cases h
      cases htarget : RunOnce.target? delay now with
      | none => simp [htarget] at ht
      | some target =>
        rw [htarget] at ht
        cases ht
        cases RunOnce.target?_eq htarget
        exact ⟨fun _ => rfl, rfl⟩
    · rintro ⟨htarget, rfl⟩
      exact ⟨_, ⟨hk, _, _, by rw [htarget trivial], rfl⟩, rfl⟩

/-- A key of another kind stays free. -/
theorem not_mem_jobs_addKind {kind : Option Kind} {k : Key} (hk : k ∉ w.jobs) (hne : k.kind ≠ kind) :
    k ∉ (w.addKind now delay x kind).jobs := by
  rw [Std.ExtTreeMap.mem_iff_isSome_getElem?] at hk ⊢
  rw [(stores_addKind w kind k).1, if_neg (fun h => hne (congrArg Key.kind h))]
  exact hk

/-- The registrations of a routine go through exactly if its recurring triggers fire and the catch-up run, if there is
one, stays in the calendar. -/
theorem acts_registrations_eq_done_iff (hw : w.Ready) {catchUp : Bool} (hfree : ∀ kind, ⟨x.name, kind⟩ ∉ w.jobs)
    (hneeded : needsFullBackup? x.handler.lastFull x.entry.full now = some catchUp) :
    acts e now (registrations x.number x.handler catchUp delay x.entry) w = (w', .done) ↔
      x.entry.Installable x.handler now delay ∧ w' = w.addRoutine now delay x := by
  -- The catch-up run and the incremental backup come after the full backup, under keys of their own.
  have hcatch : (⟨x.name, none⟩ : Key) ∉ (w.addKind now delay x (some .full)).jobs :=
    not_mem_jobs_addKind (hfree _) (by simp)
  have hinc : (⟨x.name, some .incremental⟩ : Key) ∉
      ((w.addKind now delay x (some .full)).addKind now delay x none).jobs :=
    not_mem_jobs_addKind (not_mem_jobs_addKind (hfree _) (by simp)) (by simp)
  rw [registrations, acts_append_eq_done_iff]
  simp only [acts_append_eq_done_iff]
  constructor
  · rintro ⟨v, ⟨u, hu, hv⟩, h⟩
    obtain ⟨hdue, rfl⟩ := (acts_recurring_eq_done_iff delay hw (hfree _) rfl).1 hu
    obtain ⟨htarget, rfl⟩ := (acts_catchUp_eq_done_iff hw.addKind hcatch hneeded).1 hv
    obtain ⟨hi, rfl⟩ := (acts_incremental_eq_done_iff delay hw.addKind.addKind hinc).1 h
    exact ⟨⟨⟨hdue, hi⟩, _, hneeded, htarget⟩, rfl⟩
  · rintro ⟨⟨⟨hdue, hi⟩, _, hn, htarget⟩, rfl⟩
    cases hneeded.symm.trans hn
    have hu := (acts_recurring_eq_done_iff (e := e) delay hw (hfree (some .full)) rfl).2 ⟨hdue, rfl⟩
    have hv := (acts_catchUp_eq_done_iff (e := e) hw.addKind hcatch hneeded).2 ⟨htarget, rfl⟩
    exact ⟨_, ⟨_, hu, hv⟩, (acts_incremental_eq_done_iff delay hw.addKind.addKind hinc).2 ⟨hi, rfl⟩⟩

end Kind

/-! ## Growth -/

/-- A world that grew by routines: it has their registrations and records, and is otherwise as it was. -/
structure Grown (now : Instant) (delay : Span) (xs : List Installed) (w w' : World β) : Prop where
  ready : w'.Ready
  bindings : w'.bindings = w.bindings
  bound : w'.bound = w.bound
  handlers : w'.handlers = w.handlers + xs.length
  clears : w'.clears = w.clears
  jobs : ∀ k, w'.jobs[k]? = (registered now delay xs k).or w.jobs[k]?
  queue : ∀ k, w'.queue[k]? = ((registered now delay xs k).map Registration.due).or w.queue[k]?
  details : ∀ k, w'.details[k]? = (recorded now delay xs k).or w.details[k]?

namespace Grown

variable {xs ys : List Installed}

theorem refl (hw : w.Ready) : Grown now delay [] w w :=
  ⟨hw, rfl, rfl, rfl, rfl, fun _ => rfl, fun _ => rfl, fun k => by simp [recorded, registered]⟩

theorem trans (h : Grown now delay xs w w') (h' : Grown now delay ys w' w'') : Grown now delay (xs ++ ys) w w'' := by
  refine ⟨h'.ready, h'.bindings.trans h.bindings, h'.bound.trans h.bound, ?_, h'.clears.trans h.clears, ?_, ?_, ?_⟩
  · rw [h'.handlers, h.handlers, List.length_append]
    omega
  · intro k
    rw [h'.jobs, h.jobs, registered_append, Option.or_assoc]
  · intro k
    rw [h'.queue, h.queue, registered_append, Option.map_or, Option.or_assoc]
  · intro k
    rw [h'.details, h.details, recorded_append, Option.or_assoc]

/-- A key is free after the growth if it was free before and no routine has its name. -/
theorem not_mem_jobs (h : Grown now delay xs w w') {k : Key} (hne : ∀ x ∈ xs, x.name ≠ k.name) (hk : k ∉ w.jobs) :
    k ∉ w'.jobs := by
  rw [Std.ExtTreeMap.mem_iff_isSome_getElem?] at hk ⊢
  rw [h.jobs, registered_of_forall_ne hne]
  exact hk

end Grown

/-- A world whose handler of a routine is made grows by the routine. -/
theorem grown_addRoutine (hw : w.Ready) (x : Installed) :
    Grown now delay [x] w ((w.withHandler x.name).addRoutine now delay x) := by
  have hready : (w.withHandler x.name).Ready := hw
  refine ⟨hready.addKind.addKind.addKind, ?_, ?_, ?_, ?_, ?_, ?_, ?_⟩
  · simp only [addRoutine, frame_addKind, withHandler]
  · simp only [addRoutine, frame_addKind, withHandler]
  · simp only [addRoutine, frame_addKind, withHandler, List.length_singleton]
  · simp only [addRoutine, frame_addKind]
    rfl
  · exact fun k => (stores_addRoutine (w.withHandler x.name) k).1
  · exact fun k => (stores_addRoutine (w.withHandler x.name) k).2.1
  · exact fun k => (stores_addRoutine (w.withHandler x.name) k).2.2

/-! ## Lists of routines -/

section Routines

variable {x : Plan.Entry} {h : Handler} (ts : List Task)

/-- A routine whose handler is refused is left out. -/
theorem perform_routine_of_error {err : HandlerError} (hh : e.handler c x.name w.bindings[x.name]? = .error err) :
    perform e now (.routine c delay x :: ts) w = perform e now ts (w.withRefusal x.name err) := by
  simp only [perform, takeUp, hh, acts, withRefusal]

/-- A routine without a decision on its catch-up run breaks the call down. -/
theorem perform_routine_of_undecided (hh : e.handler c x.name w.bindings[x.name]? = .ok h)
    (hneeded : needsFullBackup? h.lastFull x.full now = none) :
    perform e now (.routine c delay x :: ts) w = (w.withHandler x.name, .broken) := by
  simp only [perform, takeUp, hh, hneeded, Option.map_none, withHandler]

/-- A call goes on after a routine whose registrations go through. -/
theorem perform_routine_of_acts_done {needed : Bool} (hh : e.handler c x.name w.bindings[x.name]? = .ok h)
    (hneeded : needsFullBackup? h.lastFull x.full now = some needed)
    (ha : acts e now (registrations w.handlers h needed delay x) (w.withHandler x.name) = (w', .done)) :
    perform e now (.routine c delay x :: ts) w = perform e now ts w' := by
  rw [withHandler] at ha
  simp only [perform, takeUp, hh, hneeded, Option.map_some, ha]

/-- A call ends with the registrations of a routine that do not go through. -/
theorem perform_routine_of_acts_ne_done {needed : Bool} (hh : e.handler c x.name w.bindings[x.name]? = .ok h)
    (hneeded : needsFullBackup? h.lastFull x.full now = some needed) {o : Outcome}
    (ha : acts e now (registrations w.handlers h needed delay x) (w.withHandler x.name) = (w', o)) (ho : o ≠ .done) :
    perform e now (.routine c delay x :: ts) w = (w', o) := by
  rw [withHandler] at ha
  simp only [perform, takeUp, hh, hneeded, Option.map_some, ha]

/-- A routine that is installable is what the world grows by. -/
theorem perform_routine_of_installable (hw : w.Ready) (hfree : ∀ kind, ⟨x.name, kind⟩ ∉ w.jobs)
    (hh : e.handler c x.name w.bindings[x.name]? = .ok h) (hx : x.Installable h now delay) :
    ∃ w', Grown now delay [⟨x, w.handlers, h⟩] w w' ∧
      perform e now (.routine c delay x :: ts) w = perform e now ts w' := by
  obtain ⟨needed, hneeded, -⟩ := hx.catchUp
  have ha := (acts_registrations_eq_done_iff (e := e) (x := ⟨x, w.handlers, h⟩) (w := w.withHandler x.name) hw hfree
    hneeded).2 ⟨hx, rfl⟩
  exact ⟨_, grown_addRoutine hw ⟨x, w.handlers, h⟩, perform_routine_of_acts_done ts hh hneeded ha⟩

/-- A routine that is not installable does not go through. -/
theorem perform_routine_of_not_installable (hw : w.Ready) (hfree : ∀ kind, ⟨x.name, kind⟩ ∉ w.jobs)
    (hh : e.handler c x.name w.bindings[x.name]? = .ok h) (hx : ¬ x.Installable h now delay) :
    (perform e now (.routine c delay x :: ts) w).2 ≠ .done := by
  cases hneeded : needsFullBackup? h.lastFull x.full now with
  | none =>
    rw [perform_routine_of_undecided ts hh hneeded]
    simp
  | some needed =>
    obtain ⟨⟨u, o⟩, ha⟩ : ∃ q, acts e now (registrations w.handlers h needed delay x) (w.withHandler x.name) = q :=
      ⟨_, rfl⟩
    have ho : o ≠ .done := by
      rintro rfl
      exact hx ((acts_registrations_eq_done_iff (x := ⟨x, w.handlers, h⟩) (w := w.withHandler x.name) hw hfree
        hneeded).1 ha).1
    rw [perform_routine_of_acts_ne_done ts hh hneeded ha ho]
    exact ho

end Routines

variable (e now delay c) in
/-- Routines of different names either go through, each whose handler is made being installable, and the world grows
by them; or one of them is not installable, and they do not go through. -/
theorem perform_routines_cases (ts : List Task) {xs : List Plan.Entry} (hw : w.Ready)
    (hn : (xs.map Plan.Entry.name).Nodup) (hfree : ∀ x ∈ xs, ∀ kind, ⟨x.name, kind⟩ ∉ w.jobs) :
    ((∀ x ∈ xs, ∀ h, e.handler c x.name w.bindings[x.name]? = .ok h → x.Installable h now delay) ∧
      ∃ w', Grown now delay (made e c w.bindings w.handlers xs) w w' ∧
        perform e now (xs.map (.routine c delay) ++ ts) w = perform e now ts w') ∨
    ((∃ x ∈ xs, ∃ h, e.handler c x.name w.bindings[x.name]? = .ok h ∧ ¬ x.Installable h now delay) ∧
      (perform e now (xs.map (.routine c delay) ++ ts) w).2 ≠ .done) := by
  induction xs generalizing w with
  | nil => exact .inl ⟨by simp, w, .refl hw, rfl⟩
  | cons x xs ih =>
    obtain ⟨hx, hxs⟩ := List.nodup_cons.1 hn
    have hfree' : ∀ y ∈ xs, ∀ kind, (⟨y.name, kind⟩ : Key) ∉ w.jobs := fun y hy => hfree y (List.mem_cons_of_mem _ hy)
    rw [List.map_cons, List.cons_append]
    cases hh : e.handler c x.name w.bindings[x.name]? with
    | error err =>
      rw [perform_routine_of_error _ hh, made, hh]
      rcases ih (w := w.withRefusal x.name err) hw hxs hfree' with ⟨hall, w', hg, hp⟩ | ⟨⟨y, hy, hbad⟩, hp⟩
      · have hgrown : Grown now delay (made e c w.bindings w.handlers xs) w w' :=
          ⟨hg.ready, hg.bindings, hg.bound, hg.handlers, hg.clears, hg.jobs, hg.queue, hg.details⟩
        refine .inl ⟨?_, w', hgrown, hp⟩
        intro y hy h hyh
        rcases List.mem_cons.1 hy with rfl | hy
        · cases hh.symm.trans hyh
        · exact hall y hy h hyh
      · exact .inr ⟨⟨y, List.mem_cons_of_mem _ hy, hbad⟩, hp⟩
    | ok h =>
      by_cases hi : x.Installable h now delay
      · obtain ⟨v, hv, hp⟩ := perform_routine_of_installable (xs.map (.routine c delay) ++ ts) hw
          (hfree x List.mem_cons_self) hh hi
        rw [hp, made, hh]
        have hne : ∀ y ∈ xs, ∀ z ∈ [(⟨x, w.handlers, h⟩ : Installed)], z.name ≠ y.name := by
          intro y hy z hz heq
          cases List.mem_singleton.1 hz
          exact hx (List.mem_map.2 ⟨y, hy, heq.symm⟩)
        have hlen : [(⟨x, w.handlers, h⟩ : Installed)].length = 1 := rfl
        rcases ih hv.ready hxs fun y hy kind => hv.not_mem_jobs (k := ⟨y.name, kind⟩) (hne y hy) (hfree' y hy kind)
          with ⟨hall, w', hg, hp'⟩ | ⟨⟨y, hy, hbad⟩, hp'⟩
        · rw [hv.bindings] at hall
          rw [hv.bindings, hv.handlers, hlen] at hg
          refine .inl ⟨?_, w', hv.trans hg, hp'⟩
          intro y hy h' hyh
          rcases List.mem_cons.1 hy with rfl | hy
          · cases hh.symm.trans hyh
            exact hi
          · exact hall y hy h' hyh
        · rw [hv.bindings] at hbad
          exact .inr ⟨⟨y, List.mem_cons_of_mem _ hy, hbad⟩, hp'⟩
      · exact .inr ⟨⟨x, List.mem_cons_self, h, hh, hi⟩,
          perform_routine_of_not_installable _ hw (hfree x List.mem_cons_self) hh hi⟩

/-! ## Whatever the outcome -/

/-- The acts that registrations are made of. -/
def Adds : Act → Prop
  | .request (.schedule _ _) => True
  | .record _ _ => True
  | _ => False

/-- A world that keeps the registrations of another one, and its count of clears. -/
structure Keeps (w w' : World β) : Prop where
  clears : w'.clears = w.clears
  jobs : ∀ {k : Key} {r : Registration}, w.jobs[k]? = some r → w'.jobs[k]? = some r

theorem Keeps.refl (w : World β) : Keeps w w := ⟨rfl, id⟩

theorem Keeps.trans (h : Keeps w w') (h' : Keeps w' w'') : Keeps w w'' :=
  ⟨h'.clears.trans h.clears, fun hr => h'.jobs (h.jobs hr)⟩

/-- A registration takes nothing away, and leaves the loop ready if it goes through. -/
theorem keeps_act (hw : w.Ready) {a : Act} (ha : Adds a) {o : Outcome} (h : act e now w a = (w', o)) :
    Keeps w w' ∧ (o = .done → w'.Ready) := by
  match a, ha with
  | .record key d, _ =>
    cases h
    exact ⟨⟨rfl, id⟩, fun _ => ⟨hw.running, hw.uncancelled, hw.idle⟩⟩
  | .request (.schedule d t), _ =>
    rcases act_schedule_cases e now hw d t with ⟨t', due, hk, -, hd⟩ | ⟨-, v, err, hd, hclears, hjobs⟩
    · cases hd.symm.trans h
      refine ⟨⟨rfl, ?_⟩, fun _ => hw.enter _⟩
      intro k r hr
      rw [jobs_enter, Std.ExtTreeMap.getElem?_insert, if_neg]
      · exact hr
      · rw [Std.LawfulEqCmp.compare_eq_iff_eq]
        rintro rfl
        exact hk (Std.ExtTreeMap.mem_iff_isSome_getElem?.2 (by rw [hr]; rfl))
    · cases hd.symm.trans h
      exact ⟨⟨hclears, fun hr => hjobs ▸ hr⟩, by rintro ⟨⟩⟩

theorem keeps_acts {as : List Act} (hw : w.Ready) (has : ∀ a ∈ as, Adds a) {o : Outcome}
    (h : acts e now as w = (w', o)) : Keeps w w' ∧ (o = .done → w'.Ready) := by
  induction as generalizing w with
  | nil =>
    cases h
    exact ⟨.refl _, fun _ => hw⟩
  | cons a as ih =>
    obtain ⟨⟨v, o'⟩, hv⟩ : ∃ q, act e now w a = q := ⟨_, rfl⟩
    obtain ⟨hkeep, hready⟩ := keeps_act hw (has a List.mem_cons_self) hv
    rw [acts, hv] at h
    cases o' with
    | done =>
      obtain ⟨hkeep', hready'⟩ := ih (hready rfl) (fun b hb => has b (List.mem_cons_of_mem _ hb)) h
      exact ⟨hkeep.trans hkeep', hready'⟩
    | refused err =>
      cases h
      exact ⟨hkeep, by rintro ⟨⟩⟩
    | broken =>
      cases h
      exact ⟨hkeep, by rintro ⟨⟩⟩

theorem adds_registrations (n : Nat) (h : Handler) (catchUp : Bool) (delay : Span) (x : Plan.Entry) :
    ∀ a ∈ registrations n h catchUp delay x, Adds a := by
  intro a ha
  obtain ⟨d, kind, -, ⟨t, rfl⟩ | rfl⟩ := mem_registrations ha <;> trivial

/-- Installing routines takes no registration away and counts no clear, however it ends. -/
theorem keeps_perform_routines (hw : w.Ready) (xs : List Plan.Entry) :
    Keeps w (perform e now (xs.map (.routine c delay)) w).1 := by
  induction xs generalizing w with
  | nil => exact .refl w
  | cons x xs ih =>
    rw [List.map_cons]
    cases hh : e.handler c x.name w.bindings[x.name]? with
    | error err =>
      rw [perform_routine_of_error _ hh]
      obtain ⟨hclears, hjobs⟩ := ih (w := w.withRefusal x.name err) hw
      exact ⟨hclears, hjobs⟩
    | ok h =>
      have hkeep : Keeps w (w.withHandler x.name) := ⟨rfl, id⟩
      have hready : (w.withHandler x.name).Ready := hw
      cases hneeded : needsFullBackup? h.lastFull x.full now with
      | none =>
        rw [perform_routine_of_undecided _ hh hneeded]
        exact hkeep
      | some needed =>
        obtain ⟨⟨u, o⟩, ha⟩ : ∃ q, acts e now (registrations w.handlers h needed delay x) (w.withHandler x.name) = q :=
          ⟨_, rfl⟩
        obtain ⟨hacts, hu⟩ := keeps_acts hready (adds_registrations _ _ _ _ _) ha
        by_cases ho : o = .done
        · subst ho
          rw [perform_routine_of_acts_done _ hh hneeded ha]
          exact (hkeep.trans hacts).trans (ih (hu rfl))
        · rw [perform_routine_of_acts_ne_done _ hh hneeded ha ho]
          exact hkeep.trans hacts

end Rota.World
