import Rota.Proofs.Install
import Rota.Proofs.Plan

/-!
# Reconfiguration

A client that replaces the schedule clears everything, binds the backends anew and installs the routines of the new
plan.

- the installation goes through exactly if every routine whose handler is made is installable, and then the world holds
  these routines and nothing else (`install_cases`, `Holds`);
- the clear is counted, however the call ends (`clears_applyConfig`);
- so the call is all or nothing exactly if nothing can be refused after the clear (`applyConfig_allOrNothing_iff`).
-/

namespace Rota.World

variable {β : Type} {e : Engine β} {now : Instant} {delay : Span} {c : Config} {p : Plan} {w w' : World β}

/-! ## The clear -/

/-- The world after a clear and a new binding. -/
def reset (w : World β) (e : Engine β) (c : Config) : World β :=
  World.rebind { w with scheduler := w.scheduler.answered w.scheduler.dispatcher.clear } e c

theorem Ready.reset (hw : w.Ready) (e : Engine β) (c : Config) : (w.reset e c).Ready := Scheduler.Ready.answered hw _

@[simp] theorem clears_reset : (w.reset e c).clears = w.clears + 1 := rfl

/-- After the clear and the binding the plan is installed. -/
theorem applyConfig_of_build (hw : w.Ready) (hp : Plan.build c = .ok p) :
    applyConfig e now delay c w = install e now delay c p (w.reset e c) := by
  have hclear : act e now w (.request .clear) =
      ({ w with scheduler := w.scheduler.answered w.scheduler.dispatcher.clear }, .done) :=
    act_request_ok (Scheduler.request_of_handle hw rfl)
  unfold applyConfig applyTasks
  rw [hp]
  simp only [perform, takeUp, acts, hclear]
  rfl

variable (e now delay) in
/-- A call that gets past its plan counts one clear, however it ends. -/
theorem clears_applyConfig (hw : w.Ready) (hp : Plan.build c = .ok p) :
    (applyConfig e now delay c w).1.clears = w.clears + 1 := by
  rw [applyConfig_of_build hw hp, install, installTasks, (keeps_perform_routines (hw.reset e c) p.entries).clears,
    clears_reset]

/-! ## What a world holds -/

/-- A ready world without registrations and records. -/
structure Blank (w : World β) : Prop where
  ready : w.Ready
  jobs : w.jobs = ∅
  queue : w.queue = ∅
  details : w.details = ∅

/-- A world that holds some routines and nothing else. -/
structure Holds (now : Instant) (delay : Span) (xs : List Installed) (w : World β) : Prop where
  jobs : ∀ k, w.jobs[k]? = registered now delay xs k
  queue : ∀ k, w.queue[k]? = (registered now delay xs k).map Registration.due
  details : ∀ k, w.details[k]? = recorded now delay xs k

/-- A blank world holds what it grew by. -/
theorem Grown.holds {xs : List Installed} (h : Grown now delay xs w w') (hw : w.Blank) : Holds now delay xs w' := by
  refine ⟨fun k => ?_, fun k => ?_, fun k => ?_⟩
  · rw [h.jobs, hw.jobs, Std.ExtTreeMap.getElem?_empty, Option.or_none]
  · rw [h.queue, hw.queue, Std.ExtTreeMap.getElem?_empty, Option.or_none]
  · rw [h.details, hw.details, Std.ExtTreeMap.getElem?_empty, Option.or_none]

/-- Every routine whose handler is made is installable. -/
def AllInstallable (e : Engine β) (now : Instant) (delay : Span) (c : Config) (b : Std.ExtTreeMap String β) (p : Plan) :
    Prop :=
  ∀ x ∈ p.entries, ∀ h, e.handler c x.name b[x.name]? = .ok h → x.Installable h now delay

variable (e now delay) in
/-- Either all routines are installable, and they go through and are what a blank world then holds; or they do not go
through. -/
theorem install_cases (hw : w.Blank) (hp : Plan.build c = .ok p) :
    (AllInstallable e now delay c w.bindings p ∧
      ∃ w', install e now delay c p w = (w', .done) ∧ w'.bindings = w.bindings ∧
        Holds now delay (made e c w.bindings w.handlers p.entries) w') ∨
    (¬ AllInstallable e now delay c w.bindings p ∧ (install e now delay c p w).2 ≠ .done) := by
  unfold install installTasks
  rw [← List.append_nil (p.entries.map _)]
  have hfree : ∀ x ∈ p.entries, ∀ kind, ⟨x.name, kind⟩ ∉ w.jobs := by simp [hw.jobs]
  rcases perform_routines_cases e now delay c [] hw.ready (Plan.names_nodup hp) hfree with
    ⟨hall, w', hg, hd⟩ | ⟨⟨x, hx, h, hh, hbad⟩, hd⟩
  · exact .inl ⟨hall, w', hd, hg.bindings, hg.holds hw⟩
  · exact .inr ⟨fun hall => hbad (hall x hx h hh), hd⟩

theorem Ready.blank_reset (hw : w.Ready) (e : Engine β) (c : Config) : (w.reset e c).Blank :=
  ⟨hw.reset e c, rfl, rfl, rfl⟩

/-! ## All or nothing -/

/-- A call went through, or it was refused and left the registrations, the registry, the bindings and the count of
clears as they were. -/
def AllOrNothing (w : World β) : World β × Outcome → Prop
  | (_, .done) => True
  | (w', .refused _) => w'.jobs = w.jobs ∧ w'.queue = w.queue ∧ w'.scheduler.registry = w.scheduler.registry ∧
      w'.bindings = w.bindings ∧ w'.clears = w.clears
  | (_, .broken) => False

/-- A reconfiguration is all or nothing exactly if its plan is refused or nothing can be refused after the clear. -/
theorem applyConfig_allOrNothing_iff (hw : w.Ready) :
    AllOrNothing w (applyConfig e now delay c w) ↔
      ∀ p, Plan.build c = .ok p → AllInstallable e now delay c (e.bind w.bound c) p := by
  cases hp : Plan.build c with
  | error f =>
    have happly : applyConfig e now delay c w = (w, .refused (.invalidCron f)) := by
      unfold applyConfig
      rw [hp]
    rw [happly]
    simp [AllOrNothing]
  | ok p =>
    simp only [Except.ok.injEq, forall_eq']
    have hclears := clears_applyConfig e now delay hw hp
    rw [applyConfig_of_build hw hp] at hclears ⊢
    rcases install_cases e now delay (hw.blank_reset e c) hp with ⟨hall, w', hd, -⟩ | ⟨hbad, hd⟩
    · rw [hd]
      exact ⟨fun _ => hall, fun _ => trivial⟩
    · constructor
      · intro hnothing
        obtain ⟨⟨w', o⟩, hr⟩ : ∃ q, install e now delay c p (w.reset e c) = q := ⟨_, rfl⟩
        rw [hr] at hnothing hclears hd
        cases o with
        | done => exact absurd rfl hd
        | refused err =>
          -- The clear was counted, so the count is not what it was.
          have hsame : w'.clears = w.clears := hnothing.2.2.2.2
          rw [hclears] at hsame
          simp at hsame
        | broken => exact hnothing.elim
      · intro hall
        exact absurd hall hbad

/-! ### A world at noon -/

/-- Noon of the first of May 2024. -/
def noon : Instant := .ofSecond 1714564800

/-- An engine that makes a handler for every routine, all with one time of the last full backup. -/
def plainEngine (last : Option Instant) : Engine Unit where
  bind _ c := c.routines.map fun _ _ => ()
  handler _ name _ := .ok ⟨name, last⟩

/-- One routine that fires at every full hour. -/
def hourly : Config := Config.empty.withRoutine "hourly" { fullCron := "0 * * * *" }

/-- A second routine whose schedule is over. -/
def hourlyAndOver : Config := hourly.withRoutine "over" { fullCron := "0 0 0 1 1 * 2001" }

/-- The world once the hourly routine is scheduled on a new scheduler. -/
def scheduled : World Unit :=
  (launchScheduler (plainEngine (some noon)) noon .zero false hourly { bindings := (plainEngine none).bind 0 hourly }).1

theorem ready_scheduled : scheduled.Ready := ⟨by decide +kernel, by decide +kernel, by decide +kernel⟩

/-- The hourly routine fires an hour later. -/
theorem hourly_next {p : Plan} (hp : Plan.build hourly = .ok p) :
    ∀ x ∈ p.entries, x.full.next noon = .due (.ofSecond 1714568400) ∧ x.incremental = none := by
  have h : ((Plan.build hourly).toOption.all fun p => p.entries.all fun x =>
      decide (x.full.next noon = .due (.ofSecond 1714568400) ∧ x.incremental = none)) = true := by decide +kernel
  rw [hp] at h
  exact fun x hx => of_decide_eq_true (List.all_eq_true.1 h x hx)

/-- Reading the hourly routine anew is all or nothing. -/
theorem applyConfig_hourly :
    AllOrNothing scheduled (applyConfig (plainEngine (some noon)) noon .zero hourly scheduled) := by
  refine (applyConfig_allOrNothing_iff ready_scheduled).2 fun p hp x hx h hh => ?_
  obtain ⟨hnext, hinc⟩ := hourly_next hp x hx
  cases hh
  refine ⟨⟨⟨_, hnext⟩, by simp [hinc]⟩, false, ?_, by simp⟩
  rw [needsFullBackup?, hnext]
  decide +kernel

/-- A schedule that is over is refused after the clear, by a loop that goes on. -/
theorem applyConfig_hourlyAndOver :
    scheduled.Ready ∧
      (applyConfig (plainEngine (some noon)) noon .zero hourlyAndOver scheduled).1.scheduler.phase = .running ∧
      ¬ AllOrNothing scheduled (applyConfig (plainEngine (some noon)) noon .zero hourlyAndOver scheduled) := by
  refine ⟨ready_scheduled, by decide +kernel, fun h => ?_⟩
  have hrefused : (applyConfig (plainEngine (some noon)) noon .zero hourlyAndOver scheduled).2 =
      .refused (.scheduler (.invalidTrigger (.full "over") (.noNextFireTime "0 0 0 1 1 * 2001"))) := by
    decide +kernel
  have hclears : (applyConfig (plainEngine (some noon)) noon .zero hourlyAndOver scheduled).1.clears ≠
      scheduled.clears := by
    decide +kernel
  obtain ⟨⟨w', o⟩, hr⟩ : ∃ q, applyConfig (plainEngine (some noon)) noon .zero hourlyAndOver scheduled = q := ⟨_, rfl⟩
  rw [hr] at h hrefused hclears
  cases hrefused
  exact hclears h.2.2.2.2

end Rota.World
