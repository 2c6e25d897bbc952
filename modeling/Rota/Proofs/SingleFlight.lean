import Mathlib.Data.List.Count
import Mathlib.Data.List.Nodup
import Rota.Proofs.Carry
import Rota.Proofs.Reconfigure

/-!
# Single flight

The guard that lets one run at a time through belongs to a backup object, and each handler has objects of its own. So
at any time at most one run of a backup object is at work (`Scheduler.nodup_atWork`), and at most one run of a routine
and kind if no handler of the routine is made while a backup of an older one is in circulation (`Quiet`).

- in a quiet history all backups of a routine in circulation are those of one handler (`oneHandler_run`);
- runs of a routine and kind are single in flight exactly while they belong to one handler, and always in a quiet
  history (`singleFlight`).
-/

namespace Rota

/-! ## What is in circulation -/

/-- The backup of a job, if it is one. -/
def Job.backup? : Job → Option Backup
  | .backup b => some b
  | .chore .. => none

theorem Job.backup?_eq_some_iff {j : Job} {b : Backup} : j.backup? = some b ↔ j = .backup b := by
  cases j <;> simp [backup?]

/-- The backup that a command registers. -/
def Command.backup? : Command → Option Backup
  | .schedule d _ => d.job.backup?
  | _ => none

theorem Command.backup?_eq_some_iff {c : Command} {b : Backup} : c.backup? = some b ↔ c.Carries b := by
  cases c <;> simp [backup?, Carries, Job.backup?_eq_some_iff]

/-- The backup that a task registers or records. -/
def Task.backup? : Task → Option Backup
  | .act (.request c) => c.backup?
  | .act (.record _ d) => d.job.backup?
  | _ => none

theorem Task.backup?_eq_some_iff {t : Task} {b : Backup} : t.backup? = some b ↔ t.Carries b := by
  cases t with
  | act a => cases a <;> simp [backup?, Carries, Act.Carries, Job.backup?_eq_some_iff, Command.backup?_eq_some_iff]
  | routine c delay x => simp [backup?, Carries]
  | adhoc routine => simp [backup?, Carries]

/-- The backups in circulation at a scheduler. -/
def Scheduler.circulating (s : Scheduler) : List Backup :=
  s.dispatcher.jobs.toList.filterMap (fun q => q.2.detail.job.backup?) ++
    s.registry.details.toList.filterMap (fun q => q.2.job.backup?) ++
    s.inbox.filterMap (fun q => q.2.backup?) ++
    (s.runs.filter fun r => r.ended? = none).filterMap (fun r => r.detail.job.backup?)

theorem Scheduler.mem_circulating_iff {s : Scheduler} {b : Backup} : b ∈ s.circulating ↔ s.Carries b := by
  unfold circulating Carries Dispatcher.Carries Registry.Carries registry
  simp only [List.mem_append, List.mem_filterMap, List.mem_filter, decide_eq_true_eq, Job.backup?_eq_some_iff,
    Command.backup?_eq_some_iff, Prod.exists, Std.ExtTreeMap.mem_toList_iff_getElem?_eq_some, or_assoc]
  refine or_congr Iff.rfl (or_congr Iff.rfl (or_congr Iff.rfl (exists_congr fun x => ?_)))
  rw [and_assoc, and_comm (a := x.ended? = none)]

namespace Site

variable {β : Type} {e : Engine β} {s : Site β} {b : Backup} {r : String}

/-- The backups in circulation at a site. -/
def circulating (s : Site β) : List Backup :=
  s.world.scheduler.circulating ++ s.clients.flatten.filterMap Task.backup?

theorem mem_circulating_iff : b ∈ s.circulating ↔ s.Carries b := by
  simp only [circulating, List.mem_append, Scheduler.mem_circulating_iff, List.mem_filterMap, List.mem_flatten,
    Task.backup?_eq_some_iff, Carries, Ahead]
  refine or_congr Iff.rfl ⟨?_, ?_⟩
  · rintro ⟨t, ⟨ts, hts, ht⟩, hb⟩
    exact ⟨ts, hts, t, ht, hb⟩
  · rintro ⟨ts, hts, t, ht, hb⟩
    exact ⟨t, ⟨ts, hts, ht⟩, hb⟩

/-! ## Quiet histories -/

/-- A history is quiet for a routine if a handler of the routine is made only while no backup of the routine is in
circulation. -/
def Quiet (e : Engine β) (r : String) : Site β → List Event → Prop
  | _, [] => True
  | s, ev :: evs => (s.makes? e ev = some r → ∀ b ∈ s.circulating, b.routine ≠ r) ∧ Quiet e r (s.happen e ev) evs

instance decidableQuiet (e : Engine β) (r : String) : ∀ (s : Site β) (evs : List Event), Decidable (Quiet e r s evs)
  | _, [] => inferInstanceAs (Decidable True)
  | s, ev :: evs =>
    have := decidableQuiet e r (s.happen e ev) evs
    inferInstanceAs (Decidable (_ ∧ _))

/-- All backups of a routine in circulation are those of one handler. -/
def OneHandler (r : String) (s : Site β) : Prop :=
  ∀ b b', s.Carries b → s.Carries b' → b.routine = r → b'.routine = r → b.handler = b'.handler

theorem oneHandler_happen (hs : s.world.scheduler.Sound) {ev : Event}
    (hquiet : s.makes? e ev = some r → ∀ b ∈ s.circulating, b.routine ≠ r) (h : s.OneHandler r) :
    (s.happen e ev).OneHandler r := by
  -- Where a handler of the routine is made, no older backup of the routine is about.
  have hclash : ∀ b b' : Backup, s.Carries b → b.routine = r → s.makes? e ev = some b'.routine → b'.routine = r →
      False := by
    intro b b' hb hr hmade hr'
    exact hquiet (hr' ▸ hmade) b (mem_circulating_iff.2 hb) hr
  intro b b' hb hb' hr hr'
  rcases carries_happen hs hb with hold | ⟨hmade, hnew⟩
  · rcases carries_happen hs hb' with hold' | ⟨hmade', -⟩
    · exact h b b' hold hold' hr hr'
    · exact (hclash b b' hold hr hmade' hr').elim
  · rcases carries_happen hs hb' with hold' | ⟨-, hnew'⟩
    · exact (hclash b' b hold' hr' hmade hr).elim
    · exact hnew.trans hnew'.symm

theorem oneHandler_run (hs : s.world.scheduler.Sound) {evs : List Event} (hquiet : Quiet e r s evs)
    (h : s.OneHandler r) : (s.run e evs).OneHandler r := by
  induction evs generalizing s with
  | nil => exact h
  | cons ev evs ih =>
    exact ih (Scheduler.sound_steps (steps_happen e s ev) hs) hquiet.2 (oneHandler_happen hs hquiet.1 h)

/-! ## Runs at work -/

/-- A site with a new scheduler and no clients yet. -/
def fresh (w : World β) : Site β := { world := { w with scheduler := {} } }

theorem oneHandler_fresh (w : World β) (r : String) : (fresh w).OneHandler r := by
  intro b b' hb
  rw [← mem_circulating_iff] at hb
  simp [circulating, Scheduler.circulating, Scheduler.registry, fresh] at hb

end Site

/-- The backup that a run is at work on. -/
def Run.work? (x : Run) : Option Backup := if x.status = .inside then x.detail.job.backup? else none

theorem Run.work?_eq_some_iff {x : Run} {b : Backup} : x.work? = some b ↔ x.Inside b := by
  simp [work?, Inside, Job.backup?_eq_some_iff]

namespace Scheduler

/-- The backups that runs are at work on. -/
def atWork (s : Scheduler) : List Backup := s.runs.filterMap Run.work?

/-- The backups of a routine and a kind that runs are at work on. -/
def inProgress (s : Scheduler) (r : String) (k : Kind) : List Backup :=
  s.atWork.filter fun b => b.routine = r ∧ b.kind = k

variable {s : Scheduler}

/-- No two runs are at work on one backup. -/
theorem nodup_atWork (hs : s.Sound) : s.atWork.Nodup := by
  rw [List.nodup_iff_count_le_one]
  intro b
  have hcount : s.atWork.count b = s.runs.countP (fun x => x.Inside b) := by
    rw [atWork, List.count, List.countP_filterMap]
    refine List.countP_congr fun x _ => ?_
    rw [decide_eq_true_eq, ← Run.work?_eq_some_iff]
    cases x.work? <;> simp
  rw [hcount, hs.guards b]
  exact Bool.toNat_le _

theorem carries_of_mem_atWork {b : Backup} (h : b ∈ s.atWork) : s.Carries b := by
  obtain ⟨x, hx, hwork⟩ := List.mem_filterMap.1 h
  obtain ⟨hinside, hjob⟩ := Run.work?_eq_some_iff.1 hwork
  exact .inr (.inr ⟨x, hx, hjob, by simp [Run.ended?, hinside]⟩)

/-- Runs of a routine and a kind are single in flight exactly while they belong to one handler. -/
theorem length_inProgress_le_one_iff (hs : s.Sound) (r : String) (k : Kind) :
    (s.inProgress r k).length ≤ 1 ↔
      ∀ b ∈ s.inProgress r k, ∀ b' ∈ s.inProgress r k, b.handler = b'.handler := by
  have hnodup : (s.inProgress r k).Nodup := (nodup_atWork hs).filter _
  have hkind : ∀ b ∈ s.inProgress r k, b.routine = r ∧ b.kind = k := fun b hb =>
    of_decide_eq_true (List.mem_filter.1 hb).2
  obtain ⟨l, hl⟩ : ∃ l, l = s.inProgress r k := ⟨_, rfl⟩
  rw [← hl] at hnodup hkind ⊢
  constructor
  · intro hlen b hb b' hb'
    match l, hlen with
    | [], _ => cases hb
    | [x], _ => rw [List.mem_singleton.1 hb, List.mem_singleton.1 hb']
  · intro hsame
    match l, hnodup with
    | [], _ => simp
    | [_], _ => simp
    | x :: y :: l, hnodup =>
      -- Two runs of one handler would be at work on one backup.
      have hx := hkind x (by simp)
      have hy := hkind y (by simp)
      have hn : x.handler = y.handler := hsame x (by simp) y (by simp)
      have hxy : x = y := by
        obtain ⟨n, routine, kind⟩ := x
        obtain ⟨n', routine', kind'⟩ := y
        simp only at hx hy hn
        rw [hx.1, hx.2, hy.1, hy.2, hn]
      simp [hxy] at hnodup

end Scheduler

/-! ## Single flight -/

/-- Whatever happens to a new scheduler and the clients that call for its routines, runs of a routine and a kind are
single in flight exactly while they belong to one handler, and always if the history is quiet for the routine. -/
theorem Site.singleFlight {β : Type} (e : Engine β) (w : World β) (evs : List Event) (r : String) (k : Kind) :
    (((((fresh w).run e evs).world.scheduler.inProgress r k).length ≤ 1 ↔
      ∀ b ∈ ((fresh w).run e evs).world.scheduler.inProgress r k,
        ∀ b' ∈ ((fresh w).run e evs).world.scheduler.inProgress r k, b.handler = b'.handler)) ∧
    (Quiet e r (fresh w) evs → (((fresh w).run e evs).world.scheduler.inProgress r k).length ≤ 1) := by
  have hsound : (fresh w).world.scheduler.Sound := Scheduler.sound_default
  have hiff := Scheduler.length_inProgress_le_one_iff (sound_run e hsound evs) r k
  refine ⟨hiff, fun hquiet => hiff.2 fun b hb b' hb' => ?_⟩
  have hone := oneHandler_run hsound hquiet (oneHandler_fresh w r)
  obtain ⟨hwork, hname⟩ := List.mem_filter.1 hb
  obtain ⟨hwork', hname'⟩ := List.mem_filter.1 hb'
  exact hone b b' (.inl (Scheduler.carries_of_mem_atWork hwork)) (.inl (Scheduler.carries_of_mem_atWork hwork'))
    (of_decide_eq_true hname).1 (of_decide_eq_true hname').1

namespace Site

/-- The hourly routine is scheduled, and its first backup begins at once. -/
def firstBackup : List Event :=
  [.start, .schedule World.hourly .zero] ++ List.replicate 4 (.client 0 World.noon) ++ [.turn World.noon, .beginRun 0]

/-- The hourly routine is read anew, and its first backup begins at once again. -/
def secondBackup : List Event :=
  [.apply World.hourly .zero] ++ List.replicate 6 (.client 1 World.noon) ++ [.turn World.noon, .beginRun 1]

/-- The first backup ends and is joined. -/
def firstEnds : List Event := [.finishRun 0 false .zero, .turn World.noon]

/-- A routine that is read anew once its backup is over is in single flight, and its new backup is under way. -/
theorem singleFlight_successive :
    Quiet (World.plainEngine none) "hourly" (fresh {}) (firstBackup ++ firstEnds ++ secondBackup) ∧
    (((fresh {}).run (World.plainEngine none)
      (firstBackup ++ firstEnds ++ secondBackup)).world.scheduler.inProgress "hourly" .full).length ≤ 1 ∧
    ((fresh {}).run (World.plainEngine none)
      (firstBackup ++ firstEnds ++ secondBackup)).world.scheduler.inProgress "hourly" .full ≠ [] := by
  have hquiet : Quiet (World.plainEngine none) "hourly" (fresh {}) (firstBackup ++ firstEnds ++ secondBackup) := by
    decide +kernel
  exact ⟨hquiet, (singleFlight _ {} _ "hourly" .full).2 hquiet, by decide +kernel⟩

/-- A routine that is read anew while its backup is under way is backed up twice at the same time. -/
theorem two_in_flight :
    ((fresh {}).run (World.plainEngine none) (firstBackup ++ secondBackup)).world.scheduler.inProgress "hourly" .full =
      [⟨0, "hourly", .full⟩, ⟨1, "hourly", .full⟩] := by
  decide +kernel

end Site

end Rota
