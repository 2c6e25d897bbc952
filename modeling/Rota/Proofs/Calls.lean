import Rota.Proofs.Flight
import Rota.Rehearsal.Nested

/-!
# Calls of a backup

A full and an incremental backup of one handler are called any number of times, from outside and from inside the
handler. Each call begins with one attempt to acquire the guard and ends by dropping its permit, and the beginnings and
ends of all calls come in any order (`BackupPair.Step`).

- what an attempt does is decided by the guard (`begin_of_free`, `begin_of_running`), which is taken exactly while a
  call is inside the handler (`inside_eq`);
- an end frees the guard if the call was inside, also in a panic, and leaves it otherwise (`running_finish`);
- so at most one call of a backup is inside the handler, and every call is delegated to the method of its own kind or
  counted as a skip of its own kind (`calls_accounted`);
- calls from inside the handler are such steps as well (`exists_steps_of_run`).
-/

namespace Rota.BackupPair

/-! ## Steps -/

/-- A step of the calls: one begins, or one ends. -/
inductive Step
  | begin (now : Instant) (kind : Kind)
  | finish (id : Nat) (panicked : Bool)
deriving DecidableEq

/-- The kind of the call that begins in a step. -/
def Step.kind? : Step → Option Kind
  | .begin _ kind => some kind
  | .finish .. => none

def step (p : BackupPair) : Step → BackupPair
  | .begin now kind => (p.begin now kind).1
  | .finish id panicked => p.finish id panicked

/-- The pair after steps in a row. -/
def steps (p : BackupPair) (xs : List Step) : BackupPair := xs.foldl step p

/-- The calls that begin in a history, in their order: the kind of each, and the call of the handler it is delegated to.
-/
def calls : BackupPair → List Step → List (Kind × Option NestedCall)
  | _, [] => []
  | p, .begin now kind :: xs => (kind, (p.begin now kind).2.2) :: calls (p.begin now kind).1 xs
  | p, .finish id panicked :: xs => calls (p.finish id panicked) xs

/-- The number of calls of a backup that are inside the handler. -/
def inside (p : BackupPair) (kind : Kind) : Nat := p.scheduler.runs.countP fun r => r.Inside (p.backup kind)

variable {p : BackupPair} {kind : Kind} {now : Instant} {id : Nat} {panicked : Bool} {xs : List Step}

theorem backup_injective {j : Kind} (h : p.backup j = p.backup kind) : j = kind := congrArg Backup.kind h

theorem call_backup (p : BackupPair) (kind : Kind) (now : Instant) :
    ((p.backup kind).call now).kind = kind ∧ ((p.backup kind).call now).time = now := by
  cases kind <;> exact ⟨rfl, rfl⟩

theorem sound_step (hp : p.scheduler.Sound) (x : Step) : (p.step x).scheduler.Sound := by
  cases x with
  | begin now kind => exact Scheduler.sound_beginRun (Scheduler.sound_launch hp _) _
  | finish id panicked => exact Scheduler.sound_finishRun hp id panicked _

theorem sound_steps (hp : p.scheduler.Sound) (xs : List Step) : (p.steps xs).scheduler.Sound := by
  induction xs generalizing p with
  | nil => exact hp
  | cons x xs ih => exact ih (sound_step hp x)

section Sound

variable (hp : p.scheduler.Sound)
include hp

/-- The guard of a backup is taken exactly while a call of it is inside the handler, and no second one is. -/
theorem inside_eq (kind : Kind) : p.inside kind = (p.running kind).toNat := hp.guards _

/-! ## Beginnings -/

/-- The run of a call that begins. -/
theorem run?_begin (kind : Kind) (now : Instant) :
    (p.scheduler.launch [⟨⟨⟨p.routine, some kind⟩, .backup (p.backup kind)⟩, now⟩]).run? p.scheduler.nextRun =
      some ⟨p.scheduler.nextRun, ⟨⟨p.routine, some kind⟩, .backup (p.backup kind)⟩, now, .waiting⟩ :=
  Scheduler.run?_launch hp _

/-- A call that finds the guard free takes it and calls the method of its own kind. No skip is counted. -/
theorem begin_of_free (now : Instant) (hfree : p.running kind = false) :
    (∃ c, (p.begin now kind).2.2 = some c ∧ c.kind = kind ∧ c.time = now) ∧
      (p.begin now kind).1.scheduler.metrics = p.scheduler.metrics ∧
      ∀ j, (p.begin now kind).1.running j = (p.running j || j = kind) := by
  obtain ⟨hdelegated, hbegin⟩ := Scheduler.beginRun_of_free (run?_begin hp kind now) rfl rfl hfree
  obtain ⟨hkind, htime⟩ := call_backup p kind now
  refine ⟨?_, ?_, fun j => ?_⟩
  · unfold begin Scheduler.handlerCall?
    simp only [hdelegated, Option.map_some]
    exact ⟨_, rfl, hkind, htime⟩
  · unfold begin
    simp only [hbegin]
    rfl
  · unfold begin running
    simp only [hbegin]
    show ((p.scheduler.guards.insert (p.backup kind) ⟨true⟩).getD (p.backup j) {}).taken = _
    simp only [Std.ExtTreeMap.getD_insert, Std.LawfulEqCmp.compare_eq_iff_eq]
    by_cases hj : j = kind
    · subst hj
      simp
    · have hne : p.backup kind ≠ p.backup j := fun h => hj (backup_injective h).symm
      simp only [hne, hj, ↓reduceIte, decide_false, Bool.or_false]
      rfl

/-- A call that finds the guard taken calls nothing, and one skip of its own kind is counted. -/
theorem begin_of_running (now : Instant) (hrunning : p.running kind = true) :
    (p.begin now kind).2.2 = none ∧
      (p.begin now kind).1.scheduler.metrics = p.scheduler.metrics.skip kind ∧
      ∀ j, (p.begin now kind).1.running j = p.running j := by
  obtain ⟨hdelegated, hbegin⟩ := Scheduler.beginRun_of_taken (run?_begin hp kind now) rfl rfl hrunning
  refine ⟨?_, ?_, fun j => ?_⟩
  · unfold begin Scheduler.handlerCall?
    simp only [hdelegated, Option.map_none]
  · unfold begin
    simp only [hbegin]
    rfl
  · unfold begin running
    simp only [hbegin]
    rfl

/-! ## Ends -/

omit hp in
/-- An end counts no skip. -/
theorem skipped_finish (id : Nat) (panicked : Bool) (j : Kind) :
    (p.finish id panicked).scheduler.metrics.skipped j = p.scheduler.metrics.skipped j := by
  unfold finish Scheduler.finishRun
  dsimp only
  split
  · rename_i job _ _
    cases job <;> cases panicked <;> cases j <;> rfl
  · cases j <;> rfl
  · rfl

omit hp in
/-- A call that ends, also in a panic, frees the guard if it was inside the handler, and leaves it otherwise. -/
theorem running_finish {r : Run} (hr : p.scheduler.run? id = some r) (panicked : Bool) :
    (p.finish id panicked).running kind = (p.running kind && !decide (r.Inside (p.backup kind))) := by
  obtain ⟨i, ⟨key, job⟩, fireTime, status⟩ := r
  unfold finish running Scheduler.finishRun
  simp only [hr]
  cases status with
  | waiting => simp [Run.Inside, backup]
  | skipping => simp [Run.Inside, Scheduler.setStatus, Scheduler.recordDuration, Scheduler.withMetrics, Scheduler.guard,
      backup]
  | ended q => simp [Run.Inside, backup]
  | inside =>
    cases job with
    | chore label panics =>
      cases panicked <;> simp [Run.Inside, Scheduler.setStatus, Scheduler.recordDuration, Scheduler.withMetrics,
        Scheduler.releaseGuard, Scheduler.guard, backup]
    | backup b =>
      by_cases hb : b = p.backup kind
      · subst hb
        cases panicked <;> simp [Run.Inside, Scheduler.setStatus, Scheduler.recordDuration, Scheduler.withMetrics,
          Scheduler.releaseGuard, Scheduler.guard, Guard.release, backup]
      · have hb' : ¬ b = ⟨0, p.routine, kind⟩ := hb
        cases panicked <;> simp [Run.Inside, Scheduler.setStatus, Scheduler.recordDuration, Scheduler.withMetrics,
          Scheduler.releaseGuard, Scheduler.guard, Std.ExtTreeMap.getD_insert, backup, hb']

/-! ## Single flight -/

/-- Whatever comes of a call that begins, one call of its kind is inside then. -/
theorem inside_begin (now : Instant) (kind j : Kind) :
    (p.begin now kind).1.inside j = if j = kind then 1 else p.inside j := by
  have hsound : (p.begin now kind).1.scheduler.Sound := sound_step hp (.begin now kind)
  have hrunning : (p.begin now kind).1.running j = (p.running j || j = kind) := by
    cases h : p.running kind with
    | false => exact (begin_of_free hp now h).2.2 j
    | true =>
      rw [(begin_of_running hp now h).2.2 j]
      by_cases hj : j = kind
      · rw [hj, h, Bool.true_or]
      · simp [hj]
  rw [inside_eq hsound, hrunning, inside_eq hp]
  by_cases hj : j = kind
  · simp [hj]
  · simp [hj]

/-- A call that ends leaves the handler if it was inside, and leaves the others there. -/
theorem inside_finish {r : Run} (hr : p.scheduler.run? id = some r) (panicked : Bool) (kind : Kind) :
    (p.finish id panicked).inside kind = if r.Inside (p.backup kind) then 0 else p.inside kind := by
  have hsound : (p.finish id panicked).scheduler.Sound := sound_step hp (.finish id panicked)
  rw [inside_eq hsound, running_finish hr, inside_eq hp]
  split
  · simp [*]
  · simp [*]

/-- What holds of the calls of a backup at any time. -/
structure OneAtATime (p : BackupPair) (kind : Kind) : Prop where
  /-- At most one call is inside the handler. -/
  atMostOne : p.inside kind ≤ 1
  /-- The guard is free exactly while none is. -/
  free_iff : p.running kind = false ↔ p.inside kind = 0
  /-- A call that begins is delegated exactly if none is inside. -/
  delegated_iff : ∀ now, (p.begin now kind).2.2.isSome ↔ p.inside kind = 0
  /-- It is delegated to the method of its own kind, at the time of the call. -/
  own : ∀ now c, (p.begin now kind).2.2 = some c → c.kind = kind ∧ c.time = now
  /-- A call that is not delegated is one skip of its own kind. -/
  skipped_begin : ∀ now j, (p.begin now kind).1.scheduler.metrics.skipped j =
    p.scheduler.metrics.skipped j + if j = kind ∧ p.inside kind ≠ 0 then 1 else 0
  /-- Then one call of the kind is inside, and the calls of the other kind are where they were. -/
  inside_begin : ∀ now j, (p.begin now kind).1.inside j = if j = kind then 1 else p.inside j
  /-- An end, also in a panic, takes the call that ends out of the handler, and no other. -/
  inside_finish : ∀ id r panicked, p.scheduler.run? id = some r →
    (p.finish id panicked).inside kind = if r.Inside (p.backup kind) then 0 else p.inside kind
  /-- An end is no skip. -/
  skipped_finish : ∀ id panicked j,
    (p.finish id panicked).scheduler.metrics.skipped j = p.scheduler.metrics.skipped j

/-- A sound pair lets one call of each kind at a time inside the handler. -/
theorem oneAtATime_of_sound (kind : Kind) : p.OneAtATime kind := by
  have hcount := inside_eq hp kind
  have hfree : p.running kind = false ↔ p.inside kind = 0 := by
    rw [hcount]
    cases p.running kind <;> simp
  refine ⟨?_, hfree, fun now => ?_, fun now c hc => ?_, fun now j => ?_, fun now j => inside_begin hp now kind j,
    fun id r panicked hr => inside_finish hp hr panicked kind, skipped_finish⟩
  · rw [hcount]
    exact Bool.toNat_le _
  · rw [← hfree]
    cases h : p.running kind with
    | false =>
      obtain ⟨⟨c, hc, -⟩, -⟩ := begin_of_free hp now h
      simp [hc]
    | true => simp [(begin_of_running hp now h).1]
  · cases h : p.running kind with
    | false =>
      obtain ⟨⟨c', hc', hkind, htime⟩, -⟩ := begin_of_free hp now h
      cases hc.symm.trans hc'
      exact ⟨hkind, htime⟩
    | true =>
      rw [(begin_of_running hp now h).1] at hc
      cases hc
  · cases h : p.running kind with
    | false =>
      rw [(begin_of_free hp now h).2.1]
      simp [hfree.1 h]
    | true =>
      have hinside : p.inside kind ≠ 0 := by
        rw [hcount, h]
        decide
      rw [(begin_of_running hp now h).2.1, Metrics.skipped_skip]
      by_cases hj : kind = j
      · simp [hj, hj ▸ hinside]
      · simp [hj, Ne.symm hj]

/-! ## Histories -/

/-- Every call is delegated to its own kind, or skipped and counted. -/
theorem calls_spec (xs : List Step) :
    (calls p xs).map Prod.fst = xs.filterMap Step.kind? ∧
      (∀ x ∈ calls p xs, ∀ c ∈ x.2, c.kind = x.1) ∧
      ∀ j, (p.steps xs).scheduler.metrics.skipped j =
        p.scheduler.metrics.skipped j + UInt64.ofNat ((calls p xs).count (j, none)) := by
  induction xs generalizing p with
  | nil => exact ⟨rfl, by simp [calls], fun j => (UInt64.add_zero _).symm⟩
  | cons x xs ih =>
    obtain ⟨hkinds, hown, hskips⟩ := ih (sound_step hp x)
    cases x with
    | finish id panicked =>
      refine ⟨hkinds, hown, fun j => ?_⟩
      exact (hskips j).trans (congrArg (· + _) (skipped_finish id panicked j))
    | begin now kind =>
      have hfirst : (calls p (.begin now kind :: xs)).map Prod.fst = (Step.begin now kind :: xs).filterMap Step.kind? :=
        congrArg (kind :: ·) hkinds
      cases hrunning : p.running kind with
      | false =>
        obtain ⟨⟨c, hc, hkind, -⟩, hmetrics, -⟩ := begin_of_free hp now hrunning
        refine ⟨hfirst, fun x hx => ?_, fun j => ?_⟩
        · rcases List.mem_cons.1 hx with rfl | hx
          · simp [hc, hkind]
          · exact hown x hx
        · rw [calls, hc, List.count_cons_of_ne (by simp), ← hmetrics]
          exact hskips j
      | true =>
        obtain ⟨hc, hmetrics, -⟩ := begin_of_running hp now hrunning
        refine ⟨hfirst, fun x hx => ?_, fun j => ?_⟩
        · rcases List.mem_cons.1 hx with rfl | hx
          · simp [hc]
          · exact hown x hx
        · have hj := hskips j
          change (p.steps (.begin now kind :: xs)).scheduler.metrics.skipped j =
            (p.begin now kind).1.scheduler.metrics.skipped j + _ at hj
          rw [hj, hmetrics, Metrics.skipped_skip, calls, hc, List.count_cons]
          by_cases hkj : kind = j
          · subst hkj
            simp only [↓reduceIte, beq_self_eq_true]
            rw [UInt64.ofNat_add, UInt64.add_assoc, UInt64.add_comm 1]
            rfl
          · have hne : ((kind, none) == ((j, none) : Kind × Option NestedCall)) = false := by simp [hkj]
            simp only [hkj, hne, ↓reduceIte, Bool.false_eq_true, Nat.add_zero]
            rfl

end Sound

/-- What is noted of the calls is what was delegated, and what was not is a skip. -/
theorem countP_calls (l : List (Kind × Option NestedCall)) (kind : Kind) :
    l.countP (fun x => x.1 = kind ∧ x.2.isSome) + l.count (kind, none) = (l.map Prod.fst).count kind := by
  induction l with
  | nil => rfl
  | cons x l ih =>
    obtain ⟨j, c⟩ := x
    rw [List.countP_cons, List.count_cons, List.map_cons, List.count_cons, ← ih]
    by_cases hj : j = kind
    · cases c <;> simp [hj] <;> omega
    · simp [hj]

/-- Calls from outside and inside the handler, whatever their order and whether they panic: one call of a kind at a
time is inside the handler, each call is delegated to the method of its own kind or skipped, and the skips of a kind
are counted as such. -/
theorem calls_accounted (routine : String) (xs : List Step) (kind : Kind) :
    let p := steps { routine } xs
    let cs := calls { routine } xs
    p.OneAtATime kind ∧ (∀ x ∈ cs, ∀ c ∈ x.2, c.kind = x.1) ∧ cs.map Prod.fst = xs.filterMap Step.kind? ∧
      cs.countP (fun x => x.1 = kind ∧ x.2.isSome) + cs.count (kind, none) = (xs.filterMap Step.kind?).count kind ∧
      p.scheduler.metrics.skipped kind = UInt64.ofNat (cs.count (kind, none)) := by
  have hsound : ({ routine } : BackupPair).scheduler.Sound := Scheduler.sound_default
  obtain ⟨hkinds, hown, hskips⟩ := calls_spec hsound xs
  refine ⟨oneAtATime_of_sound (sound_steps hsound xs) kind, hown, hkinds, ?_, ?_⟩
  · rw [← hkinds]
    exact countP_calls _ kind
  · rw [hskips kind]
    cases kind <;> exact UInt64.zero_add _

/-! ## Calls from inside the handler -/

theorem steps_append (p : BackupPair) (xs ys : List Step) : p.steps (xs ++ ys) = (p.steps xs).steps ys :=
  List.foldl_append

theorem calls_append (p : BackupPair) (xs ys : List Step) :
    calls p (xs ++ ys) = calls p xs ++ calls (p.steps xs) ys := by
  induction xs generalizing p with
  | nil => rfl
  | cons x xs ih =>
    cases x with
    | begin now kind => exact congrArg (_ :: ·) (ih _)
    | finish id panicked => exact ih _

/-- The calls that a handler makes one after another are steps. -/
theorem exists_steps_of_inner (now : Instant) (kinds : List Kind) (p : BackupPair) :
    ∃ xs, inner now kinds p = (p.steps xs, (calls p xs).filterMap Prod.snd) := by
  induction kinds generalizing p with
  | nil => exact ⟨[], rfl⟩
  | cons kind kinds ih =>
    obtain ⟨xs, hxs⟩ := ih (((p.begin now kind).1).finish (p.begin now kind).2.1 false)
    refine ⟨.begin now kind :: .finish (p.begin now kind).2.1 false :: xs, ?_⟩
    rw [inner]
    simp only [hxs, calls, List.filterMap_cons]
    cases (p.begin now kind).2.2 <;> rfl

/-- A call whose handler calls others and then may panic is a row of steps, and the calls that get to the handler are
those that are noted. -/
theorem exists_steps_of_run (p : BackupPair) (now : Instant) (kind : Kind) (nest : List Kind) (panic : Bool) :
    ∃ xs, (p.run now kind nest panic).1 = p.steps xs ∧
      (p.run now kind nest panic).2.1 = (calls p xs).filterMap Prod.snd := by
  cases hc : (p.begin now kind).2.2 with
  | none =>
    refine ⟨[.begin now kind, .finish (p.begin now kind).2.1 false], ?_⟩
    simp only [run, hc, calls, List.filterMap_cons, List.filterMap_nil, and_true]
    rfl
  | some c =>
    obtain ⟨xs, hxs⟩ := exists_steps_of_inner now nest (p.begin now kind).1
    refine ⟨.begin now kind :: (xs ++ [.finish (p.begin now kind).2.1 panic]), ?_⟩
    simp only [run, hc, hxs, calls, calls_append, List.append_nil, List.filterMap_cons, and_true]
    exact (steps_append (p.begin now kind).1 xs [.finish (p.begin now kind).2.1 panic]).symm

end Rota.BackupPair
