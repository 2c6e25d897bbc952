import Rota.Proofs.Once
import Rota.Proofs.Recorded

/-!
# Timer passes and the scan of all jobs

A timer pass works on the queue that it goes along, and takes jobs away as it hands them over. It comes to the same as a
scan that looks at every registered job once, hands over those that are due and asks their triggers for the next fire
time (`Dispatcher.ScanLaw`):

- the loop ends by itself: how many entries it may handle beyond the jobs that are due does not matter
  (`Dispatcher.passFor_eq_of_covers`), and afterwards nothing is due (`Dispatcher.later_pass`);
- what it hands over is what the scan hands over (`Dispatcher.fired_perm_dueJobs`), ordered by the fire times
  (`Dispatcher.pairwise_fired`).

The scan asks every trigger for an answer, and a recurring one has none in the last second of the calendar. This is the
only exception: there a pass breaks down exactly if a recurring job is due (`Scheduler.scanLaw_iff`).
-/

namespace Rota

namespace Dispatcher

variable {d : Dispatcher} {now : Instant} {n m : Nat} {x : Dispatch}

/-! ## The scan -/

/-- What a scan of all jobs hands over: every job that is due, at its fire time. -/
def dueJobs (d : Dispatcher) (now : Instant) : List Dispatch := d.jobs.toList.filterMap fun e => e.2.dispatch? now

/-- What it leaves of the jobs: those that are not due, and of the others what their triggers leave. -/
def scanned (d : Dispatcher) (now : Instant) : Std.ExtTreeMap Key Registration :=
  d.jobs.filterMap fun _ r => r.after? now

theorem getElem?_scanned (d : Dispatcher) (now : Instant) (k : Key) :
    (d.scanned now)[k]? = d.jobs[k]?.bind (Registration.after? now) := by
  rw [scanned, Std.ExtTreeMap.getElem?_filterMap, Option.pbind_eq_bind]

theorem mem_dueJobs_iff (hd : d.Tidy) :
    x ∈ d.dueJobs now ↔ d.jobs[x.detail.key]?.bind (Registration.dispatch? now) = some x := by
  rw [dueJobs, List.mem_filterMap, Option.bind_eq_some_iff]
  constructor
  · rintro ⟨⟨k, r⟩, hmem, hdispatch⟩
    have hr : d.jobs[k]? = some r := Std.ExtTreeMap.mem_toList_iff_getElem?_eq_some.1 hmem
    obtain ⟨-, rfl⟩ := Registration.dispatch?_eq_some_iff.1 hdispatch
    exact ⟨r, (hd.key hr).symm ▸ hr, hdispatch⟩
  · rintro ⟨r, hr, hdispatch⟩
    exact ⟨(_, r), Std.ExtTreeMap.mem_toList_iff_getElem?_eq_some.2 hr, hdispatch⟩

/-- A scan hands nothing over twice. -/
theorem nodup_dueJobs (hd : d.Tidy) (now : Instant) : (d.dueJobs now).Nodup := by
  refine List.pairwise_filterMap.2 (Std.ExtTreeMap.distinct_keys_toList.imp_of_mem ?_)
  rintro ⟨k, r⟩ ⟨k', r'⟩ hmem hmem' hkeys x hx _ hx' rfl
  have hkey : r.detail.key = k := hd.key (Std.ExtTreeMap.mem_toList_iff_getElem?_eq_some.1 hmem)
  have hkey' : r'.detail.key = k' := hd.key (Std.ExtTreeMap.mem_toList_iff_getElem?_eq_some.1 hmem')
  obtain ⟨-, rfl⟩ := Registration.dispatch?_eq_some_iff.1 hx
  obtain ⟨-, heq⟩ := Registration.dispatch?_eq_some_iff.1 hx'
  have hsame : r.detail = r'.detail := congrArg Dispatch.detail heq
  exact hkeys (Std.LawfulEqCmp.compare_eq_iff_eq.2 (hkey.symm.trans ((congrArg Detail.key hsame).trans hkey')))

/-- The jobs that a scan hands over are those that are due. -/
theorem Tidy.covers_dueJobs (hd : d.Tidy) (now : Instant) : Covers now ((d.dueJobs now).map (·.detail.key)) d := by
  intro k r hr hdue
  refine List.mem_map.2 ⟨⟨r.detail, r.due⟩, (mem_dueJobs_iff hd).2 ?_, hd.key hr⟩
  show d.jobs[r.detail.key]?.bind _ = _
  rw [hd.key hr, hr, Option.bind_some, Registration.dispatch?_of_le hdue]

theorem Tidy.length_dueJobs_le (hd : d.Tidy) (now : Instant) : (d.dueJobs now).length ≤ d.queue.size := by
  rw [hd.queue, Std.ExtTreeMap.size_map, ← Std.ExtTreeMap.length_toList]
  exact List.length_filterMap_le ..

/-! ## The loop of a pass -/

/-- Where nothing is due a pass does nothing. -/
theorem passFor_of_forall_lt (hd : d.Tidy) (n : Nat)
    (hlater : ∀ (k : Key) (r : Registration), d.jobs[k]? = some r → now < r.due) :
    passFor now n d = { dispatcher := d } := by
  rcases passFor_first hd now with ⟨hp, -⟩ | ⟨k, r, hr, hdue, -⟩
  · exact hp n
  · exact absurd hdue (Int.not_le.2 (hlater k r hr))

theorem Covers.forall_lt (hl : Covers now [] d) (k : Key) (r : Registration) (hr : d.jobs[k]? = some r) :
    now < r.due := Int.not_le.1 fun hdue => List.not_mem_nil (hl hr hdue)

/-- The loop ends by itself: beyond the number of jobs that are due, it does not matter how many entries it may handle.
-/
theorem passFor_eq_of_covers {l : List Key} (hd : d.Tidy) (hparsed : d.Parsed) (hl : Covers now l d)
    (hn : l.length ≤ n) (hm : l.length ≤ m) : passFor now n d = passFor now m d := by
  induction n generalizing d l m with
  | zero =>
    obtain rfl := List.length_eq_zero_iff.1 (Nat.le_zero.1 hn)
    exact (passFor_of_forall_lt hd m hl.forall_lt).symm
  | succ n ih =>
    cases m with
    | zero =>
      obtain rfl := List.length_eq_zero_iff.1 (Nat.le_zero.1 hm)
      exact passFor_of_forall_lt hd (n + 1) hl.forall_lt
    | succ m =>
      rcases passFor_first hd now with ⟨hp, -⟩ | ⟨k, r, hr, hdue, -, ⟨hp, -⟩ | ⟨hp, -⟩⟩
      · rw [hp, hp]
      · have hlength : (l.erase k).length = l.length - 1 := List.length_erase_of_mem (hl hr hdue)
        rw [hp, hp, ih (m := m) (hd.settle hr) (hparsed.settle hr) (hl.settle hd hparsed hr) (by omega) (by omega)]
      · rw [hp, hp]

/-- What a pass hands over is ordered by the fire times, however far the pass comes. -/
theorem pairwise_fired (hd : d.Tidy) (hparsed : d.Parsed) (now : Instant) (n : Nat) :
    (passFor now n d).fired.Pairwise fun x y => x.fireTime ≤ y.fireTime := by
  induction n generalizing d with
  | zero => exact .nil
  | succ n ih =>
    rcases passFor_first hd now with ⟨hp, -⟩ | ⟨k, r, hr, -, hfirst, ⟨hp, -⟩ | ⟨hp, -⟩⟩
    · rw [hp]
      exact .nil
    · rw [hp]
      refine .cons (fun x hx => ?_) (ih (hd.settle hr) (hparsed.settle hr))
      -- What is handed over later was registered from the start, as a job that goes back is not due again.
      obtain ⟨r', hr', rfl, hdue⟩ := fired_spec (hd.settle hr) (hparsed.settle hr) hx
      rw [getElem?_jobs_settle] at hr'
      split at hr'
      · have hlater : now < r'.due := Registration.lt_due_of_fire (hparsed _ _ hr) (fun o => hd.pending hr) hr'
        exact absurd hdue (Int.not_le.2 hlater)
      · exact hfirst _ _ hr'
    · rw [hp]
      exact .nil

/-- A pass breaks down only if a recurring job is due. -/
theorem recursBy_of_broken (hd : d.Tidy) (hparsed : d.Parsed) (hbroken : (passFor now n d).broken = true) :
    d.RecursBy now := by
  induction n generalizing d with
  | zero => cases hbroken
  | succ n ih =>
    rcases passFor_first hd now with ⟨hp, -⟩ | ⟨k, r, hr, hdue, -, ⟨hp, -⟩ | ⟨-, hover⟩⟩
    · rw [hp] at hbroken
      cases hbroken
    · rw [hp] at hbroken
      obtain ⟨k', r', c, hr', hc, hdue'⟩ := ih (hd.settle hr) (hparsed.settle hr) hbroken
      rw [getElem?_jobs_settle] at hr'
      split at hr'
      · have hlater : now < r'.due := Registration.lt_due_of_fire (hparsed _ _ hr) (fun o => hd.pending hr) hr'
        exact absurd hdue' (Int.not_le.2 hlater)
      · exact ⟨k', r', c, hr', hc, hdue'⟩
    · cases ht : r.trigger with
      | recurring c => exact ⟨k, r, c, hr, ht, hdue⟩
      | once o =>
        rw [ht] at hover
        simp [Trigger.next, RunOnce.next, hd.pending hr ht] at hover

/-! ## Passes that come to their end -/

section Whole

variable (hd : d.Tidy) (hparsed : d.Parsed) (hbroken : (d.pass now).broken = false)
include hd hparsed hbroken

theorem mem_fired_iff : x ∈ (d.pass now).fired ↔ d.jobs[x.detail.key]?.bind (Registration.dispatch? now) = some x := by
  rw [← Option.mem_toList, ← fired_pass hd hparsed hbroken, List.mem_filter]
  simp

/-- A pass hands nothing over twice. -/
theorem nodup_fired : (d.pass now).fired.Nodup := by
  refine List.nodup_iff_count_le_one.2 fun x => ?_
  have hkey : decide (x.detail.key = x.detail.key) = true := decide_eq_true rfl
  rw [← List.count_filter (p := fun y => decide (y.detail.key = x.detail.key)) hkey, fired_pass hd hparsed hbroken]
  refine Nat.le_trans List.count_le_length ?_
  cases d.jobs[x.detail.key]?.bind (Registration.dispatch? now) <;> simp

/-- A pass hands over what the scan hands over. -/
theorem fired_perm_dueJobs : (d.pass now).fired.Perm (d.dueJobs now) := by
  refine (List.perm_ext_iff_of_nodup (nodup_fired hd hparsed hbroken) (nodup_dueJobs hd now)).2 fun x => ?_
  rw [mem_fired_iff hd hparsed hbroken, mem_dueJobs_iff hd]

theorem jobs_pass_eq_scanned : (d.pass now).dispatcher.jobs = d.scanned now := by
  refine Std.ExtTreeMap.ext_getElem? fun k => ?_
  rw [jobs_pass hd hparsed hbroken, getElem?_scanned]

/-- After a pass nothing is due. -/
theorem later_pass (k : Key) (r : Registration) (hr : (d.pass now).dispatcher.jobs[k]? = some r) : now < r.due := by
  rw [jobs_pass hd hparsed hbroken] at hr
  obtain ⟨r', hr', hafter⟩ := Option.bind_eq_some_iff.1 hr
  by_cases hdue : now < r'.due
  · rw [Registration.after?_of_lt hdue] at hafter
    obtain rfl := Option.some.inj hafter
    exact hdue
  · rw [Registration.after?_of_le (Instant.not_lt.1 hdue)] at hafter
    exact Registration.lt_due_of_fire (hparsed _ _ hr') (fun o => hd.pending hr') hafter

end Whole

/-! ## The law -/

/-- A timer pass comes to the same as a scan of all jobs. -/
structure ScanLaw (d : Dispatcher) (now : Instant) : Prop where
  /-- The pass comes to its end. -/
  unbroken : (d.pass now).broken = false
  /-- Its loop ends by itself, at the latest after as many entries as jobs are due. -/
  ends : ∀ n, (d.dueJobs now).length ≤ n → passFor now n d = d.pass now
  /-- It hands over what the scan hands over. -/
  fired : (d.pass now).fired.Perm (d.dueJobs now)
  /-- A job that is due is handed over once, at its fire time, and any other is not. -/
  each : ∀ k, (d.pass now).fired.filter (·.detail.key = k) = (d.jobs[k]?.bind (Registration.dispatch? now)).toList
  /-- Jobs that are due sooner are handed over first. -/
  ordered : (d.pass now).fired.Pairwise fun x y => x.fireTime ≤ y.fireTime
  /-- It leaves of the jobs what the scan leaves. -/
  jobs : (d.pass now).dispatcher.jobs = d.scanned now
  /-- The queue is the jobs with their pending fire times. -/
  queue : (d.pass now).dispatcher.queue = (d.scanned now).map fun _ r => r.due
  /-- All of them lie ahead. -/
  later : ∀ (k : Key) (r : Registration), (d.scanned now)[k]? = some r → now < r.due
  registry : (d.pass now).dispatcher.registry = d.registry
  /-- A second pass at the same reading does nothing. -/
  again : (d.pass now).dispatcher.pass now = { dispatcher := (d.pass now).dispatcher }

/-- A pass that comes to its end obeys the law. -/
theorem scanLaw_of_unbroken (hd : d.Tidy) (hparsed : d.Parsed) (hbroken : (d.pass now).broken = false) :
    d.ScanLaw now where
  unbroken := hbroken
  ends n hn := passFor_eq_of_covers hd hparsed (hd.covers_dueJobs now) (by simpa using hn)
    (by simpa using hd.length_dueJobs_le now)
  fired := fired_perm_dueJobs hd hparsed hbroken
  each := fired_pass hd hparsed hbroken
  ordered := pairwise_fired hd hparsed now _
  jobs := jobs_pass_eq_scanned hd hparsed hbroken
  queue := jobs_pass_eq_scanned hd hparsed hbroken ▸ (hd.passFor hbroken).queue
  later k r hr := later_pass hd hparsed hbroken k r (jobs_pass_eq_scanned hd hparsed hbroken ▸ hr)
  registry := registry_passFor ..
  again := passFor_of_forall_lt (hd.passFor hbroken) _ (later_pass hd hparsed hbroken)

end Dispatcher

namespace Scheduler

variable {s : Scheduler}

/-- In every state that a scheduler comes to, and at every reading of the clock, a timer pass comes to the same as a
scan of all jobs; only in the last second of the calendar, if a recurring job is due, it breaks down. -/
theorem scanLaw_iff (hs : s.Reachable) (halive : s.phase ≠ .broken) (now : Instant) :
    s.dispatcher.ScanLaw now ↔ ¬ (Instant.lastSecond ≤ now.second ∧ s.dispatcher.RecursBy now) := by
  have hd : s.dispatcher.Tidy := hs.ordered.tidy halive
  have hparsed : s.dispatcher.Parsed := hs.ordered.parsed halive
  constructor
  · rintro hlaw ⟨hlast, hrecurs⟩
    obtain ⟨hbroken, -⟩ := Dispatcher.broken_of_recurs hd hparsed (hd.covers now)
      (Nat.le_of_eq Std.ExtTreeMap.length_keys) hlast hrecurs (Int.le_refl _)
    cases hlaw.unbroken.symm.trans hbroken
  · intro hexcept
    refine Dispatcher.scanLaw_of_unbroken hd hparsed (Bool.eq_false_iff.2 fun hbroken => ?_)
    exact hexcept ⟨Dispatcher.second_of_broken hd hbroken, Dispatcher.recursBy_of_broken hd hparsed hbroken⟩

/-- What a scheduler comes to by a move can be reached, too. -/
theorem Reachable.move {m : Move} (hs : s.Reachable) (hm : m.Parsed) : (s.move m).Reachable := by
  obtain ⟨ms, hms, rfl⟩ := hs
  refine ⟨ms ++ [m], fun m' hm' => ?_, moves_append ..⟩
  rcases List.mem_append.1 hm' with h | h
  · exact hms m' h
  · exact List.mem_singleton.1 h ▸ hm

/-- A chore that is to be done every minute and one that is to be done in an hour are registered at noon. -/
def chimingAtNoon : Scheduler := chiming.move (.turn World.noon)

theorem reachable_chimingAtNoon : chimingAtNoon.Reachable := reachable_chiming.move (m := .turn World.noon) trivial

/-- Two hours later a pass hands over the first, which is long overdue, and then the second. -/
theorem scanLaw_chiming :
    chimingAtNoon.dispatcher.ScanLaw (.ofSecond 1714572000) ∧
    (chimingAtNoon.dispatcher.pass (.ofSecond 1714572000)).fired =
      [⟨tick, .ofSecond 1714564860⟩, ⟨chime, .ofSecond 1714568400⟩] := by
  refine ⟨(scanLaw_iff reachable_chimingAtNoon (by decide +kernel) _).2 ?_, by decide +kernel⟩
  rintro ⟨hlast, -⟩
  exact absurd hlast (by decide)

/-- In the last second of the calendar the pass breaks down over the first. -/
theorem not_scanLaw_chiming :
    chimingAtNoon.Reachable ∧ chimingAtNoon.phase ≠ .broken ∧
    ¬ chimingAtNoon.dispatcher.ScanLaw (.ofSecond Instant.lastSecond) := by
  refine ⟨reachable_chimingAtNoon, by decide +kernel, fun hlaw => ?_⟩
  have hbroken : (chimingAtNoon.dispatcher.pass (.ofSecond Instant.lastSecond)).broken = true := by decide +kernel
  cases hlaw.unbroken.symm.trans hbroken

end Scheduler

end Rota
