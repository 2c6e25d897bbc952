import Rota.Proofs.Search
import Rota.Proofs.Tidy

/-!
# Timer passes, job by job

A timer pass takes the entries of the queue one after another, and the jobs it fires go back to the queue. Over tidy
stores it comes to the same as if every job were looked at once: a job that is due at the clock reading is handed over
at its fire time and asked for the next one, and any other is left alone.

- the next fire time of a job that was fired lies after the reading, so that no job is fired twice (`lt_due_of_fire`);
- a pass registers nothing and does not touch what is not due, however far it comes (`mem_jobs_passFor`,
  `passFor_of_later`);
- a pass does to every job what `Registration.dispatch?` and `Registration.after?` say (`jobs_pass`, `fired_pass`);
- passes and commands break the dispatcher down only in the last second of the calendar (`second_of_broken`,
  `second_of_handle_none`).
-/

namespace Rota

/-! ## Triggers that were made from expressions -/

/-- A recurring trigger was made from an expression. -/
def Trigger.Parsed : Trigger → Prop
  | recurring c => ∃ e, Recurring.parse e = .ok c
  | once _ => True

namespace Trigger

variable {t t' : Trigger} {now due : Instant}

theorem parsed_of_next {a : NextFire} (ht : t.Parsed) (h : t.next now = (t', a)) : t'.Parsed := by
  cases t with
  | recurring c =>
    cases h
    exact ht
  | once o =>
    cases h
    trivial

/-- A trigger is asked beyond the end of the calendar only in its last second. -/
theorem second_of_next_overrun (h : (t.next now).2 = .overrun) : Instant.lastSecond ≤ now.second := by
  cases t with
  | recurring c => exact Recurring.next_eq_overrun_iff.1 h
  | once o =>
    simp only [next, RunOnce.next] at h
    split at h
    · split at h <;> cases h
    · cases h
    · cases h

end Trigger

namespace Registration

/-- What a timer pass hands over for a registration. -/
def dispatch? (now : Instant) (r : Registration) : Option Dispatch :=
  if now < r.due then none else some ⟨r.detail, r.due⟩

/-- What a timer pass leaves of a registration. -/
def after? (now : Instant) (r : Registration) : Option Registration := if now < r.due then some r else r.fire now

section

variable {now : Instant} {r : Registration}

theorem dispatch?_of_lt (h : now < r.due) : r.dispatch? now = none := if_pos h

theorem dispatch?_of_le (h : r.due ≤ now) : r.dispatch? now = some ⟨r.detail, r.due⟩ := if_neg (Instant.not_lt.2 h)

theorem dispatch?_eq_some_iff {x : Dispatch} : r.dispatch? now = some x ↔ r.due ≤ now ∧ x = ⟨r.detail, r.due⟩ := by
  by_cases hdue : r.due ≤ now
  · rw [dispatch?_of_le hdue, Option.some_inj, and_iff_right hdue, eq_comm]
  · rw [dispatch?_of_lt (Int.not_le.1 hdue)]
    exact ⟨nofun, fun h => absurd h.1 hdue⟩

theorem after?_of_lt (h : now < r.due) : r.after? now = some r := if_pos h

theorem after?_of_le (h : r.due ≤ now) : r.after? now = r.fire now := if_neg (Instant.not_lt.2 h)

end

/-- A trigger fires next after the reading of the pass. -/
theorem lt_due_of_fire {now : Instant} {r r' : Registration} (hparsed : r.trigger.Parsed)
    (hpending : ∀ o, r.trigger = .once o → o.progress = .pending) (h : r.fire now = some r') : now < r'.due := by
  obtain ⟨-, hnext⟩ := fire_eq_some_iff.1 h
  cases ht : r.trigger with
  | recurring c =>
    rw [ht] at hnext hparsed
    obtain ⟨e, he⟩ := hparsed
    exact Recurring.lt_of_next he (congrArg Prod.snd hnext)
  | once o =>
    simp [ht, Trigger.next, RunOnce.next, hpending o ht] at hnext

end Registration

namespace Dispatcher

variable {d d' : Dispatcher} {now : Instant} {n : Nat}

/-- Every registered trigger that recurs was made from an expression. -/
def Parsed (d : Dispatcher) : Prop := ∀ (k : Key) (r : Registration), d.jobs[k]? = some r → r.trigger.Parsed

theorem Parsed.settle (hd : d.Parsed) {k : Key} {r : Registration} (hr : d.jobs[k]? = some r) :
    (d.settle k (r.fire now)).Parsed := by
  intro k' r' h
  rw [getElem?_jobs_settle] at h
  split at h
  · exact Trigger.parsed_of_next (hd _ _ hr) (Registration.fire_eq_some_iff.1 h).2
  · exact hd _ _ h

/-! ## What a pass leaves alone -/

/-- A timer pass registers no key that was free. -/
theorem mem_jobs_passFor {k : Key} (hk : k ∈ (passFor now n d).dispatcher.jobs) : k ∈ d.jobs := by
  induction n generalizing d with
  | zero => exact hk
  | succ n ih =>
    unfold passFor at hk
    split at hk
    · exact hk
    · split at hk
      · exact hk
      · dsimp only at hk
        split at hk
        · have hpopped := ih hk
          exact hpopped
        · rename_i hr
          split at hk
          · -- The job that goes back stood under its key before.
            rcases Std.ExtTreeMap.mem_insert.1 (ih hk) with hkey | hold
            · rw [← Std.LawfulEqCmp.compare_eq_iff_eq.1 hkey]
              exact Std.ExtTreeMap.mem_iff_isSome_getElem?.2 (Option.isSome_of_eq_some hr)
            · exact hold
          · exact Std.ExtTreeMap.mem_of_mem_erase (ih hk)
          · exact hk

/-- A pass does not touch what is not due, however far it comes. -/
theorem passFor_of_later {k : Key} (hd : d.Tidy) (hlater : ∀ r, d.jobs[k]? = some r → now < r.due) :
    (passFor now n d).dispatcher.jobs[k]? = d.jobs[k]? ∧
      (passFor now n d).fired.filter (·.detail.key = k) = [] := by
  induction n generalizing d with
  | zero => exact ⟨rfl, rfl⟩
  | succ n ih =>
    rcases passFor_succ_cases hd now n with ⟨hp, -⟩ | ⟨k', r', hr', hdue, ⟨hp, -⟩ | ⟨hp, -⟩⟩
    · rw [hp]
      exact ⟨rfl, rfl⟩
    · have hk : k' ≠ k := by
        rintro rfl
        exact absurd hdue (Int.not_le.2 (hlater r' hr'))
      have hsame : (d.settle k' (r'.fire now)).jobs[k]? = d.jobs[k]? := by
        rw [getElem?_jobs_settle, if_neg hk]
      obtain ⟨hjobs, hfired⟩ := ih (hd.settle hr') (hsame ▸ hlater)
      rw [hp]
      refine ⟨hjobs.trans hsame, ?_⟩
      rw [Pass.after, List.filter_cons_of_neg (by simpa [hd.key hr'] using hk)]
      exact hfired
    · rw [hp]
      exact ⟨rfl, rfl⟩

/-! ## A pass that comes to its end -/

/-- The keys of the list are those of all jobs that are due. -/
def Covers (now : Instant) (l : List Key) (d : Dispatcher) : Prop :=
  ∀ {k : Key} {r : Registration}, d.jobs[k]? = some r → r.due ≤ now → k ∈ l

/-- The queue of tidy stores has the keys of all jobs, and so of those that are due. -/
theorem Tidy.covers (hd : d.Tidy) (now : Instant) : Covers now d.queue.keys d := by
  intro k r hr _
  rw [hd.queue, Std.ExtTreeMap.keys_map]
  exact Std.ExtTreeMap.mem_keys.2 (Std.ExtTreeMap.mem_iff_isSome_getElem?.2 (by rw [hr]; rfl))

/-- A job that was fired is not due again. -/
theorem Covers.settle {l : List Key} (hl : Covers now l d) (hd : d.Tidy) (hparsed : d.Parsed) {k : Key}
    {r : Registration} (hr : d.jobs[k]? = some r) : Covers now (l.erase k) (d.settle k (r.fire now)) := by
  intro k' r' h hdue
  rw [getElem?_jobs_settle] at h
  split at h
  · have hlater : now < r'.due := Registration.lt_due_of_fire (hparsed _ _ hr) (fun o => hd.pending hr) h
    exact absurd hdue (Int.not_le.2 hlater)
  · rename_i hk
    exact (List.mem_erase_of_ne (Ne.symm hk)).2 (hl h hdue)

/-- Where a job is not due, a pass that does nothing does what it would do to that job alone. -/
theorem alone_of_forall_lt {k : Key} {p : Pass} (hlater : ∀ r, d.jobs[k]? = some r → now < r.due)
    (hp : p = { dispatcher := d }) :
    p.dispatcher.jobs[k]? = d.jobs[k]?.bind (Registration.after? now) ∧
      p.fired.filter (·.detail.key = k) = (d.jobs[k]?.bind (Registration.dispatch? now)).toList := by
  subst hp
  show d.jobs[k]? = _ ∧ [] = _
  cases hr : d.jobs[k]? with
  | none => exact ⟨rfl, rfl⟩
  | some r =>
    have hdue := hlater r hr
    exact ⟨(Registration.after?_of_lt hdue).symm, by rw [Option.bind_some, Registration.dispatch?_of_lt hdue]; rfl⟩

/-- A pass that may handle as many entries as jobs are due does to every job what it would do to that job alone. -/
theorem passFor_of_covers {l : List Key} (hd : d.Tidy) (hparsed : d.Parsed) (hl : Covers now l d) (hn : l.length ≤ n)
    (hbroken : (passFor now n d).broken = false) (k : Key) :
    (passFor now n d).dispatcher.jobs[k]? = d.jobs[k]?.bind (Registration.after? now) ∧
      (passFor now n d).fired.filter (·.detail.key = k) = (d.jobs[k]?.bind (Registration.dispatch? now)).toList := by
  induction n generalizing d l with
  | zero =>
    obtain rfl := List.length_eq_zero_iff.1 (Nat.le_zero.1 hn)
    exact alone_of_forall_lt (fun r hr => Int.not_le.1 fun h => List.not_mem_nil (hl hr h)) rfl
  | succ n ih =>
    rcases passFor_succ_cases hd now n with ⟨hp, hlater⟩ | ⟨k', r, hr, hdue, ⟨hp, -⟩ | ⟨hp, -⟩⟩
    · exact alone_of_forall_lt (hlater k) hp
    · have hlength : (l.erase k').length ≤ n := by
        rw [List.length_erase_of_mem (hl hr hdue)]
        omega
      rw [hp] at hbroken ⊢
      obtain ⟨hjobs, hfired⟩ :=
        ih (hd.settle hr) (hparsed.settle hr) (hl.settle hd hparsed hr) hlength hbroken
      simp only [Pass.after, hjobs, List.filter_cons, hfired, getElem?_jobs_settle, hd.key hr]
      by_cases hk : k' = k
      · subst hk
        simp only [↓reduceIte, decide_true, hr, Option.bind_some, Registration.after?_of_le hdue,
          Registration.dispatch?_of_le hdue, Option.toList_some]
        -- What is left of the job is looked at again, and is not due.
        cases hfire : r.fire now with
        | none => exact ⟨rfl, rfl⟩
        | some r' =>
          have hlater : now < r'.due := Registration.lt_due_of_fire (hparsed _ _ hr) (fun o => hd.pending hr) hfire
          simp only [Option.bind_some, Registration.after?_of_lt hlater, Registration.dispatch?_of_lt hlater,
            Option.toList_none, and_self]
      · simp only [hk, ↓reduceIte, decide_false, Bool.false_eq_true, and_self]
    · rw [hp] at hbroken
      cases hbroken

/-! ## Whole passes -/

section Whole

variable (hd : d.Tidy) (hparsed : d.Parsed) (hbroken : (d.pass now).broken = false)
include hd hparsed hbroken

theorem pass_of_unbroken (k : Key) :
    (d.pass now).dispatcher.jobs[k]? = d.jobs[k]?.bind (Registration.after? now) ∧
      (d.pass now).fired.filter (·.detail.key = k) = (d.jobs[k]?.bind (Registration.dispatch? now)).toList :=
  passFor_of_covers hd hparsed (hd.covers now) (Nat.le_of_eq Std.ExtTreeMap.length_keys) hbroken k

/-- What a pass leaves of the jobs. -/
theorem jobs_pass (k : Key) : (d.pass now).dispatcher.jobs[k]? = d.jobs[k]?.bind (Registration.after? now) :=
  (pass_of_unbroken hd hparsed hbroken k).1

/-- What a pass hands over under a key. -/
theorem fired_pass (k : Key) :
    (d.pass now).fired.filter (·.detail.key = k) = (d.jobs[k]?.bind (Registration.dispatch? now)).toList :=
  (pass_of_unbroken hd hparsed hbroken k).2

theorem Parsed.pass : (d.pass now).dispatcher.Parsed := by
  intro k r' h
  rw [jobs_pass hd hparsed hbroken] at h
  obtain ⟨r, hr, hafter⟩ := Option.bind_eq_some_iff.1 h
  simp only [Registration.after?] at hafter
  split at hafter
  · cases hafter
    exact hparsed _ _ hr
  · exact Trigger.parsed_of_next (hparsed _ _ hr) (Registration.fire_eq_some_iff.1 hafter).2

end Whole

/-- A pass breaks down only in the last second of the calendar. -/
theorem second_of_broken (hd : d.Tidy) (h : (passFor now n d).broken = true) : Instant.lastSecond ≤ now.second := by
  induction n generalizing d with
  | zero => cases h
  | succ n ih =>
    rcases passFor_succ_cases hd now n with ⟨hp, -⟩ | ⟨k, r, hr, -, ⟨hp, -⟩ | ⟨-, hover⟩⟩
    · rw [hp] at h
      cases h
    · rw [hp] at h
      exact ih (hd.settle hr) h
    · exact Trigger.second_of_next_overrun hover

/-- A command breaks the dispatcher down only in the last second of the calendar. -/
theorem second_of_handle_none {c : Command} (h : d.handle now c = none) : Instant.lastSecond ≤ now.second := by
  cases c with
  | schedule detail t =>
    change d.schedule now detail t = none at h
    by_cases hk : detail.key ∈ d.jobs
    · rw [schedule_of_mem hk] at h
      cases h
    · obtain ⟨⟨t', a⟩, ht⟩ : ∃ q, t.next now = q := ⟨_, rfl⟩
      cases a with
      | due due =>
        rw [schedule_of_due hk ht] at h
        cases h
      | refused err =>
        rw [schedule_of_refused hk ht] at h
        cases h
      | overrun => exact Trigger.second_of_next_overrun (congrArg Prod.snd ht)
  | _ => cases h

end Dispatcher

end Rota
