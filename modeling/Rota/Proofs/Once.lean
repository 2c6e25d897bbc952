import Rota.Proofs.Removal

/-!
# When a job fires that fires once

A run-once trigger is accepted only if it was never asked before. From then on the job waits for one fire time, the
reading of its acceptance and the delay. The wait ends when the key is deleted, when everything is cleared, or with the
first timer pass at the fire time or after it (`Scheduler.Waits`, `Scheduler.Ends`).

- in the last second of the calendar a pass breaks down over the first recurring job that it comes to
  (`Dispatcher.broken_of_recurs`), and a job behind it is not handed over (`Dispatcher.pass_of_once`);
- so while it waits the job is registered and pending, the pass that ends the wait hands it over at its fire time, and
  it never fires again (`Scheduler.once_fires`).
-/

namespace Rota

open Dispatcher (Deed)

/-- A run-once trigger hands out a fire time only when it is asked first: the reading and the delay. -/
theorem Trigger.next_once_eq_due {o : RunOnce} {t : Trigger} {since due : Instant}
    (h : (Trigger.once o).next since = (t, .due due)) : t = .once ⟨o.delay, .pending⟩ ∧ due = since + o.delay := by
  simp only [next, RunOnce.next] at h
  split at h
  · split at h
    · rename_i target htarget
      cases h
      unfold RunOnce.target? at htarget
      split at htarget
      · exact ⟨rfl, (Option.some.inj htarget).symm⟩
      · cases htarget
    · cases h
  · cases h
  · cases h

/-! ## Passes -/

namespace Dispatcher

variable {d : Dispatcher} {now due : Instant} {n : Nat} {k : Key} {r : Registration} {o : RunOnce}

/-- What is left of a registered run-once trigger once it has fired: nothing. -/
theorem Tidy.fire_once (hd : d.Tidy) (hr : d.jobs[k]? = some r) (honce : r.trigger = .once o) : r.fire now = none := by
  have hpending : o.progress = .pending := hd.pending hr honce
  unfold Registration.fire
  rw [honce]
  simp only [Trigger.next, RunOnce.next, hpending]

/-- A recurring job is due at an instant or before. -/
def RecursBy (d : Dispatcher) (t : Instant) : Prop :=
  ∃ (k : Key) (r : Registration) (c : Recurring), d.jobs[k]? = some r ∧ r.trigger = .recurring c ∧ r.due ≤ t

/-- A pass that breaks down has handed over a run-once job that is due, and it is gone, or has come before it to a
recurring job that is due no later. -/
theorem passFor_of_broken (hd : d.Tidy) (hr : d.jobs[k]? = some r) (honce : r.trigger = .once o) (hdue : r.due ≤ now)
    (hbroken : (passFor now n d).broken = true) :
    ((passFor now n d).fired.filter (·.detail.key = k) = [⟨r.detail, r.due⟩] ∧
        (passFor now n d).dispatcher.jobs[k]? = none) ∨
      (passFor now n d).fired.filter (·.detail.key = k) = [] ∧ d.RecursBy r.due := by
  induction n generalizing d with
  | zero => cases hbroken
  | succ n ih =>
    rcases passFor_first hd now with ⟨-, hlater⟩ | ⟨k', r', hr', -, hfirst, ⟨hp, hover⟩ | ⟨hp, hover⟩⟩
    · exact absurd hdue (Int.not_le.2 (hlater k r hr))
    · rw [hp] at hbroken ⊢
      by_cases hk : k' = k
      · -- The job is handed over, and the rest of the pass finds it gone.
        subst hk
        obtain rfl : r' = r := Option.some.inj (hr'.symm.trans hr)
        have hgone : (d.settle k' (r'.fire now)).jobs[k']? = none := by
          rw [getElem?_jobs_settle, if_pos rfl, hd.fire_once hr honce]
        have hlater : ∀ r, (d.settle k' (r'.fire now)).jobs[k']? = some r → now < r.due := by
          intro r h
          cases hgone.symm.trans h
        obtain ⟨hjobs, hfired⟩ := passFor_of_later (n := n) (hd.settle hr) hlater
        refine .inl ⟨?_, hjobs.trans hgone⟩
        rw [Pass.after, List.filter_cons_of_pos (by simp [hd.key hr])]
        exact congrArg _ hfired
      · have hsame : (d.settle k' (r'.fire now)).jobs[k]? = some r := by
          rw [getElem?_jobs_settle, if_neg hk, hr]
        have hrest : (Pass.after ⟨r'.detail, r'.due⟩ (passFor now n (d.settle k' (r'.fire now)))).fired.filter
            (·.detail.key = k) = (passFor now n (d.settle k' (r'.fire now))).fired.filter (·.detail.key = k) :=
          List.filter_cons_of_neg (by simpa [hd.key hr'] using hk)
        rcases ih (hd.settle hr') hsame hbroken with ⟨hfired, hgone⟩ | ⟨hfired, k'', r'', c, hr'', hc, hearlier⟩
        · exact .inl ⟨hrest.trans hfired, hgone⟩
        · refine .inr ⟨hrest.trans hfired, ?_⟩
          rw [getElem?_jobs_settle] at hr''
          split at hr''
          · -- What is left of a recurring job that was fired belongs to the same trigger.
            obtain ⟨-, hnext⟩ := Registration.fire_eq_some_iff.1 hr''
            cases ht : r'.trigger with
            | recurring c' => exact ⟨k', r', c', hr', ht, hfirst k r hr⟩
            | once o' => cases hc.symm.trans (congrArg Prod.fst (ht ▸ hnext).symm)
          · exact ⟨k'', r'', c, hr'', hc, hearlier⟩
    · rw [hp]
      cases ht : r'.trigger with
      | recurring c => exact .inr ⟨rfl, k', r', c, hr', ht, hfirst k r hr⟩
      | once o' =>
        rw [ht] at hover
        simp [Trigger.next, RunOnce.next, hd.pending hr' ht] at hover

/-- In the last second of the calendar a pass breaks down if a recurring job is due, and hands over nothing that is due
after it. -/
theorem broken_of_recurs {l : List Key} {t : Instant} (hd : d.Tidy) (hparsed : d.Parsed) (hl : Covers now l d)
    (hn : l.length ≤ n) (hlast : Instant.lastSecond ≤ now.second) (hrecurs : d.RecursBy t) (ht : t ≤ now) :
    (passFor now n d).broken = true ∧ ∀ x ∈ (passFor now n d).fired, x.fireTime ≤ t := by
  obtain ⟨k, r, c, hr, hc, hdue⟩ := hrecurs
  have hnow : r.due ≤ now := Int.le_trans hdue ht
  induction n generalizing d l with
  | zero =>
    obtain rfl := List.length_eq_zero_iff.1 (Nat.le_zero.1 hn)
    exact absurd (hl hr hnow) List.not_mem_nil
  | succ n ih =>
    rcases passFor_first hd now with ⟨-, hlater⟩ | ⟨k', r', hr', hdue', hfirst, ⟨hp, hover⟩ | ⟨hp, -⟩⟩
    · exact absurd hnow (Int.not_le.2 (hlater k r hr))
    · have hk : k' ≠ k := by
        rintro rfl
        obtain rfl : r' = r := Option.some.inj (hr'.symm.trans hr)
        rw [hc] at hover
        exact hover (Recurring.next_eq_overrun_iff.2 hlast)
      have hlength : (l.erase k').length ≤ n := by
        rw [List.length_erase_of_mem (hl hr' hdue')]
        omega
      obtain ⟨hbroken, hfired⟩ := ih (hd.settle hr') (hparsed.settle hr') (hl.settle hd hparsed hr') hlength
        (by rw [getElem?_jobs_settle, if_neg hk, hr])
      rw [hp]
      refine ⟨hbroken, fun x hx => ?_⟩
      rcases List.mem_cons.1 hx with rfl | hx
      · exact Int.le_trans (hfirst k r hr) hdue
      · exact hfired x hx
    · rw [hp]
      exact ⟨rfl, by simp⟩

section Whole

variable (hd : d.Tidy) (hparsed : d.Parsed) (hr : d.jobs[k]? = some r) (honce : r.trigger = .once o)
  (hdue : r.due ≤ now)
include hd hparsed hr honce hdue

/-- A pass hands over a run-once job that is due, and it is gone; or the pass breaks down before it, in the last second
of the calendar, over a recurring job that is due no later. -/
theorem pass_of_once :
    ((d.pass now).fired.filter (·.detail.key = k) = [⟨r.detail, r.due⟩] ∧
        (d.pass now).dispatcher.jobs[k]? = none) ∨
      (d.pass now).fired.filter (·.detail.key = k) = [] ∧ (d.pass now).broken = true ∧
        Instant.lastSecond ≤ now.second ∧ d.RecursBy r.due := by
  cases hbroken : (d.pass now).broken with
  | false =>
    refine .inl ⟨?_, ?_⟩
    · rw [fired_pass hd hparsed hbroken, hr, Option.bind_some, Registration.dispatch?_of_le hdue, Option.toList_some]
    · rw [jobs_pass hd hparsed hbroken, hr, Option.bind_some, Registration.after?_of_le hdue, hd.fire_once hr honce]
  | true =>
    rcases passFor_of_broken hd hr honce hdue hbroken with h | ⟨hfired, hrecurs⟩
    · exact .inl h
    · exact .inr ⟨hfired, rfl, second_of_broken hd hbroken, hrecurs⟩

/-- In the last second of the calendar a pass does not come to a run-once job behind a recurring one. -/
theorem pass_of_recurs {t : Instant} (hlast : Instant.lastSecond ≤ now.second) (hrecurs : d.RecursBy t)
    (ht : t < r.due) : (d.pass now).fired.filter (·.detail.key = k) = [] ∧ (d.pass now).broken = true := by
  obtain ⟨hbroken, hfired⟩ := broken_of_recurs hd hparsed (hd.covers now) (Nat.le_of_eq Std.ExtTreeMap.length_keys)
    hlast hrecurs (Int.le_trans (Int.le_of_lt ht) hdue)
  rcases pass_of_once hd hparsed hr honce hdue with ⟨hone, -⟩ | ⟨hnone, -⟩
  · have hmem : (⟨r.detail, r.due⟩ : Dispatch) ∈ (d.pass now).fired :=
      List.mem_of_mem_filter (hone ▸ List.mem_singleton_self _)
    exact absurd (hfired _ hmem) (Int.not_le.2 ht)
  · exact ⟨hnone, hbroken⟩

end Whole

end Dispatcher

/-! ## Waiting for a fire time -/

instance (k : Key) (c : Command) : Decidable (c.Erases k) := inferInstanceAs (Decidable (_ ∨ _))

/-- A deed that ends the wait of a key for a fire time: the key is deleted, everything is cleared, or a timer pass comes
at the fire time or after it. -/
def Dispatcher.Deed.Ends (k : Key) (due now : Instant) : Deed → Prop
  | .command c => c.Erases k
  | .pass => due ≤ now

instance (k : Key) (due now : Instant) : (x : Deed) → Decidable (x.Ends k due now)
  | .command c => inferInstanceAs (Decidable (c.Erases k))
  | .pass => inferInstanceAs (Decidable (due ≤ now))

namespace Scheduler

/-- A move that ends the wait of a key for a fire time. -/
def Ends (s : Scheduler) (k : Key) (due : Instant) (m : Move) : Prop :=
  ∃ now ∈ m.reading?, ∃ x ∈ s.deed?, x.Ends k due now

instance (s : Scheduler) (k : Key) (due : Instant) (m : Move) : Decidable (s.Ends k due m) :=
  inferInstanceAs (Decidable (∃ now ∈ m.reading?, ∃ x ∈ s.deed?, x.Ends k due now))

/-- No move of a history ends the wait of a key for a fire time. -/
def Waits (k : Key) (due : Instant) : Scheduler → List Move → Prop
  | _, [] => True
  | s, m :: ms => ¬ s.Ends k due m ∧ Waits k due (s.move m) ms

instance decidableWaits (k : Key) (due : Instant) : ∀ (s : Scheduler) (ms : List Move), Decidable (Waits k due s ms)
  | _, [] => inferInstanceAs (Decidable True)
  | s, m :: ms =>
    have := decidableWaits k due (s.move m) ms
    inferInstanceAs (Decidable (_ ∧ _))

/-- A history accepts a job. -/
def Accepted (s : Scheduler) (ms : List Move) (detail : Detail) : Prop :=
  ∃ ms₁ p ms₂ t, ms = ms₁ ++ .turn p :: ms₂ ∧ (s.moves ms₁).Accepts p detail t

variable {s : Scheduler} {detail : Detail} {delay : Span} {k : Key} {p now due : Instant} {m : Move} {ms : List Move}

/-- A run-once job that is accepted waits for the instant after its delay. -/
theorem registered_of_accepts {o : RunOnce} (h : s.Accepts p detail (.once o)) :
    (s.move (.turn p)).dispatcher.jobs[detail.key]? = some ⟨detail, .once ⟨o.delay, .pending⟩, p + o.delay⟩ := by
  obtain ⟨hdeed, ticket, hreply⟩ := h
  show (s.turn p).1.dispatcher.jobs[detail.key]? = _
  rcases turn_of_command hdeed p with ⟨ticket', inbox, d, reply, -, hd, ht⟩ | ⟨-, -, habandoned⟩
  · rw [ht] at hreply ⊢
    cases List.mem_singleton.1 hreply
    rcases Dispatcher.handle_cases hd with ⟨-, hreply⟩ | ⟨r, t, hc, -, hnext, rfl, -⟩ | ⟨_, hc, -⟩ | ⟨hc, -⟩
    · exact absurd rfl hreply
    · obtain ⟨x, t', due⟩ := r
      cases hc
      obtain ⟨rfl, rfl⟩ := Trigger.next_once_eq_due hnext
      exact Std.ExtTreeMap.getElem?_insert_self
    · cases hc
    · cases hc
  · exact absurd (habandoned ▸ hreply) (not_mem_abandonInbox s _ _)

/-- The registration of a job with a free key is accepted if its trigger has a fire time, whatever runs are in flight.
-/
theorem accepts_of_free {t : Trigger} (hdeed : s.deed? = some (.command (.schedule detail t)))
    (hfree : detail.key ∉ s.dispatcher.jobs) (hdue : (t.next now).2.due?.isSome) : s.Accepts now detail t := by
  refine ⟨hdeed, ?_⟩
  obtain ⟨⟨t', a⟩, hnext⟩ : ∃ q, t.next now = q := ⟨_, rfl⟩
  rw [hnext] at hdue
  obtain ⟨due, ha⟩ := Option.isSome_iff_exists.1 hdue
  obtain rfl : a = .due due := NextFire.eq_due_of_due? ha
  have hhandle := Dispatcher.schedule_of_due hfree hnext
  rcases turn_of_command hdeed now with ⟨ticket, inbox, d, reply, -, hd, ht⟩ | ⟨hnone, -⟩
  · obtain ⟨-, rfl⟩ := Prod.mk.inj (Option.some.inj (hd.symm.trans hhandle))
    exact ⟨ticket, ht ▸ List.mem_singleton_self _⟩
  · cases hnone.symm.trans hhandle

/-- A run-once job that waits is not touched by a move that does not end its wait. -/
theorem once_move (hs : s.Ordered)
    (hregistered : s.dispatcher.jobs[detail.key]? = some ⟨detail, .once ⟨delay, .pending⟩, due⟩)
    (hwaits : ¬ s.Ends detail.key due m) :
    (s.move m).dispatcher.jobs[detail.key]? = some ⟨detail, .once ⟨delay, .pending⟩, due⟩ ∧
      s.dispatches detail.key m = [] := by
  have hmem : detail.key ∈ s.dispatcher.jobs :=
    Std.ExtTreeMap.mem_iff_isSome_getElem?.2 (Option.isSome_of_eq_some hregistered)
  by_cases hpass : ∀ now, m = .turn now → s.deed? ≠ some .pass
  · refine ⟨(getElem?_jobs_move hpass fun now hnow x hx hdisplaces => ?_).trans hregistered, dispatches_eq_nil hpass⟩
    -- What displaces a registered key erases it.
    have hkeeps : ¬ x.Ends detail.key due now := fun h => hwaits ⟨now, hnow, x, hx, h⟩
    cases x with
    | pass => exact hdisplaces
    | command c =>
      cases c with
      | schedule x t => exact hdisplaces.2.1 hmem
      | delete k' => exact hkeeps (.inr (congrArg Command.delete hdisplaces.1))
      | clear => exact hkeeps (.inl rfl)
      | keys => exact hdisplaces
      | info k' => exact hdisplaces
  · push Not at hpass
    obtain ⟨now, rfl, hdeed⟩ := hpass
    have hphase : s.phase ≠ .broken := by simp [(running_of_deed hdeed).1]
    have hlater : ∀ r, s.dispatcher.jobs[detail.key]? = some r → now < r.due := by
      intro r hr
      obtain rfl := Option.some.inj (hregistered.symm.trans hr)
      exact Int.not_le.1 fun h => hwaits ⟨now, rfl, .pass, hdeed, h⟩
    obtain ⟨hjobs, hfired⟩ := Dispatcher.passFor_of_later (n := s.dispatcher.queue.size) (hs.tidy hphase) hlater
    refine ⟨?_, ?_⟩
    · show (s.turn now).1.dispatcher.jobs[detail.key]? = _
      rw [turn_of_pass hdeed, jobs_takePass]
      exact hjobs.trans hregistered
    · rw [dispatches, handedOver_of_pass hdeed]
      exact hfired

/-- Over a history that does not end its wait a run-once job stays registered and is not handed over. -/
theorem once_moves (hs : s.Ordered) (hms : ∀ m ∈ ms, m.Parsed)
    (hregistered : s.dispatcher.jobs[detail.key]? = some ⟨detail, .once ⟨delay, .pending⟩, due⟩)
    (hwaits : Waits detail.key due s ms) :
    (s.moves ms).dispatcher.jobs[detail.key]? = some ⟨detail, .once ⟨delay, .pending⟩, due⟩ ∧
      fireTimes detail.key s ms = [] := by
  induction ms generalizing s with
  | nil => exact ⟨hregistered, rfl⟩
  | cons m ms ih =>
    obtain ⟨hstays, hnone⟩ := once_move hs hregistered hwaits.1
    obtain ⟨hlast, htimes⟩ := ih (hs.move (hms m List.mem_cons_self))
      (fun m' hm' => hms m' (List.mem_cons_of_mem _ hm')) hstays hwaits.2
    refine ⟨hlast, ?_⟩
    rw [fireTimes, hnone, htimes, List.map_nil, List.nil_append]

/-! ## The law -/

/-- How a job goes on that is to fire once and waits for its fire time. -/
structure OnceLaw (s : Scheduler) (detail : Detail) (delay : Span) (due : Instant) : Prop where
  /-- The job is registered, and its firing is ahead. -/
  registered : s.dispatcher.jobs[detail.key]? = some ⟨detail, .once ⟨delay, .pending⟩, due⟩
  /-- Who asks for the job is told so. -/
  reported : ∀ now, s.deed? = some (.command (.info detail.key)) → ∃ ticket, (s.turn now).2 =
    [(ticket, .ok (.info ⟨detail.key, detail.job.text,
      "RunOnceTrigger::" ++ toString delay.millis ++ "ms::" ++ "pending", .ofInstant due⟩))]
  /-- Nothing but a timer pass at the fire time or after it hands the job over. -/
  rests : ∀ m, (∀ now, m = .turn now → s.deed? = some .pass → now < due) → s.dispatches detail.key m = []
  /-- The first such pass hands it over, once and at its fire time, and the key is free; or the pass breaks down first,
  in the last second of the calendar, over a recurring job that is due no later. -/
  fires : ∀ now, s.deed? = some .pass → due ≤ now →
    (s.dispatches detail.key (.turn now) = [⟨detail, due⟩] ∧
        detail.key ∉ (s.move (.turn now)).dispatcher.jobs) ∨
      s.dispatches detail.key (.turn now) = [] ∧ (s.move (.turn now)).phase = .broken ∧
        Instant.lastSecond ≤ now.second ∧ s.dispatcher.RecursBy due
  /-- In the last second of the calendar a recurring job that is due sooner does prevent it. -/
  misses : ∀ now t, s.deed? = some .pass → due ≤ now → Instant.lastSecond ≤ now.second →
    s.dispatcher.RecursBy t → t < due →
    s.dispatches detail.key (.turn now) = [] ∧ (s.move (.turn now)).phase = .broken
  /-- Once the wait is over, whatever is handed over under the key was accepted later. -/
  never : ∀ m ms m', s.Ends detail.key due m → (∀ m ∈ ms, m.Parsed) →
    ∀ x ∈ ((s.move m).moves ms).dispatches detail.key m', (s.move m).Accepted ms x.detail
  /-- Until something is accepted under it the key stays free, and whatever has a fire time is accepted under it. -/
  anew : ∀ m ms, s.Ends detail.key due m → (∀ m ∈ ms, m.Parsed) → ((s.move m).moves ms).phase ≠ .broken →
    (∀ x, x.key = detail.key → ¬ (s.move m).Accepted ms x) →
    detail.key ∉ ((s.move m).moves ms).dispatcher.jobs ∧
      ∀ now x t, ((s.move m).moves ms).deed? = some (.command (.schedule x t)) → x.key = detail.key →
        (t.next now).2.due?.isSome → ((s.move m).moves ms).Accepts now x t

theorem Stems.accepted {r : Registration} (h : s.Stems k ms r) : s.Accepted ms r.detail := by
  obtain ⟨ms₁, p, ms₂, t, hsplit, haccepts, -⟩ := h
  exact ⟨ms₁, p, ms₂, t, hsplit, haccepts⟩

section Law

variable (hs : s.Ordered)
  (hregistered : s.dispatcher.jobs[detail.key]? = some ⟨detail, .once ⟨delay, .pending⟩, due⟩)
include hs hregistered

/-- A timer pass at the fire time of a job or after it. -/
theorem pass_of_registered (hdeed : s.deed? = some .pass) (hdue : due ≤ now) :
    (s.dispatches detail.key (.turn now) = [⟨detail, due⟩] ∧
        detail.key ∉ (s.move (.turn now)).dispatcher.jobs) ∨
      s.dispatches detail.key (.turn now) = [] ∧ (s.move (.turn now)).phase = .broken ∧
        Instant.lastSecond ≤ now.second ∧ s.dispatcher.RecursBy due := by
  have hphase : s.phase ≠ .broken := by simp [(running_of_deed hdeed).1]
  have hturn : s.move (.turn now) = (s.takePass now).1 := congrArg Prod.fst (turn_of_pass hdeed now)
  rw [hturn, dispatches, handedOver_of_pass hdeed, jobs_takePass, Std.ExtTreeMap.mem_iff_isSome_getElem?]
  rcases Dispatcher.pass_of_once (hs.tidy hphase) (hs.parsed hphase) hregistered rfl hdue with
    ⟨hfired, hgone⟩ | ⟨hfired, hbroken, hrest⟩
  · exact .inl ⟨hfired, by simp [hgone]⟩
  · exact .inr ⟨hfired, (takePass_of_broken hbroken).1, hrest⟩

/-- A move that ends the wait of a job leaves its key free, or the loop breaks down. -/
theorem free_of_ends (h : s.Ends detail.key due m) :
    (∃ now, m = .turn now) ∧ ((s.move m).phase = .broken ∨ detail.key ∉ (s.move m).dispatcher.jobs) := by
  obtain ⟨now, hnow, x, hdeed, hends⟩ := h
  cases m with
  | turn now' =>
    cases hnow
    refine ⟨⟨now, rfl⟩, ?_⟩
    cases x with
    | command c => exact .inr (turn_of_erases now hdeed hends).1
    | pass =>
      rcases pass_of_registered hs hregistered hdeed hends with ⟨-, hfree⟩ | ⟨-, hbroken, -⟩
      · exact .inr hfree
      · exact .inl hbroken
  | _ => cases hnow

/-- Once the wait of a job is over, whatever is registered under its key was accepted later. -/
theorem accepted_of_ends (hends : s.Ends detail.key due m) (hms : ∀ m ∈ ms, m.Parsed)
    (halive : ((s.move m).moves ms).phase ≠ .broken) {r : Registration}
    (hr : ((s.move m).moves ms).dispatcher.jobs[detail.key]? = some r) : (s.move m).Accepted ms r.detail := by
  obtain ⟨⟨now, rfl⟩, hfree⟩ := free_of_ends hs hregistered hends
  have hordered : (s.move (.turn now)).Ordered := hs.turn now
  have hfree' := hfree.resolve_left fun h => halive (moves_of_broken h ms)
  exact (stems_moves hordered hfree' hms halive hr).accepted

theorem onceLaw_of_registered : s.OnceLaw detail delay due where
  registered := hregistered
  reported now hdeed := by
    rcases turn_of_command hdeed now with ⟨ticket, inbox, d, reply, -, hd, ht⟩ | ⟨hnone, -⟩
    · cases hd
      exact ⟨ticket, by rw [ht, hregistered]; rfl⟩
    · cases hnone
  rests m hm := by
    by_cases hpass : ∀ now, m = .turn now → s.deed? ≠ some .pass
    · exact dispatches_eq_nil hpass
    · push Not at hpass
      obtain ⟨now, rfl, hdeed⟩ := hpass
      refine (once_move hs hregistered ?_).2
      rintro ⟨now', hnow, x, hx, hends⟩
      cases hnow
      cases hdeed.symm.trans hx
      exact Int.not_le.2 (hm now rfl hdeed) hends
  fires now hdeed hdue := pass_of_registered hs hregistered hdeed hdue
  misses now t hdeed hdue hlast hrecurs ht := by
    have hphase : s.phase ≠ .broken := by simp [(running_of_deed hdeed).1]
    obtain ⟨hfired, hbroken⟩ := Dispatcher.pass_of_recurs (hs.tidy hphase) (hs.parsed hphase) hregistered rfl hdue
      hlast hrecurs ht
    have hturn : s.move (.turn now) = (s.takePass now).1 := congrArg Prod.fst (turn_of_pass hdeed now)
    rw [hturn, dispatches, handedOver_of_pass hdeed]
    exact ⟨hfired, (takePass_of_broken hbroken).1⟩
  never m ms m' hends hms x hx := by
    obtain ⟨⟨now, rfl⟩, -⟩ := free_of_ends hs hregistered hends
    have hordered : (s.move (.turn now)).Ordered := hs.turn now
    obtain ⟨hover, hkey⟩ := List.mem_filter.1 hx
    obtain ⟨⟨-, -, hdeed⟩, r, hr, rfl⟩ := exists_of_mem_handedOver (hordered.moves hms) hover
    have halive : ((s.move (.turn now)).moves ms).phase ≠ .broken := by simp [(running_of_deed hdeed).1]
    have hkey' : r.detail.key = detail.key := of_decide_eq_true hkey
    exact accepted_of_ends hs hregistered hends hms halive (hkey' ▸ hr)
  anew m ms hends hms halive hnone := by
    obtain ⟨⟨now, rfl⟩, -⟩ := free_of_ends hs hregistered hends
    have hordered : (s.move (.turn now)).Ordered := hs.turn now
    have hkey : detail.key ∉ ((s.move (.turn now)).moves ms).dispatcher.jobs := by
      intro hmem
      obtain ⟨r, hr⟩ := Option.isSome_iff_exists.1 (Std.ExtTreeMap.mem_iff_isSome_getElem?.1 hmem)
      have haccepted := accepted_of_ends hs hregistered hends hms halive hr
      exact hnone r.detail (((hordered.moves hms).tidy halive).key hr) haccepted
    exact ⟨hkey, fun p x t hdeed hx hdue => accepts_of_free hdeed (hx ▸ hkey) hdue⟩

end Law

/-- Whatever a scheduler goes through after it accepted a job that is to fire once, as long as the wait for the fire
time is not over the job is not handed over, and the law holds for it. -/
theorem once_fires {o : RunOnce} (hs : s.Reachable) (haccepts : s.Accepts p detail (.once o))
    (hms : ∀ m ∈ ms, m.Parsed) (hwaits : Waits detail.key (p + o.delay) (s.move (.turn p)) ms) :
    fireTimes detail.key (s.move (.turn p)) ms = [] ∧
      ((s.move (.turn p)).moves ms).OnceLaw detail o.delay (p + o.delay) := by
  have hordered : (s.move (.turn p)).Ordered := hs.ordered.turn p
  obtain ⟨hregistered, htimes⟩ := once_moves hordered hms (registered_of_accepts haccepts) hwaits
  exact ⟨htimes, onceLaw_of_registered (hordered.moves hms) hregistered⟩

/-! ### A chime in an hour -/

/-- A chore that is to be done once. -/
def chime : Detail := ⟨.catchUp "daily", .chore "chime" false⟩

def anHour : Trigger := .after ⟨3600000000000⟩

/-- The chore that is to be done every minute is accepted, and the other is to be done in an hour. -/
def chiming : Scheduler :=
  ({} : Scheduler).moves [.start, .submit (.schedule tick (.recurring tickTrigger)), .turn World.noon,
    .submit (.schedule chime anHour)]

/-- Half an hour goes by, and a client asks for the chime. -/
def chimeHistory : List Move :=
  [.turn (.ofSecond 1714566600), .submit (.info chime.key), .turn (.ofSecond 1714566600)]

theorem reachable_chiming : chiming.Reachable := by
  refine ⟨_, fun m hm => ?_, rfl⟩
  simp only [List.mem_cons, List.not_mem_nil, or_false] at hm
  rcases hm with rfl | rfl | rfl | rfl
  · trivial
  · exact ⟨"* * * * *", by decide +kernel⟩
  · trivial
  · trivial

theorem chiming_accepts : chiming.Accepts World.noon chime anHour := ⟨by decide +kernel, 1, by decide +kernel⟩

/-- The clock jumps to two hours after the acceptance: the chime is handed over at its own hour, and while it rings it
is accepted anew. -/
theorem chime_fires :
    ((chiming.move (.turn World.noon)).moves chimeHistory).dispatches chime.key (.turn (.ofSecond 1714572000)) =
      [⟨chime, .ofSecond 1714568400⟩] ∧
    ((((chiming.move (.turn World.noon)).moves chimeHistory).move (.turn (.ofSecond 1714572000))).moves
      [.beginRun 2, .submit (.schedule chime anHour)]).runs.any (fun r => r.detail = chime ∧ r.status = .inside) ∧
    ((((chiming.move (.turn World.noon)).moves chimeHistory).move (.turn (.ofSecond 1714572000))).moves
      [.beginRun 2, .submit (.schedule chime anHour)]).Accepts (.ofSecond 1714572000) chime anHour := by
  have hparsed : ∀ m ∈ chimeHistory, m.Parsed := by simp [chimeHistory, Move.Parsed, Command.Parsed]
  obtain ⟨-, hlaw⟩ := once_fires reachable_chiming chiming_accepts hparsed (by decide +kernel)
  have hdeed : ((chiming.move (.turn World.noon)).moves chimeHistory).deed? = some .pass := by decide +kernel
  refine ⟨?_, by decide +kernel, ?_⟩
  · rcases hlaw.fires (.ofSecond 1714572000) hdeed (by decide +kernel) with ⟨hfires, -⟩ | ⟨-, -, hlast, -⟩
    · exact hfires
    · exact absurd hlast (by decide)
  · refine (hlaw.anew _ _ ⟨_, rfl, _, hdeed, by decide +kernel⟩ ?_ (by decide +kernel) ?_).2 _ _ _ (by decide +kernel)
      rfl (by decide +kernel)
    · simp [Move.Parsed, Command.Parsed, Trigger.Parsed, anHour, Trigger.after]
    · rintro x - ⟨ms₁, p, ms₂, t, hsplit, -⟩
      have hmem : Move.turn p ∈ ms₁ ++ .turn p :: ms₂ := by simp
      rw [← hsplit] at hmem
      simp at hmem

/-- A pass in the last second of the calendar breaks down over the chore that is to be done every minute, and the chime
that is long due is not handed over. -/
theorem chime_missed :
    chiming.Accepts World.noon chime anHour ∧ (chiming.move (.turn World.noon)).deed? = some .pass ∧
    World.noon + (⟨3600000000000⟩ : Span) ≤ .ofSecond Instant.lastSecond ∧
    (chiming.move (.turn World.noon)).dispatches chime.key (.turn (.ofSecond Instant.lastSecond)) = [] ∧
    ((chiming.move (.turn World.noon)).move (.turn (.ofSecond Instant.lastSecond))).phase = .broken :=
  ⟨chiming_accepts, by decide +kernel, by decide +kernel, by decide +kernel, by decide +kernel⟩

end Scheduler

end Rota
