import Mathlib.Data.List.Induction
import Rota.Proofs.Firing

/-!
# What fires after a removal

A command that clears the schedule or deletes a key leaves nothing behind that could fire later. Whatever a timer pass
hands over under a key is what is registered there (`Dispatcher.fired_spec`), and a registration under a key that was
free at first stems from one that was accepted in the meantime: no command displaced it since, and its fire time is the
answer of its trigger at the last asking (`Scheduler.Stems`).

- what one move can do to the registration of a key (`registration_cases`);
- by induction from the end of a history every registration stems from an acceptance (`stems_moves`);
- so every job that is handed over after a removal was accepted after it (`fires_after_removal`).
-/

namespace Rota

/-- A trigger that hands out a fire time twice hands out the second one also if it is asked for the first time then. -/
theorem Trigger.next_of_next {t t' t'' : Trigger} {q now due due' : Instant} (h : t.next q = (t', .due due))
    (h' : t'.next now = (t'', .due due')) : t.next now = (t'', .due due') := by
  cases t with
  | recurring c =>
    obtain rfl : Trigger.recurring c = t' := congrArg Prod.fst h
    exact h'
  | once o =>
    -- The second time a run-once trigger is spent.
    obtain ⟨o', rfl⟩ : ∃ o', t' = .once o' := ⟨_, (congrArg Prod.fst h).symm⟩
    have hpending : o'.progress = .pending := pending_of_next h
    simp [next, RunOnce.next, hpending] at h'

/-- A command after which nothing is registered under a key. -/
def Command.Erases (k : Key) (c : Command) : Prop := c = .clear ∨ c = .delete k

namespace Dispatcher

/-- What a timer pass hands over is registered and due, also in a pass that breaks down. -/
theorem fired_spec {d : Dispatcher} {now : Instant} {n : Nat} {x : Dispatch} (hd : d.Tidy) (hparsed : d.Parsed)
    (hx : x ∈ (passFor now n d).fired) :
    ∃ r, d.jobs[x.detail.key]? = some r ∧ x = ⟨r.detail, r.due⟩ ∧ r.due ≤ now := by
  induction n generalizing d with
  | zero => cases hx
  | succ n ih =>
    rcases passFor_succ_cases hd now n with ⟨hp, -⟩ | ⟨k, r, hr, hdue, ⟨hp, -⟩ | ⟨hp, -⟩⟩
    · rw [hp] at hx
      cases hx
    · rw [hp] at hx
      rcases List.mem_cons.1 hx with rfl | hx
      · exact ⟨r, hd.key hr ▸ hr, rfl, hdue⟩
      · obtain ⟨r', hr', heq, hdue'⟩ := ih (hd.settle hr) (hparsed.settle hr) hx
        rw [getElem?_jobs_settle] at hr'
        split at hr'
        · -- What is left of the job that was fired is not due.
          have hlater : now < r'.due := Registration.lt_due_of_fire (hparsed _ _ hr) (fun o => hd.pending hr) hr'
          exact absurd hdue' (Int.not_le.2 hlater)
        · exact ⟨r', hr', heq, hdue'⟩
    · rw [hp] at hx
      cases hx

end Dispatcher

namespace Scheduler

variable {s : Scheduler} {k : Key} {r : Registration} {x : Dispatch} {now : Instant} {m : Move} {ms : List Move}

/-! ## One move -/

/-- What is handed over is registered, and the loop makes a timer pass. -/
theorem exists_of_mem_handedOver (hs : s.Ordered) (hx : x ∈ s.handedOver m) :
    (∃ now, m = .turn now ∧ s.deed? = some .pass) ∧
      ∃ r, s.dispatcher.jobs[x.detail.key]? = some r ∧ x = ⟨r.detail, r.due⟩ := by
  have hpass : ∃ now, m = .turn now ∧ s.deed? = some .pass := by
    by_contra hpass
    push Not at hpass
    rw [handedOver_eq_nil hpass] at hx
    cases hx
  obtain ⟨now, rfl, hdeed⟩ := hpass
  have hphase : s.phase ≠ .broken := by simp [(running_of_deed hdeed).1]
  rw [handedOver_of_pass hdeed] at hx
  obtain ⟨r, hr, heq, -⟩ := Dispatcher.fired_spec (hs.tidy hphase) (hs.parsed hphase) hx
  exact ⟨⟨now, rfl, hdeed⟩, r, hr, heq⟩

/-- A command that displaces a key and leaves a registration under it has accepted this registration. -/
theorem accepts_of_displaces {c : Command} (hdeed : s.deed? = some (.command c))
    (hc : s.dispatcher.Displaces now k (.command c)) (hr : (s.move (.turn now)).dispatcher.jobs[k]? = some r)
    (halive : (s.move (.turn now)).phase ≠ .broken) :
    ∃ t, s.Accepts now r.detail t ∧ t.next now = (r.trigger, .due r.due) := by
  change (s.turn now).1.dispatcher.jobs[k]? = _ at hr
  rcases turn_of_command hdeed now with ⟨ticket, inbox, d, reply, -, hd, ht⟩ | ⟨-, ht, -⟩
  · rw [ht] at hr
    change d.jobs[k]? = _ at hr
    cases c with
    | schedule x t =>
      obtain ⟨rfl, hfree, hdue⟩ := hc
      obtain ⟨⟨t', a⟩, hnext⟩ : ∃ q, t.next now = q := ⟨_, rfl⟩
      rw [hnext] at hdue
      obtain ⟨due, ha⟩ := Option.isSome_iff_exists.1 hdue
      obtain rfl : a = .due due := NextFire.eq_due_of_due? ha
      obtain ⟨rfl, rfl⟩ := Prod.mk.inj (Option.some.inj (hd.symm.trans (Dispatcher.schedule_of_due hfree hnext)))
      simp only [Dispatcher.enter, Std.ExtTreeMap.getElem?_insert_self, Option.some.injEq] at hr
      subst hr
      exact ⟨t, ⟨hdeed, ticket, by rw [ht]; exact List.mem_singleton_self _⟩, hnext⟩
    | delete k' =>
      obtain ⟨rfl, hmem⟩ := hc
      simp only [Dispatcher.handle, Dispatcher.delete, hmem, ↓reduceIte, Option.some.injEq, Prod.mk.injEq] at hd
      rw [← hd.1] at hr
      simp at hr
    | clear =>
      cases hd
      simp [Dispatcher.clear] at hr
    | keys => exact hc.elim
    | info k' => exact hc.elim
  · exact absurd (congrArg Scheduler.phase ht) halive

/-- How a registration came to stand under a key after a move: the move accepted it; or no command displaced the key,
and the move left the registration alone or handed the job over and asked its trigger for the next fire time. -/
theorem registration_cases (hs : s.Ordered) (halive : (s.move m).phase ≠ .broken)
    (hr : (s.move m).dispatcher.jobs[k]? = some r) :
    (∃ p t, m = .turn p ∧ s.Accepts p r.detail t ∧ t.next p = (r.trigger, .due r.due)) ∨
    ((∀ now ∈ m.reading?, ∀ x ∈ s.deed?, ¬ s.dispatcher.Displaces now k x) ∧
      ((s.dispatches k m = [] ∧ s.dispatcher.jobs[k]? = some r) ∨
        ∃ now r₀, m = .turn now ∧ s.dispatches k m ≠ [] ∧ s.dispatcher.jobs[k]? = some r₀ ∧ r₀.fire now = some r)) := by
  by_cases hpass : ∀ now, m = .turn now → s.deed? ≠ some .pass
  · by_cases hspares : ∀ now ∈ m.reading?, ∀ x ∈ s.deed?, ¬ s.dispatcher.Displaces now k x
    · exact .inr ⟨hspares, .inl ⟨dispatches_eq_nil hpass, (getElem?_jobs_move hpass hspares).symm.trans hr⟩⟩
    · push Not at hspares
      obtain ⟨now, hnow, x, hdeed, hx⟩ := hspares
      cases m with
      | turn now' =>
        cases hnow
        cases x with
        | command c =>
          obtain ⟨t, haccepts, hnext⟩ := accepts_of_displaces hdeed hx hr halive
          exact .inl ⟨now, t, rfl, haccepts, hnext⟩
        | pass => exact hx.elim
      | _ => cases hnow
  · push Not at hpass
    obtain ⟨now, rfl, hdeed⟩ := hpass
    have hphase : s.phase ≠ .broken := by simp [(running_of_deed hdeed).1]
    have hturn : s.move (.turn now) = (s.takePass now).1 := congrArg Prod.fst (turn_of_pass hdeed now)
    rw [hturn] at halive hr
    have hbroken := unbroken_of_takePass halive
    obtain ⟨metrics, hdispatcher, -⟩ := takePass_of_unbroken hbroken
    rw [hdispatcher] at hr
    have hafter : s.dispatcher.jobs[k]?.bind (Registration.after? now) = some r :=
      (Dispatcher.jobs_pass (hs.tidy hphase) (hs.parsed hphase) hbroken k).symm.trans hr
    have hfired : s.dispatches k (.turn now) = (s.dispatcher.jobs[k]?.bind (Registration.dispatch? now)).toList := by
      rw [dispatches, handedOver_of_pass hdeed, Dispatcher.fired_pass (hs.tidy hphase) (hs.parsed hphase) hbroken]
    refine .inr ⟨by simp [Move.reading?, hdeed, Dispatcher.Displaces], ?_⟩
    obtain ⟨r₀, hr₀, hafter⟩ := Option.bind_eq_some_iff.1 hafter
    rw [hr₀, Option.bind_some] at hfired
    by_cases hdue : r₀.due ≤ now
    · rw [Registration.dispatch?_of_le hdue] at hfired
      rw [Registration.after?_of_le hdue] at hafter
      exact .inr ⟨now, r₀, rfl, by simp [hfired], hr₀, hafter⟩
    · rw [Registration.dispatch?_of_lt (Int.not_le.1 hdue)] at hfired
      rw [Registration.after?_of_lt (Int.not_le.1 hdue), Option.some.injEq] at hafter
      exact .inl ⟨hfired, hafter ▸ hr₀⟩

/-! ## Histories -/

theorem spares_append {ms' : List Move} : Spares k s (ms ++ ms') ↔ Spares k s ms ∧ Spares k (s.moves ms) ms' := by
  induction ms generalizing s with
  | nil => exact (iff_of_eq (true_and _)).symm
  | cons m ms ih => exact (and_congr_right fun _ => ih).trans and_assoc.symm

theorem lastAsked_concat (k : Key) (q : Instant) (s : Scheduler) (ms : List Move) (m : Move) :
    lastAsked k q s (ms ++ [m]) = (s.moves ms).asked k (lastAsked k q s ms) m := by
  induction ms generalizing q s with
  | nil => rfl
  | cons m' ms ih => exact ih _ _

/-- A registration stems from one that a history accepted: no command displaced it since, and its fire time is the
answer of its trigger at the last asking. -/
def Stems (s : Scheduler) (k : Key) (ms : List Move) (r : Registration) : Prop :=
  ∃ ms₁ p ms₂ t, ms = ms₁ ++ .turn p :: ms₂ ∧ (s.moves ms₁).Accepts p r.detail t ∧
    Spares k ((s.moves ms₁).move (.turn p)) ms₂ ∧
    t.next (lastAsked k p ((s.moves ms₁).move (.turn p)) ms₂) = (r.trigger, .due r.due)

/-- What one more move does to a registration that stems from an acceptance. -/
theorem Stems.concat {r₀ : Registration} (h : s.Stems k ms r₀)
    (hspares : ∀ now ∈ m.reading?, ∀ x ∈ (s.moves ms).deed?, ¬ (s.moves ms).dispatcher.Displaces now k x)
    (hcases : ((s.moves ms).dispatches k m = [] ∧ r = r₀) ∨
      ∃ now, m = .turn now ∧ (s.moves ms).dispatches k m ≠ [] ∧ r₀.fire now = some r) : s.Stems k (ms ++ [m]) r := by
  obtain ⟨ms₁, p, ms₂, t, rfl, haccepts, hspared, hnext⟩ := h
  have hstate : ((s.moves ms₁).move (.turn p)).moves ms₂ = s.moves (ms₁ ++ .turn p :: ms₂) :=
    (moves_append s ms₁ (.turn p :: ms₂)).symm
  have hspared' : Spares k ((s.moves ms₁).move (.turn p)) (ms₂ ++ [m]) := by
    refine spares_append.2 ⟨hspared, ?_⟩
    rw [hstate]
    exact ⟨hspares, trivial⟩
  have hasked := lastAsked_concat k p ((s.moves ms₁).move (.turn p)) ms₂ m
  rw [hstate, asked] at hasked
  rcases hcases with ⟨hnone, rfl⟩ | ⟨now, rfl, hsome, hfire⟩
  · rw [if_pos hnone] at hasked
    exact ⟨ms₁, p, ms₂ ++ [m], t, by simp, haccepts, hspared', hasked ▸ hnext⟩
  · rw [if_neg hsome] at hasked
    obtain ⟨hdetail, hnext'⟩ := Registration.fire_eq_some_iff.1 hfire
    exact ⟨ms₁, p, ms₂ ++ [.turn now], t, by simp, hdetail ▸ haccepts, hspared',
      hasked ▸ Trigger.next_of_next hnext hnext'⟩

/-- Whatever is registered under a key that was free stems from an acceptance. -/
theorem stems_moves (hs : s.Ordered) (hfree : k ∉ s.dispatcher.jobs) (hms : ∀ m ∈ ms, m.Parsed)
    (halive : (s.moves ms).phase ≠ .broken) (hr : (s.moves ms).dispatcher.jobs[k]? = some r) : s.Stems k ms r := by
  induction ms using List.reverseRecOn generalizing r with
  | nil => exact absurd (Std.ExtTreeMap.mem_iff_isSome_getElem?.2 (Option.isSome_of_eq_some hr)) hfree
  | append_singleton ms m ih =>
    have hms' : ∀ m' ∈ ms, m'.Parsed := fun m' hm' => hms m' (List.mem_append_left _ hm')
    rw [moves_append] at halive hr
    have hbefore : (s.moves ms).phase ≠ .broken := fun h => halive (move_of_broken h m)
    rcases registration_cases (hs.moves hms') halive hr with ⟨p, t, rfl, haccepts, hnext⟩ | ⟨hspares, hcases⟩
    · exact ⟨ms, p, [], t, rfl, haccepts, trivial, hnext⟩
    · rcases hcases with ⟨hnone, hsame⟩ | ⟨now, r₀, hm, hsome, hr₀, hfire⟩
      · exact (ih hms' hbefore hsame).concat hspares (.inl ⟨hnone, rfl⟩)
      · exact (ih hms' hbefore hr₀).concat hspares (.inr ⟨now, hm, hsome, hfire⟩)

/-! ## After a removal -/

variable (now) in
/-- A turn that clears the schedule or deletes a key leaves nothing under the key. It touches neither the runs in flight
nor what was counted of them. -/
theorem turn_of_erases {c : Command} (hdeed : s.deed? = some (.command c)) (hc : c.Erases k) :
    k ∉ (s.move (.turn now)).dispatcher.jobs ∧ (s.move (.turn now)).runs = s.runs ∧
      (s.move (.turn now)).metrics = { s.metrics with
        clears := (s.move (.turn now)).metrics.clears
        registered := (s.move (.turn now)).metrics.registered } := by
  change k ∉ (s.turn now).1.dispatcher.jobs ∧ (s.turn now).1.runs = _ ∧ (s.turn now).1.metrics = { s.metrics with
    clears := (s.turn now).1.metrics.clears
    registered := (s.turn now).1.metrics.registered }
  rcases turn_of_command hdeed now with ⟨ticket, inbox, d, reply, -, hd, ht⟩ | ⟨hnone, -, -⟩
  · rw [ht]
    change k ∉ d.jobs ∧ _ = _ ∧ { d.metrics with registered := UInt64.ofNat d.jobs.size } = { s.metrics with
      clears := d.metrics.clears
      registered := UInt64.ofNat d.jobs.size }
    rcases hc with rfl | rfl
    · cases hd
      exact ⟨Std.ExtTreeMap.not_mem_empty, rfl, rfl⟩
    · simp only [Dispatcher.handle, Dispatcher.delete, Option.some.injEq] at hd
      split at hd
      · cases hd
        exact ⟨fun h => (Std.ExtTreeMap.mem_erase.1 h).1 Std.ReflCmp.compare_self, rfl, rfl⟩
      · rename_i hk
        cases hd
        exact ⟨hk, rfl, rfl⟩
  · rcases hc with rfl | rfl <;> cases hnone

variable (now) in
/-- Once the loop has cleared the schedule or deleted a key, every job that is handed over under the key, after
whatever moves at whatever readings, was accepted after the removal and not displaced since, and its fire time is the
answer of its trigger at the last asking. The runs that were in flight stay, and nothing is counted of them. -/
theorem fires_after_removal (hs : s.Reachable) {c : Command} (hdeed : s.deed? = some (.command c)) (hc : c.Erases k)
    (hms : ∀ m ∈ ms, m.Parsed) (m : Move) :
    (∀ x ∈ ((s.move (.turn now)).moves ms).dispatches k m,
      ∃ ms₁ p ms₂ t, ms = ms₁ ++ .turn p :: ms₂ ∧ ((s.move (.turn now)).moves ms₁).Accepts p x.detail t ∧
        Spares k (((s.move (.turn now)).moves ms₁).move (.turn p)) ms₂ ∧
        (t.next (lastAsked k p (((s.move (.turn now)).moves ms₁).move (.turn p)) ms₂)).2 = .due x.fireTime) ∧
    (s.move (.turn now)).runs = s.runs ∧
    (s.move (.turn now)).metrics = { s.metrics with
      clears := (s.move (.turn now)).metrics.clears
      registered := (s.move (.turn now)).metrics.registered } := by
  obtain ⟨hfree, hframe⟩ := turn_of_erases now hdeed hc
  have hordered : (s.move (.turn now)).Ordered := hs.ordered.turn now
  refine ⟨fun x hx => ?_, hframe⟩
  obtain ⟨hover, hkey⟩ := List.mem_filter.1 hx
  obtain ⟨⟨now', -, hpass⟩, r, hr, rfl⟩ := exists_of_mem_handedOver (hordered.moves hms) hover
  obtain rfl : r.detail.key = k := of_decide_eq_true hkey
  have halive : ((s.move (.turn now)).moves ms).phase ≠ .broken := by simp [(running_of_deed hpass).1]
  obtain ⟨ms₁, p, ms₂, t, hsplit, haccepts, hspared, hnext⟩ := stems_moves hordered hfree hms halive hr
  exact ⟨ms₁, p, ms₂, t, hsplit, haccepts, hspared, congrArg Prod.snd hnext⟩

/-! ### A chore that is due when the schedule is cleared -/

/-- The chore that is to be done every minute is accepted, and everything is to be cleared. -/
def clearing : Scheduler :=
  ({} : Scheduler).moves [.start, .submit (.schedule tick (.recurring tickTrigger)), .turn World.noon, .submit .clear]

/-- Another chore under the same key, to be done an hour after it is accepted. -/
def tock : Detail := ⟨tick.key, .chore "tock" false⟩

/-- The other chore is accepted, and the clock goes on for an hour. -/
def tockHistory : List Move :=
  [.submit (.schedule tock (.after ⟨3600000000000⟩)), .turn (.ofSecond 1714564980), .turn (.ofSecond 1714565040)]

theorem reachable_clearing : clearing.Reachable := by
  refine ⟨_, fun m hm => ?_, rfl⟩
  rcases List.mem_cons.1 hm with rfl | hm
  · trivial
  · rcases List.mem_cons.1 hm with rfl | hm
    · exact ⟨"* * * * *", by decide +kernel⟩
    · rcases List.mem_cons.1 hm with rfl | hm
      · trivial
      · cases List.mem_singleton.1 hm
        trivial

/-- The schedule is cleared two minutes later, when the chore is due. After that only the other chore fires, an hour
after it was accepted. -/
theorem tock_fires :
    ((clearing.move (.turn (.ofSecond 1714564920))).moves tockHistory).dispatches tick.key
      (.turn (.ofSecond 1714568580)) = [⟨tock, .ofSecond 1714568580⟩] ∧
    ∃ ms₁ p ms₂ t, tockHistory = ms₁ ++ .turn p :: ms₂ ∧
      ((clearing.move (.turn (.ofSecond 1714564920))).moves ms₁).Accepts p tock t ∧
      Spares tick.key (((clearing.move (.turn (.ofSecond 1714564920))).moves ms₁).move (.turn p)) ms₂ ∧
      (t.next (lastAsked tick.key p (((clearing.move (.turn (.ofSecond 1714564920))).moves ms₁).move (.turn p))
        ms₂)).2 = .due (.ofSecond 1714568580) := by
  have hfires : ((clearing.move (.turn (.ofSecond 1714564920))).moves tockHistory).dispatches tick.key
      (.turn (.ofSecond 1714568580)) = [⟨tock, .ofSecond 1714568580⟩] := by
    decide +kernel
  have hdeed : clearing.deed? = some (.command .clear) := by decide +kernel
  have hparsed : ∀ m ∈ tockHistory, m.Parsed := by simp [tockHistory, Move.Parsed, Command.Parsed, Trigger.Parsed,
    Trigger.after]
  obtain ⟨horigin, -⟩ := fires_after_removal (.ofSecond 1714564920) reachable_clearing hdeed (k := tick.key)
    (.inl rfl) hparsed (.turn (.ofSecond 1714568580))
  exact ⟨hfires, horigin _ (hfires ▸ List.mem_singleton_self _)⟩

end Scheduler

end Rota
