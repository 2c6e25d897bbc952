import Rota.Proofs.CatchUp
import Rota.Proofs.Moves

/-!
# When a recurring job fires

Whatever a scheduler goes through after it accepted a recurring job, as long as the job is not removed on request, the
job waits for the next fire time of its trigger after the instant at which the trigger was last asked: the reading at
its registration or at the last pass that handed it over (`Scheduler.waiting_moves`). From this follows when it fires
(`FiringLaw`):

- a timer pass hands it over exactly if an occurrence lies after that instant and not after the reading, once and for
  the first of these occurrences; nothing else hands it over;
- it is registered exactly as long as an occurrence lies ahead;
- its fire times increase strictly (`Scheduler.fireTimes_increase`).

Where the search for an occurrence has no answer the loop breaks down. It has one at every reading before the last
second of the calendar (`Scheduler.phase_moves_ne_broken`).
-/

namespace Rota

open Dispatcher (Deed)

/-! ## A trigger between two askings -/

namespace Recurring

variable {c : Recurring} {detail : Detail} {q now o : Instant}

/-- The registration of a job whose trigger was last asked at an instant; nothing if the trigger had no fire time. -/
def waiting? (c : Recurring) (detail : Detail) (q : Instant) : Option Registration :=
  (c.next q).due?.map fun due => ⟨detail, .recurring c, due⟩

/-- The fire time at which a pass fires a job whose trigger was last asked at an instant. -/
def firing? (c : Recurring) (q now : Instant) : Option Instant := (c.next q).due?.filter (· ≤ now)

/-- The instant at which the trigger was last asked once a pass is over. -/
def askedIn (c : Recurring) (q now : Instant) : Instant := if (c.firing? q now).isSome then now else q

theorem firing?_eq_some_iff (hexact : c.schedule.Exact q) :
    c.firing? q now = some o ↔ c.schedule.IsNext q o ∧ o ≤ now := by
  rw [← next_eq_due_iff hexact, firing?, Option.filter_eq_some_iff]
  cases c.next q <;> simp [NextFire.due?]

/-- A pass fires a job exactly if an occurrence lies after the last asking and not after the reading. -/
theorem firing?_eq_none_iff (hexact : c.schedule.Exact q) :
    c.firing? q now = none ↔ ¬ ∃ o, c.schedule.Occurs o ∧ q < o ∧ o ≤ now := by
  rw [Option.eq_none_iff_forall_not_mem]
  constructor
  · rintro h ⟨o, ho, hqo, honow⟩
    obtain ⟨n, hn⟩ := Cron.Schedule.exists_isNext ho hqo
    exact h n ((firing?_eq_some_iff hexact).2 ⟨hn, Int.le_trans (hn.least o ho hqo) honow⟩)
  · intro h o hfiring
    obtain ⟨ho, honow⟩ := (firing?_eq_some_iff hexact).1 hfiring
    exact h ⟨o, ho.occurs, ho.after, honow⟩

/-- A job is registered exactly if an occurrence lies after the last asking. -/
theorem waiting?_isSome_iff (hexact : c.schedule.Exact q) :
    (c.waiting? detail q).isSome ↔ ∃ o, c.schedule.Occurs o ∧ q < o := by
  rw [waiting?, Option.isSome_map, Option.isSome_iff_exists]
  constructor
  · rintro ⟨o, ho⟩
    have hnext := (next_eq_due_iff hexact).1 (NextFire.eq_due_of_due? ho)
    exact ⟨o, hnext.occurs, hnext.after⟩
  · rintro ⟨o, ho, hqo⟩
    obtain ⟨n, hn⟩ := Cron.Schedule.exists_isNext ho hqo
    exact ⟨n, by rw [(next_eq_due_iff hexact).2 hn, NextFire.due?_due]⟩

/-- A job fires after its trigger was last asked and not after the reading. -/
theorem lt_of_firing? (hc : (Trigger.recurring c).Parsed) (h : c.firing? q now = some o) : q < o ∧ o ≤ now := by
  obtain ⟨e, he⟩ := hc
  obtain ⟨hnext, honow⟩ := Option.filter_eq_some_iff.1 h
  exact ⟨lt_of_next he (NextFire.eq_due_of_due? hnext), by simpa using honow⟩

/-- What a pass hands over of a job that waits. -/
theorem dispatch_waiting? :
    (c.waiting? detail q).bind (Registration.dispatch? now) = (c.firing? q now).map fun o => ⟨detail, o⟩ := by
  unfold waiting? firing?
  cases (c.next q).due? with
  | none => rfl
  | some due =>
    by_cases hdue : due ≤ now
    · rw [Option.map_some, Option.bind_some, Registration.dispatch?_of_le hdue, Option.filter_some, if_pos (by simpa)]
      rfl
    · rw [Option.map_some, Option.bind_some, Registration.dispatch?_of_lt (Int.not_le.1 hdue), Option.filter_some,
        if_neg (by simpa)]
      rfl

/-- A job that waits goes on waiting after a pass. -/
theorem after_waiting? :
    (c.waiting? detail q).bind (Registration.after? now) = c.waiting? detail (c.askedIn q now) := by
  unfold askedIn firing?
  cases hq : (c.next q).due? with
  | none => simp [waiting?, hq]
  | some due =>
    have hwaiting : c.waiting? detail q = some ⟨detail, .recurring c, due⟩ := by rw [waiting?, hq]; rfl
    by_cases hdue : due ≤ now
    · rw [hwaiting, Option.bind_some, Registration.after?_of_le hdue, Option.filter_some, if_pos (by simpa)]
      unfold Registration.fire waiting?
      simp only [Trigger.next]
      cases c.next now <;> rfl
    · rw [hwaiting, Option.bind_some, Registration.after?_of_lt (Int.not_le.1 hdue), Option.filter_some,
        if_neg (by simpa)]
      exact hwaiting.symm

end Recurring

/-! ## Histories -/

/-- A deed that removes the registration of a key, or registers the key anew once the registration is gone. -/
def Dispatcher.Displaces (d : Dispatcher) (now : Instant) (k : Key) : Deed → Prop
  | .command .clear => True
  | .command (.delete k') => k' = k ∧ k ∈ d.jobs
  | .command (.schedule x t) => x.key = k ∧ k ∉ d.jobs ∧ (t.next now).2.due?.isSome
  | _ => False

instance (d : Dispatcher) (now : Instant) (k : Key) : (x : Deed) → Decidable (d.Displaces now k x)
  | .command .clear => inferInstanceAs (Decidable True)
  | .command (.delete k') => inferInstanceAs (Decidable (k' = k ∧ k ∈ d.jobs))
  | .command (.schedule x t) => inferInstanceAs (Decidable (x.key = k ∧ k ∉ d.jobs ∧ (t.next now).2.due?.isSome))
  | .command .keys => inferInstanceAs (Decidable False)
  | .command (.info _) => inferInstanceAs (Decidable False)
  | .pass => inferInstanceAs (Decidable False)

namespace Scheduler

/-- The clock reading of a move. -/
def Move.reading? : Move → Option Instant
  | .turn now => some now
  | _ => none

/-- What a move hands over to run under a key. -/
def dispatches (s : Scheduler) (k : Key) (m : Move) : List Dispatch := (s.handedOver m).filter (·.detail.key = k)

/-- The instant at which the trigger of a key was last asked once a move is made: the reading of the move if it hands
the job over. -/
def asked (s : Scheduler) (k : Key) (q : Instant) (m : Move) : Instant :=
  if s.dispatches k m = [] then q else m.reading?.getD q

/-- The instant at which the trigger of a key was last asked in a history. -/
def lastAsked (k : Key) : Instant → Scheduler → List Move → Instant
  | q, _, [] => q
  | q, s, m :: ms => lastAsked k (s.asked k q m) (s.move m) ms

/-- The fire times at which a history hands a key over, in their order. -/
def fireTimes (k : Key) : Scheduler → List Move → List Instant
  | _, [] => []
  | s, m :: ms => (s.dispatches k m).map Dispatch.fireTime ++ fireTimes k (s.move m) ms

/-- No command of a history removes the registration of a key or registers the key anew. -/
def Spares (k : Key) : Scheduler → List Move → Prop
  | _, [] => True
  | s, m :: ms =>
    (∀ now ∈ m.reading?, ∀ x ∈ s.deed?, ¬ s.dispatcher.Displaces now k x) ∧ Spares k (s.move m) ms

instance decidableSpares (k : Key) : ∀ (s : Scheduler) (ms : List Move), Decidable (Spares k s ms)
  | _, [] => inferInstanceAs (Decidable True)
  | s, m :: ms =>
    have := decidableSpares k (s.move m) ms
    inferInstanceAs (Decidable (_ ∧ _))

/-- The next turn, at a clock reading, takes the registration of a job and accepts it. -/
def Accepts (s : Scheduler) (p : Instant) (detail : Detail) (t : Trigger) : Prop :=
  s.deed? = some (.command (.schedule detail t)) ∧ ∃ ticket, (ticket, .ok .done) ∈ (s.turn p).2

variable {s : Scheduler} {detail : Detail} {c : Recurring} {k : Key} {p q now : Instant} {m : Move} {ms : List Move}

theorem dispatches_eq_nil (h : ∀ now, m = .turn now → s.deed? ≠ some .pass) : s.dispatches k m = [] := by
  rw [dispatches, handedOver_eq_nil h, List.filter_nil]

/-- A job that is accepted waits for its first fire time. -/
theorem waiting_of_accepts (h : s.Accepts p detail (.recurring c)) :
    (s.move (.turn p)).dispatcher.jobs[detail.key]? = c.waiting? detail p := by
  obtain ⟨hdeed, ticket, hreply⟩ := h
  show (s.turn p).1.dispatcher.jobs[detail.key]? = _
  rcases turn_of_command hdeed p with ⟨ticket', inbox, d, reply, -, hd, ht⟩ | ⟨-, -, habandoned⟩
  · rw [ht] at hreply ⊢
    cases List.mem_singleton.1 hreply
    rcases Dispatcher.handle_cases hd with ⟨-, hreply⟩ | ⟨r, t, hc, -, hnext, rfl, -⟩ | ⟨_, hc, -⟩ | ⟨hc, -⟩
    · exact absurd rfl hreply
    · obtain ⟨x, t', due⟩ := r
      cases hc
      obtain ⟨rfl, hdue⟩ := Prod.mk.inj hnext
      simp only [Recurring.waiting?, hdue, NextFire.due?_due, Option.map_some, Dispatcher.noteRegistered,
        Dispatcher.enter, Std.ExtTreeMap.getElem?_insert_self]
    · cases hc
    · cases hc
  · exact absurd (habandoned ▸ hreply) (not_mem_abandonInbox s _ _)

/-- A command that does not displace a key leaves its registration. -/
theorem getElem?_jobs_handle {d d' : Dispatcher} {x : Command} {reply : Except SchedulerError Answer}
    (hx : ¬ d.Displaces now k (.command x)) (h : d.handle now x = some (d', reply)) : d'.jobs[k]? = d.jobs[k]? := by
  rcases Dispatcher.handle_cases h with ⟨rfl, -⟩ | ⟨r, t, rfl, hfree, hnext, rfl, -⟩ | ⟨k', rfl, hmem, rfl, -⟩ |
    ⟨rfl, -⟩
  · rfl
  · have hk : r.detail.key ≠ k := by
      rintro rfl
      exact hx ⟨rfl, hfree, by rw [hnext]; rfl⟩
    simp only [Dispatcher.enter, Std.ExtTreeMap.getElem?_insert, Std.LawfulEqCmp.compare_eq_iff_eq, hk, ↓reduceIte]
  · have hk : k' ≠ k := by
      rintro rfl
      exact hx ⟨rfl, hmem⟩
    simp only [Std.ExtTreeMap.getElem?_erase, Std.LawfulEqCmp.compare_eq_iff_eq, hk, ↓reduceIte]
  · exact absurd trivial hx

/-- A move that is no timer pass and does not displace a key leaves its registration. -/
theorem getElem?_jobs_move (hpass : ∀ now, m = .turn now → s.deed? ≠ some .pass)
    (hspares : ∀ now ∈ m.reading?, ∀ x ∈ s.deed?, ¬ s.dispatcher.Displaces now k x) :
    (s.move m).dispatcher.jobs[k]? = s.dispatcher.jobs[k]? := by
  cases m with
  | turn now =>
    show (s.turn now).1.dispatcher.jobs[k]? = _
    cases hdeed : s.deed? with
    | none => exact congrArg (·[k]?) (sameStores_turn hdeed now).jobs
    | some x =>
      cases x with
      | pass => exact absurd hdeed (hpass now rfl)
      | command x =>
        rcases turn_of_command hdeed now with ⟨ticket, inbox, d, reply, -, hd, ht⟩ | ⟨-, ht, -⟩ <;> rw [ht]
        have hjobs : d.jobs[k]? = s.dispatcher.jobs[k]? := getElem?_jobs_handle (hspares now rfl _ hdeed) hd
        exact hjobs
  | submit x => rcases move_submit_cases s x with ⟨-, h⟩ | ⟨-, h⟩ <;> rw [h]
  | registry r => rfl
  | _ => exact congrArg (·[k]?) (sameStores_move (by simp) (by simp) (by simp)).jobs

/-- A timer pass that comes to its end hands a job that waits over exactly if it is due, and the job goes on waiting. -/
theorem pass_of_waiting (hs : s.Ordered) (hwaiting : s.dispatcher.jobs[detail.key]? = c.waiting? detail q)
    (hdeed : s.deed? = some .pass) (halive : (s.move (.turn now)).phase ≠ .broken) :
    s.dispatches detail.key (.turn now) = ((c.firing? q now).map fun o => (⟨detail, o⟩ : Dispatch)).toList ∧
      (s.move (.turn now)).dispatcher.jobs[detail.key]? = c.waiting? detail (c.askedIn q now) := by
  have hphase : s.phase ≠ .broken := by simp [(running_of_deed hdeed).1]
  have htidy := hs.tidy hphase
  have hparsed := hs.parsed hphase
  have hturn : s.move (.turn now) = (s.takePass now).1 := congrArg Prod.fst (turn_of_pass hdeed now)
  rw [hturn] at halive
  have hbroken := unbroken_of_takePass halive
  obtain ⟨m, hdispatcher, -⟩ := takePass_of_unbroken hbroken
  constructor
  · rw [dispatches, handedOver_of_pass hdeed, Dispatcher.fired_pass htidy hparsed hbroken, hwaiting,
      Recurring.dispatch_waiting?]
  · rw [hturn, hdispatcher]
    exact (Dispatcher.jobs_pass htidy hparsed hbroken _).trans (hwaiting ▸ Recurring.after_waiting?)

/-- A job that waits goes on waiting over a move that spares it. -/
theorem waiting_move (hs : s.Ordered) (hwaiting : s.dispatcher.jobs[detail.key]? = c.waiting? detail q)
    (hspares : ∀ now ∈ m.reading?, ∀ x ∈ s.deed?, ¬ s.dispatcher.Displaces now detail.key x)
    (halive : (s.move m).phase ≠ .broken) :
    (s.move m).dispatcher.jobs[detail.key]? = c.waiting? detail (s.asked detail.key q m) := by
  by_cases hpass : ∀ now, m = .turn now → s.deed? ≠ some .pass
  · rw [asked, dispatches_eq_nil hpass, if_pos rfl, ← hwaiting]
    exact getElem?_jobs_move hpass hspares
  · push Not at hpass
    obtain ⟨now, rfl, hdeed⟩ := hpass
    obtain ⟨hdispatches, hjobs⟩ := pass_of_waiting hs hwaiting hdeed halive
    rw [hjobs, asked, hdispatches, Recurring.askedIn]
    cases c.firing? q now <;> rfl

/-- What a move does with a job that waits: it leaves it alone, or it is a pass that fires it. -/
theorem dispatches_cases (hs : s.Ordered) (hwaiting : s.dispatcher.jobs[detail.key]? = c.waiting? detail q)
    (halive : (s.move m).phase ≠ .broken) :
    (s.dispatches detail.key m = [] ∧ s.asked detail.key q m = q) ∨
    ∃ now o, m = .turn now ∧ c.firing? q now = some o ∧ s.dispatches detail.key m = [⟨detail, o⟩] ∧
      s.asked detail.key q m = now := by
  by_cases hnone : s.dispatches detail.key m = []
  · exact .inl ⟨hnone, if_pos hnone⟩
  · have hpass : ∃ now, m = .turn now ∧ s.deed? = some .pass := by
      by_contra hpass
      push Not at hpass
      exact hnone (dispatches_eq_nil hpass)
    obtain ⟨now, rfl, hdeed⟩ := hpass
    have hdispatches := (pass_of_waiting hs hwaiting hdeed halive).1
    cases hfiring : c.firing? q now with
    | none =>
      rw [hfiring] at hdispatches
      exact absurd hdispatches hnone
    | some o =>
      rw [hfiring] at hdispatches
      exact .inr ⟨now, o, rfl, hfiring, hdispatches, if_neg hnone⟩

section History

variable (hs : s.Ordered) (hms : ∀ m ∈ ms, m.Parsed)
  (hwaiting : s.dispatcher.jobs[detail.key]? = c.waiting? detail q) (hspares : Spares detail.key s ms)
  (halive : (s.moves ms).phase ≠ .broken)
include hs hms hwaiting hspares halive

/-- A job that waits goes on waiting over a history that spares it. -/
theorem waiting_moves :
    (s.moves ms).dispatcher.jobs[detail.key]? = c.waiting? detail (lastAsked detail.key q s ms) := by
  induction ms generalizing s q with
  | nil => exact hwaiting
  | cons m ms ih =>
    have hmove : (s.move m).phase ≠ .broken := fun h => halive (moves_of_broken h ms)
    have hwaiting' := waiting_move hs hwaiting hspares.1 hmove
    exact ih (hs.move (hms m List.mem_cons_self)) (fun m' hm' => hms m' (List.mem_cons_of_mem _ hm')) hwaiting'
      hspares.2 halive

/-- The fire times of a job increase strictly. -/
theorem fireTimes_increase (hc : (Trigger.recurring c).Parsed) :
    (∀ o ∈ fireTimes detail.key s ms, q < o) ∧ (fireTimes detail.key s ms).Pairwise (· < ·) := by
  induction ms generalizing s q with
  | nil => exact ⟨by simp [fireTimes], .nil⟩
  | cons m ms ih =>
    have hmove : (s.move m).phase ≠ .broken := fun h => halive (moves_of_broken h ms)
    have hwaiting' := waiting_move hs hwaiting hspares.1 hmove
    obtain ⟨hlater, hincrease⟩ := ih (hs.move (hms m List.mem_cons_self))
      (fun m' hm' => hms m' (List.mem_cons_of_mem _ hm')) hwaiting' hspares.2 halive
    unfold fireTimes
    rcases dispatches_cases hs hwaiting hmove with ⟨hnone, hasked⟩ | ⟨now, o, -, hfiring, hone, hasked⟩
    · rw [hasked] at hlater
      rw [hnone]
      exact ⟨hlater, hincrease⟩
    · obtain ⟨hqo, honow⟩ := Recurring.lt_of_firing? hc hfiring
      rw [hasked] at hlater
      rw [hone]
      have hafter : ∀ o' ∈ fireTimes detail.key (s.move m) ms, o < o' := fun o' ho' =>
        Instant.lt_of_le_of_lt honow (hlater o' ho')
      refine ⟨fun o' ho' => ?_, List.pairwise_cons.2 ⟨hafter, hincrease⟩⟩
      rcases List.mem_cons.1 ho' with rfl | ho'
      · exact hqo
      · exact Int.lt_trans hqo (hafter o' ho')

end History

/-- The last asking is the first one or the reading of a move. -/
theorem lastAsked_mem (k : Key) (q : Instant) (s : Scheduler) (ms : List Move) :
    lastAsked k q s ms ∈ q :: ms.filterMap Move.reading? := by
  induction ms generalizing q s with
  | nil => exact List.mem_cons_self
  | cons m ms ih =>
    have hlast := ih (s.asked k q m) (s.move m)
    rw [lastAsked, List.filterMap_cons]
    unfold asked at hlast ⊢
    cases hreading : m.reading? with
    | none =>
      rw [hreading, Option.getD_none, ite_self] at hlast
      rw [Option.getD_none, ite_self]
      exact hlast
    | some now =>
      rw [hreading, Option.getD_some] at hlast
      rw [Option.getD_some]
      split at hlast
      · rename_i hnone
        rw [if_pos hnone]
        rcases List.mem_cons.1 hlast with h | h
        · rw [h]
          exact List.mem_cons_self
        · exact List.mem_cons_of_mem _ (List.mem_cons_of_mem _ h)
      · rename_i hsome
        rw [if_neg hsome]
        exact List.mem_cons_of_mem _ hlast

/-! ## The law -/

/-- How a recurring job fires whose trigger was last asked at an instant. A pass is told of if the loop does not break
down over it, that is, if the search answers all triggers it asks; the last field says that any search does before the
last second of the calendar. -/
structure FiringLaw (s : Scheduler) (detail : Detail) (c : Recurring) (q : Instant) : Prop where
  /-- The job is registered exactly as long as an occurrence lies ahead. -/
  registered : detail.key ∈ s.dispatcher.jobs ↔ ∃ o, c.schedule.Occurs o ∧ q < o
  /-- A pass hands the job over, once and at the first occurrence, exactly if this lies not after the reading. -/
  fires : ∀ now o, s.deed? = some .pass → (s.move (.turn now)).phase ≠ .broken →
    (s.dispatches detail.key (.turn now) = [⟨detail, o⟩] ↔ c.schedule.IsNext q o ∧ o ≤ now)
  /-- A pass hands nothing over exactly if no occurrence lies after the last asking and not after the reading. -/
  rests : ∀ now, s.deed? = some .pass → (s.move (.turn now)).phase ≠ .broken →
    (s.dispatches detail.key (.turn now) = [] ↔ ¬ ∃ o, c.schedule.Occurs o ∧ q < o ∧ o ≤ now)
  /-- Nothing but a pass hands the job over. -/
  still : ∀ m, (∀ now, m = .turn now → s.deed? ≠ some .pass) → s.dispatches detail.key m = []
  /-- A pass that hands the job over removes it exactly if no occurrence lies after the reading. -/
  removed : ∀ now, s.deed? = some .pass → (s.move (.turn now)).phase ≠ .broken → c.schedule.Exact now →
    s.dispatches detail.key (.turn now) ≠ [] →
    (detail.key ∉ (s.move (.turn now)).dispatcher.jobs ↔ ¬ ∃ o, c.schedule.Occurs o ∧ now < o)
  /-- The loop breaks down only in the last second of the calendar. -/
  breaks : ∀ m, (s.move m).phase = .broken → ∃ now, m = .turn now ∧ Instant.lastSecond ≤ now.second

/-- A job that waits is registered exactly if an occurrence lies ahead. -/
theorem mem_jobs_iff (hwaiting : s.dispatcher.jobs[detail.key]? = c.waiting? detail q)
    (hexact : c.schedule.Exact q) : detail.key ∈ s.dispatcher.jobs ↔ ∃ o, c.schedule.Occurs o ∧ q < o := by
  rw [Std.ExtTreeMap.mem_iff_isSome_getElem?, hwaiting, Recurring.waiting?_isSome_iff hexact]

theorem firingLaw_of_waiting (hs : s.Ordered) (halive : s.phase ≠ .broken)
    (hwaiting : s.dispatcher.jobs[detail.key]? = c.waiting? detail q) (hexact : c.schedule.Exact q) :
    s.FiringLaw detail c q where
  registered := mem_jobs_iff hwaiting hexact
  fires now o hdeed hnow := by
    rw [(pass_of_waiting hs hwaiting hdeed hnow).1, ← Recurring.firing?_eq_some_iff hexact]
    cases c.firing? q now <;> simp
  rests now hdeed hnow := by
    rw [(pass_of_waiting hs hwaiting hdeed hnow).1, ← Recurring.firing?_eq_none_iff hexact]
    cases c.firing? q now <;> simp
  still m hm := dispatches_eq_nil hm
  removed now hdeed hnow hexact' hfired := by
    obtain ⟨hdispatches, hjobs⟩ := pass_of_waiting hs hwaiting hdeed hnow
    cases hfiring : c.firing? q now with
    | none =>
      rw [hfiring] at hdispatches
      exact absurd hdispatches hfired
    | some o =>
      rw [Recurring.askedIn, hfiring, Option.isSome_some, if_pos rfl] at hjobs
      exact not_congr (mem_jobs_iff hjobs hexact')
  breaks m hm := (second_of_broken hs hm).resolve_left halive

/-- A state to which moves lead whose recurring triggers were made from expressions. -/
def Reachable (s : Scheduler) : Prop := ∃ ms : List Move, (∀ m ∈ ms, m.Parsed) ∧ ({} : Scheduler).moves ms = s

theorem Reachable.ordered (hs : s.Reachable) : s.Ordered := by
  obtain ⟨ms, hms, rfl⟩ := hs
  exact ordered_default.moves hms

/-- If all readings lie before the last second of the calendar, the search answers every trigger, and the loop does not
break down. -/
theorem phase_moves_ne_broken (hs : s.Ordered) (hms : ∀ m ∈ ms, m.Parsed) (halive : s.phase ≠ .broken)
    (hreadings : ∀ now ∈ ms.filterMap Move.reading?, now.second < Instant.lastSecond) :
    (s.moves ms).phase ≠ .broken := by
  induction ms generalizing s with
  | nil => exact halive
  | cons m ms ih =>
    refine ih (hs.move (hms m List.mem_cons_self)) (fun m' hm' => hms m' (List.mem_cons_of_mem _ hm')) ?_
      fun now hnow => hreadings now ?_
    · intro hbroken
      obtain ⟨now, rfl, hlast⟩ := (second_of_broken hs hbroken).resolve_left halive
      exact absurd (hreadings now (by simp [Move.reading?])) (Int.not_lt.2 hlast)
    · rw [List.filterMap_cons]
      split
      · exact hnow
      · exact List.mem_cons_of_mem _ hnow

/-- Whatever a scheduler goes through after it accepted a recurring job, the law holds for the job at the last asking,
and the fire times increase, as long as no command removes the job. The search for occurrences is taken to be exact at
the readings, and to have answered every trigger that the loop asked: a loop breaks down over nothing else, and never
over readings before the last second of the calendar (`phase_moves_ne_broken`). -/
theorem recurring_fires (hs : s.Reachable) (haccepts : s.Accepts p detail (.recurring c)) (hms : ∀ m ∈ ms, m.Parsed)
    (hspares : Spares detail.key (s.move (.turn p)) ms)
    (hexact : ∀ now ∈ p :: ms.filterMap Move.reading?, c.schedule.Exact now)
    (halive : ((s.move (.turn p)).moves ms).phase ≠ .broken) :
    ((s.move (.turn p)).moves ms).FiringLaw detail c (lastAsked detail.key p (s.move (.turn p)) ms) ∧
      (fireTimes detail.key (s.move (.turn p)) ms).Pairwise (· < ·) := by
  have hordered : (s.move (.turn p)).Ordered := hs.ordered.turn p
  have hc : (Trigger.recurring c).Parsed := by
    obtain ⟨ticket, hmem⟩ := exists_mem_inbox haccepts.1
    exact hs.ordered.inbox _ hmem
  have hwaiting := waiting_of_accepts haccepts
  constructor
  · exact firingLaw_of_waiting (hordered.moves hms) halive (waiting_moves hordered hms hwaiting hspares halive)
      (hexact _ (lastAsked_mem ..))
  · exact (fireTimes_increase hordered hms hwaiting hspares halive hc).2

/-! ### Every minute -/

/-- A chore that is to be done every minute. -/
def tick : Detail := ⟨.full "daily", .chore "tick" false⟩

def tickTrigger : Recurring := ⟨"* * * * *", World.everyMinute⟩

/-- A scheduler is started and gets the chore. -/
def ticking : Scheduler := ({} : Scheduler).moves [.start, .submit (.schedule tick (.recurring tickTrigger))]

/-- The chore is handed over late and begins, and the clock is put back. -/
def tickHistory : List Move := [.turn (.ofSecond 1714564890), .beginRun 0, .turn (.ofSecond 1714564830)]

theorem reachable_ticking : ticking.Reachable := by
  refine ⟨_, fun m hm => ?_, rfl⟩
  rcases List.mem_cons.1 hm with rfl | hm
  · trivial
  · cases List.mem_singleton.1 hm
    exact ⟨"* * * * *", by decide +kernel⟩

theorem exact_tickHistory : ∀ now ∈ World.noon :: tickHistory.filterMap Move.reading?,
    tickTrigger.schedule.Exact now := by
  intro now hnow
  rcases List.mem_cons.1 hnow with rfl | hnow
  · exact World.exact_noon
  · rcases List.mem_cons.1 hnow with rfl | hnow
    · exact Cron.Schedule.exact_of_skipped (n := 29) (by decide +kernel) (by decide +kernel) (by decide +kernel)
    · cases List.mem_singleton.1 hnow
      exact Cron.Schedule.exact_of_skipped (n := 29) (by decide +kernel) (by decide +kernel) (by decide +kernel)

/-- Four more minutes go by while the first run is at work: the chore is handed over once, for the first of them. -/
theorem tick_fires :
    (((ticking.move (.turn World.noon)).moves tickHistory).dispatches tick.key (.turn (.ofSecond 1714565105)) =
      [⟨tick, .ofSecond 1714564920⟩]) ∧
    (fireTimes tick.key (ticking.move (.turn World.noon)) tickHistory).Pairwise (· < ·) ∧
    fireTimes tick.key (ticking.move (.turn World.noon)) tickHistory = [.ofSecond 1714564860] := by
  have haccepts : ticking.Accepts World.noon tick (.recurring tickTrigger) :=
    ⟨by decide +kernel, 0, by decide +kernel⟩
  have hparsed : ∀ m ∈ tickHistory, m.Parsed := by simp [tickHistory, Move.Parsed]
  have halive : ((ticking.move (.turn World.noon)).moves tickHistory).phase ≠ .broken :=
    phase_moves_ne_broken (reachable_ticking.ordered.turn World.noon) hparsed (by decide +kernel) (by decide +kernel)
  obtain ⟨hlaw, hincrease⟩ := recurring_fires reachable_ticking haccepts hparsed (by decide +kernel)
    exact_tickHistory halive
  have hasked : lastAsked tick.key World.noon (ticking.move (.turn World.noon)) tickHistory = .ofSecond 1714564890 := by
    decide +kernel
  have hnext : tickTrigger.schedule.IsNext (.ofSecond 1714564890) (.ofSecond 1714564920) :=
    (exact_tickHistory _ (by decide) _).1 (by decide +kernel)
  refine ⟨(hlaw.fires _ _ (by decide +kernel) (by decide +kernel)).2 ⟨hasked ▸ hnext, by decide⟩, hincrease, ?_⟩
  decide +kernel

end Scheduler

end Rota
