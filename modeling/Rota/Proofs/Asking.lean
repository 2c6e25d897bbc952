import Rota.Proofs.Occurrence
import Rota.Trigger.Basic

/-!
# Asking a run-once trigger again and again

A fresh run-once trigger that is asked at instants in turn refuses its delay for a while, hands out its fire time at
most once, and is spent from then on (`RunOnce.answersLaw`).

- whether the delay is refused depends only on whether the instant that far ahead lies in the calendar: a delay that is
  longer than a calendar delay can be leads out of the calendar from everywhere (`target?_eq_ite`);
- what one call does to a trigger (`next_of_inCalendar`, `next_of_beyond`, `next_of_asked`);
- by induction on the number of calls, how far the trigger has come after them (`asked_take`).
-/

namespace Rota

/-- An instant lies in the calendar. -/
def Instant.InCalendar (t : Instant) : Prop := earliest ≤ t ∧ t ≤ latest

instance (t : Instant) : Decidable t.InCalendar := inferInstanceAs (Decidable (_ ∧ _))

namespace RunOnce

variable {o : RunOnce} {delay : Span} {since : Instant} {calls : List Instant} {i : Nat}

/-! ## One call -/

/-- A delay leads from an instant of the calendar to the instant that far ahead, if this lies in the calendar, too. -/
theorem target?_eq_ite (delay : Span) (hsince : since.InCalendar) :
    target? delay since = if (since + delay).InCalendar then some (since + delay) else none := by
  unfold target?
  by_cases htarget : (since + delay).InCalendar
  · -- Such a delay is shorter than the calendar, and the longest delay is longer.
    have hshort : delay.nanos ≤ Span.longestDelay.nanos := by
      have hfrom : Instant.earliest.nanos ≤ since.nanos := hsince.1
      have hto : since.nanos + delay.nanos ≤ Instant.latest.nanos := htarget.2
      simp only [Instant.earliest, Instant.latest, Instant.ofSecond, Instant.lastSecond, nanosPerSecond] at hfrom hto
      simp only [Span.longestDelay]
      omega
    rw [if_pos ⟨hshort, htarget.2⟩, if_pos htarget]
  · have hbeyond : ¬ since + delay ≤ Instant.latest := by
      intro hlatest
      exact htarget ⟨Int.le_trans hsince.1 (Instant.le_add since delay), hlatest⟩
    rw [if_neg fun h => hbeyond h.2, if_neg htarget]

/-- A trigger of which no fire time was handed out. -/
def fresh (delay : Span) : RunOnce := { delay }

/-- A fresh trigger hands out the instant a delay ahead if it lies in the calendar. -/
theorem next_of_inCalendar (hsince : since.InCalendar) (htarget : (since + delay).InCalendar) :
    (fresh delay).next since = (⟨delay, .pending⟩, .due (since + delay)) := by
  simp only [next, fresh, target?_eq_ite delay hsince, if_pos htarget]

/-- A fresh trigger whose delay leads out of the calendar refuses it and stays fresh. -/
theorem next_of_beyond (hsince : since.InCalendar) (htarget : ¬ (since + delay).InCalendar) :
    (fresh delay).next since = (fresh delay, .refused (.invalidDelay delay)) := by
  simp only [next, fresh, target?_eq_ite delay hsince, if_neg htarget]

/-- A trigger that has handed out its fire time is spent with the next call. -/
theorem next_of_asked (ho : o.progress ≠ .unscheduled) (since : Instant) :
    o.next since = (⟨o.delay, .expired⟩, .refused .expired) := by
  obtain ⟨delay, progress⟩ := o
  cases progress with
  | unscheduled => exact absurd rfl ho
  | pending => rfl
  | expired => rfl

/-- No call changes the delay. -/
theorem next_delay (o : RunOnce) (since : Instant) : (o.next since).1.delay = o.delay := by
  unfold next
  split
  · split <;> rfl
  · rfl
  · rfl

/-! ## Calls in turn -/

/-- The trigger after it was asked at instants in turn. -/
def asked (o : RunOnce) (calls : List Instant) : RunOnce := calls.foldl (fun o since => (o.next since).1) o

/-- The delay stays what it is. -/
theorem asked_delay (o : RunOnce) (calls : List Instant) : (o.asked calls).delay = o.delay := by
  induction calls generalizing o with
  | nil => rfl
  | cons since calls ih => exact (ih _).trans (next_delay o since)

/-- The answers of a trigger that is asked at instants in turn. -/
def answers : RunOnce → List Instant → List NextFire
  | _, [] => []
  | o, since :: calls => (o.next since).2 :: answers (o.next since).1 calls

/-- An answer is that of the trigger as the calls before have left it. -/
theorem getElem?_answers (o : RunOnce) (calls : List Instant) (i : Nat) :
    (o.answers calls)[i]? = calls[i]?.map fun since => ((o.asked (calls.take i)).next since).2 := by
  induction calls generalizing o i with
  | nil => rfl
  | cons since calls ih =>
    cases i with
    | zero => rfl
    | succ i => exact ih _ i

theorem asked_take_succ (o : RunOnce) (h : calls[i]? = some since) :
    o.asked (calls.take (i + 1)) = ((o.asked (calls.take i)).next since).1 := by
  rw [List.take_add_one, h, asked, List.foldl_append]
  rfl

/-- The number of calls of a fresh trigger before one whose fire time lies in the calendar. -/
def refusals (delay : Span) (calls : List Instant) : Nat := calls.findIdx fun since => (since + delay).InCalendar

/-- How far a fresh trigger has come after a number of calls, of which the first `n` are refused. -/
def progressAfter (n i : Nat) : Progress :=
  if i ≤ n then .unscheduled else if i = n + 1 then .pending else .expired

/-- What it answers to the call after these. -/
def answerAfter (delay : Span) (n i : Nat) (since : Instant) : NextFire :=
  if i < n then .refused (.invalidDelay delay) else if i = n then .due (since + delay) else .refused .expired

theorem progressAfter_eq_pending_iff (n i : Nat) : progressAfter n i = .pending ↔ i = n + 1 := by
  unfold progressAfter
  split
  · simp
    omega
  · split <;> simp [*]

theorem progressAfter_eq_expired_iff (n i : Nat) : progressAfter n i = .expired ↔ n + 1 < i := by
  unfold progressAfter
  split
  · simp
    omega
  · split
    · simp
      omega
    · simp
      omega

theorem beyond_of_lt_refusals {hi : i < calls.length} (h : i < refusals delay calls) :
    ¬ (calls[i] + delay).InCalendar := by
  simpa using List.not_of_lt_findIdx h

theorem inCalendar_of_eq_refusals {hi : i < calls.length} (h : i = refusals delay calls) :
    (calls[i] + delay).InCalendar := by
  subst h
  exact of_decide_eq_true (List.findIdx_getElem (w := hi))

section Fresh

variable (hcalls : ∀ since ∈ calls, since.InCalendar)
include hcalls

/-- One more call of a trigger that was fresh. -/
theorem next_progressAfter (delay : Span) (hi : i < calls.length) :
    (⟨delay, progressAfter (refusals delay calls) i⟩ : RunOnce).next calls[i] =
      (⟨delay, progressAfter (refusals delay calls) (i + 1)⟩, answerAfter delay (refusals delay calls) i calls[i]) := by
  have hsince : calls[i].InCalendar := hcalls _ (List.getElem_mem hi)
  rcases Nat.lt_trichotomy i (refusals delay calls) with hlt | heq | hgt
  · simp only [progressAfter, answerAfter, if_pos hlt, if_pos (Nat.le_of_lt hlt), if_pos (Nat.succ_le_of_lt hlt)]
    exact next_of_beyond hsince (beyond_of_lt_refusals hlt)
  · simp only [progressAfter, answerAfter, ← heq, Nat.lt_irrefl, Nat.le_refl, Nat.not_succ_le_self, if_true, if_false]
    exact next_of_inCalendar hsince (inCalendar_of_eq_refusals heq)
  · have hasked : (⟨delay, progressAfter (refusals delay calls) i⟩ : RunOnce).progress ≠ .unscheduled := by
      simp only [progressAfter, if_neg (Nat.not_le_of_lt hgt)]
      split <;> simp
    have hspent : progressAfter (refusals delay calls) (i + 1) = .expired := by
      rw [progressAfter, if_neg (by omega), if_neg (by omega)]
    have hanswer : answerAfter delay (refusals delay calls) i calls[i] = .refused .expired := by
      rw [answerAfter, if_neg (by omega), if_neg (by omega)]
    rw [hspent, hanswer]
    exact next_of_asked hasked _

/-- How far a fresh trigger has come after some of the calls. -/
theorem asked_take (delay : Span) (hi : i ≤ calls.length) :
    (fresh delay).asked (calls.take i) = ⟨delay, progressAfter (refusals delay calls) i⟩ := by
  induction i with
  | zero => rfl
  | succ i ih =>
    rw [asked_take_succ _ (List.getElem?_eq_getElem hi), ih (Nat.le_of_succ_le hi), next_progressAfter hcalls delay hi]

/-- What a fresh trigger answers to each call. -/
theorem getElem?_answers_fresh (delay : Span) (i : Nat) :
    ((fresh delay).answers calls)[i]? = calls[i]?.map (answerAfter delay (refusals delay calls) i) := by
  rw [getElem?_answers]
  cases hget : calls[i]? with
  | none => rfl
  | some since =>
    obtain ⟨hi, rfl⟩ := List.getElem?_eq_some_iff.1 hget
    rw [Option.map_some, asked_take hcalls delay (Nat.le_of_lt hi), next_progressAfter hcalls delay hi]
    rfl

/-- The only call that hands out a fire time is the one after those that are refused. -/
theorem getElem?_answers_eq_due_iff (delay : Span) {t : Instant} :
    ((fresh delay).answers calls)[i]? = some (.due t) ↔
      i = refusals delay calls ∧ ∃ since, calls[i]? = some since ∧ t = since + delay := by
  rw [getElem?_answers_fresh hcalls, Option.map_eq_some_iff]
  unfold answerAfter
  constructor
  · rintro ⟨since, hget, hanswer⟩
    split at hanswer
    · cases hanswer
    · split at hanswer
      · rename_i heq
        cases hanswer
        exact ⟨heq, since, hget, rfl⟩
      · cases hanswer
  · rintro ⟨rfl, since, hget, rfl⟩
    exact ⟨since, hget, by simp⟩

/-- Before a fire time is handed out the calls are refused. -/
theorem le_refusals (delay : Span) (hi : i < calls.length)
    (hbefore : ∀ j < i, ∀ t, ((fresh delay).answers calls)[j]? ≠ some (.due t)) : i ≤ refusals delay calls := by
  by_contra hlt
  have hlt' : refusals delay calls < i := Nat.lt_of_not_le hlt
  refine hbefore _ hlt' _ ((getElem?_answers_eq_due_iff hcalls delay).2 ⟨rfl, _, List.getElem?_eq_getElem ?_, rfl⟩)
  omega

end Fresh

/-! ## The law -/

/-- How a fresh trigger answers calls in turn, and how far it has come between them. -/
structure AnswersLaw (delay : Span) (calls : List Instant) : Prop where
  /-- The delay is refused for a number of calls, then a fire time is handed out at most once, and from then on the
  trigger is spent. -/
  shape : ∃ (n m : Nat) (fire : Option Instant), (fresh delay).answers calls =
    List.replicate n (.refused (.invalidDelay delay)) ++ (fire.map NextFire.due).toList ++
      List.replicate m (.refused .expired) ∧ (fire = none → m = 0)
  /-- As long as no fire time was handed out, a call hands out the instant a delay ahead, which is never an earlier one,
  exactly if that lies in the calendar. -/
  due_iff : ∀ (i : Nat) (since : Instant), calls[i]? = some since →
    (∀ j < i, ∀ t, ((fresh delay).answers calls)[j]? ≠ some (.due t)) →
    since ≤ since + delay ∧
      (((fresh delay).answers calls)[i]? = some (.due (since + delay)) ↔ (since + delay).InCalendar)
  /-- Otherwise the call is refused for the delay. -/
  refused : ∀ (i : Nat) (since : Instant), calls[i]? = some since →
    (∀ j < i, ∀ t, ((fresh delay).answers calls)[j]? ≠ some (.due t)) → ¬ (since + delay).InCalendar →
    ((fresh delay).answers calls)[i]? = some (.refused (.invalidDelay delay))
  /-- A call that is refused for the delay leaves the trigger as it was. -/
  kept : ∀ i : Nat, ((fresh delay).answers calls)[i]? = some (.refused (.invalidDelay delay)) →
    (fresh delay).asked (calls.take (i + 1)) = (fresh delay).asked (calls.take i)
  /-- The firing is ahead exactly between the call that hands out the fire time and the next one. -/
  pending_iff : ∀ i ≤ calls.length, ((fresh delay).asked (calls.take i)).progress = .pending ↔
    ∃ (j : Nat) (t : Instant), i = j + 1 ∧ ((fresh delay).answers calls)[j]? = some (.due t)
  /-- The trigger is spent exactly from the next call on. -/
  expired_iff : ∀ i ≤ calls.length, ((fresh delay).asked (calls.take i)).progress = .expired ↔
    ∃ (j : Nat) (t : Instant), j + 1 < i ∧ ((fresh delay).answers calls)[j]? = some (.due t)
  /-- The delay stays what it is. -/
  delay : ∀ i, ((fresh delay).asked (calls.take i)).delay = delay

/-- A trigger that has handed out its fire time only answers that it is spent. -/
theorem answers_of_asked (ho : o.progress ≠ .unscheduled) (calls : List Instant) :
    o.answers calls = List.replicate calls.length (.refused .expired) := by
  induction calls generalizing o with
  | nil => rfl
  | cons since calls ih =>
    rw [answers, next_of_asked ho, ih (by simp)]
    rfl

/-- The answers of a fresh trigger: refusals, at most one fire time, and that it is spent. -/
theorem answers_fresh_shape (delay : Span) (hcalls : ∀ since ∈ calls, since.InCalendar) :
    ∃ (n m : Nat) (fire : Option Instant), (fresh delay).answers calls =
      List.replicate n (.refused (.invalidDelay delay)) ++ (fire.map NextFire.due).toList ++
        List.replicate m (.refused .expired) ∧ (fire = none → m = 0) := by
  induction calls with
  | nil => exact ⟨0, 0, none, rfl, fun _ => rfl⟩
  | cons since calls ih =>
    have hsince : since.InCalendar := hcalls since List.mem_cons_self
    by_cases htarget : (since + delay).InCalendar
    · refine ⟨0, calls.length, some (since + delay), ?_, nofun⟩
      rw [answers, next_of_inCalendar hsince htarget, answers_of_asked (by simp)]
      rfl
    · obtain ⟨n, m, fire, hanswers, hnone⟩ := ih fun later hlater => hcalls later (List.mem_cons_of_mem since hlater)
      refine ⟨n + 1, m, fire, ?_, hnone⟩
      rw [answers, next_of_beyond hsince htarget, hanswers]
      rfl

/-- Any fresh trigger obeys the law, whatever its delay and whenever it is asked. -/
theorem answersLaw (delay : Span) (calls : List Instant) (hcalls : ∀ since ∈ calls, since.InCalendar) :
    AnswersLaw delay calls where
  shape := answers_fresh_shape delay hcalls
  due_iff i since hget hbefore := by
    obtain ⟨hi, rfl⟩ := List.getElem?_eq_some_iff.1 hget
    refine ⟨Instant.le_add _ delay, ?_⟩
    rw [getElem?_answers_eq_due_iff hcalls]
    constructor
    · rintro ⟨heq, -⟩
      exact inCalendar_of_eq_refusals heq
    · intro htarget
      have hle : i ≤ refusals delay calls := le_refusals hcalls delay hi hbefore
      have hge : ¬ i < refusals delay calls := fun hlt => beyond_of_lt_refusals hlt htarget
      exact ⟨by omega, _, hget, rfl⟩
  refused i since hget hbefore hbeyond := by
    obtain ⟨hi, rfl⟩ := List.getElem?_eq_some_iff.1 hget
    have hle : i ≤ refusals delay calls := le_refusals hcalls delay hi hbefore
    have hne : i ≠ refusals delay calls := fun heq => hbeyond (inCalendar_of_eq_refusals heq)
    rw [getElem?_answers_fresh hcalls, hget, Option.map_some, answerAfter, if_pos (by omega)]
  kept i hanswer := by
    rw [getElem?_answers_fresh hcalls, Option.map_eq_some_iff] at hanswer
    obtain ⟨since, hget, hanswer⟩ := hanswer
    obtain ⟨hi, rfl⟩ := List.getElem?_eq_some_iff.1 hget
    have hlt : i < refusals delay calls := by
      by_contra hge
      rw [answerAfter, if_neg hge] at hanswer
      split at hanswer <;> cases hanswer
    rw [asked_take hcalls delay hi, asked_take hcalls delay (Nat.le_of_lt hi), progressAfter, progressAfter,
      if_pos (by omega), if_pos (by omega)]
  pending_iff i hi := by
    simp only [asked_take hcalls delay hi, getElem?_answers_eq_due_iff hcalls, progressAfter_eq_pending_iff]
    constructor
    · intro heq
      exact ⟨_, _, heq, rfl, _, List.getElem?_eq_getElem (by omega), rfl⟩
    · rintro ⟨j, -, rfl, rfl, -⟩
      rfl
  expired_iff i hi := by
    simp only [asked_take hcalls delay hi, getElem?_answers_eq_due_iff hcalls, progressAfter_eq_expired_iff]
    constructor
    · intro hlt
      exact ⟨_, _, hlt, rfl, _, List.getElem?_eq_getElem (by omega), rfl⟩
    · rintro ⟨j, -, hlt, rfl, -⟩
      exact hlt
  delay i := asked_delay (fresh delay) (calls.take i)

/-- The last instant of the calendar, noon of the first of May 2024 twice, and the first instant of the calendar. -/
def lateThenNoon : List Instant := [Instant.latest, .ofSecond 1714564800, .ofSecond 1714564800, Instant.earliest]

/-- An hour's delay leads out of the calendar at first, and to one o'clock then. -/
theorem answersLaw_lateThenNoon :
    (∀ since ∈ lateThenNoon, since.InCalendar) ∧ AnswersLaw (.ofSeconds 3600 0) lateThenNoon ∧
      (fresh (.ofSeconds 3600 0)).answers lateThenNoon =
        [.refused (.invalidDelay (.ofSeconds 3600 0)), .due (.ofSecond 1714568400), .refused .expired,
          .refused .expired] :=
  ⟨by decide, answersLaw (.ofSeconds 3600 0) lateThenNoon (by decide), by decide⟩

end RunOnce

end Rota
