import Rota.Proofs.Walk

/-!
# Fire times as a stream

The fire times of a trigger are one stream if what is due next after an instant stays due next up to the time itself,
and nothing becomes due after nothing was. This holds between instants at which the search is exact
(`Recurring.inStep_of_exact`).

- without a year in the expression the search is exact from 1970 on (`Recurring.onCourse_of_years`);
- with years it need not be, in a year that the expression leaves out in front of one it has: the stream is broken
  exactly if the search is not exact somewhere (`Recurring.exact_of_inStep`);
- where the search is exact from an instant on, the listed fire times leave no occurrence out
  (`Recurring.complete_fireTimes`).
-/

namespace Rota

namespace Cron.Schedule

variable {s : Schedule} {t u o : Instant}

/-- What is next after an instant is next after a later one, as long as it lies ahead. -/
theorem IsNext.of_le (h : s.IsNext t o) (htu : t ≤ u) (huo : u < o) : s.IsNext u o :=
  ⟨h.occurs, huo, fun o' ho' huo' => h.least o' ho' (Instant.lt_of_le_of_lt htu huo')⟩

/-- What is next after an instant is next after an earlier one if nothing occurs in between. -/
theorem IsNext.of_gap (h : s.IsNext u o) (htu : t ≤ u) (hgap : ∀ o, s.Occurs o → t < o → u < o) : s.IsNext t o :=
  ⟨h.occurs, Instant.lt_of_le_of_lt htu h.after, fun o' ho' hto' => h.least o' ho' (hgap o' ho' hto')⟩

end Cron.Schedule

namespace Recurring

variable {c : Recurring} {e : String} {t u o : Instant}

open Instant (lastSecond)

/-! ## Answers that agree -/

/-- A trigger that is asked at two instants gives the fire time of the first at the second, too, if that lies ahead, and
has none at the second if it has none at the first. -/
structure InStep (c : Recurring) (t u : Instant) : Prop where
  due : ∀ o, c.next t = .due o → u < o → c.next u = .due o
  refused : ∀ e, c.next t = .refused e → c.next u = .refused e

/-- Before the last second of the calendar a trigger has a next fire time or none. -/
theorem next_cases (hlast : t.second < lastSecond) :
    (∃ o, c.next t = .due o) ∨ c.next t = .refused (.noNextFireTime c.expression) := by
  unfold next
  rw [if_neg (Int.not_le.2 hlast)]
  cases c.schedule.after? t with
  | some o => exact .inl ⟨o, rfl⟩
  | none => exact .inr rfl

/-- There is one reason for having no next fire time. -/
theorem eq_of_next_refused {e : TriggerError} (h : c.next t = .refused e) : e = .noNextFireTime c.expression := by
  unfold next at h
  split at h
  · cases h
  · cases hafter : c.schedule.after? t with
    | some o =>
      rw [hafter] at h
      cases h
    | none =>
      rw [hafter] at h
      exact (NextFire.refused.inj h).symm

/-- Where the search is exact, a trigger has no fire time exactly if no occurrence lies ahead. -/
theorem next_ne_due_iff (hexact : c.schedule.Exact t) :
    (∀ o, c.next t ≠ .due o) ↔ ∀ o, c.schedule.Occurs o → ¬ t < o := by
  constructor
  · intro h o ho hto
    obtain ⟨n, hn⟩ := Cron.Schedule.exists_isNext ho hto
    exact h n ((next_eq_due_iff hexact).2 hn)
  · intro h o hdue
    have hnext := (next_eq_due_iff hexact).1 hdue
    exact h o hnext.occurs hnext.after

theorem inStep_of_exact (htu : t ≤ u) (hlast : u.second < lastSecond) (ht : c.schedule.Exact t)
    (hu : c.schedule.Exact u) : c.InStep t u := by
  refine ⟨fun o ho huo => ?_, fun e he => ?_⟩
  · exact (next_eq_due_iff hu).2 (((next_eq_due_iff ht).1 ho).of_le htu huo)
  · have hnone := (next_ne_due_iff ht).1 fun o ho => by
      rw [ho] at he
      cases he
    have hdue : ∀ o, c.next u ≠ .due o :=
      (next_ne_due_iff hu).2 fun o ho huo => hnone o ho (Instant.lt_of_le_of_lt htu huo)
    rw [eq_of_next_refused he]
    exact (next_cases hlast).resolve_left fun ⟨o, ho⟩ => hdue o ho

/-! ## Years -/

/-- The instants from 1970 on whose next second the calendar has. -/
def Askable (t : Instant) : Prop := .ofSecond 0 ≤ t ∧ t.second < lastSecond

instance (t : Instant) : Decidable (Askable t) := inferInstanceAs (Decidable (_ ∧ _))

theorem second_nonneg (h : .ofSecond 0 ≤ t) : 0 ≤ t.second := by
  simp only [Instant.le_def, Instant.ofSecond, Instant.second, nanosPerSecond] at h ⊢
  omega

/-- The moment at which a year begins. -/
def newYear (y : Nat) : Moment := ⟨⟨y, 1, 1⟩, 0, 0, 0⟩

theorem valid_newYear (y : Nat) : (newYear y).Valid := by
  have hlength : 1 ≤ monthLength y 1 := show 1 ≤ 31 by omega
  exact ⟨⟨⟨Nat.le_refl 1, show 1 ≤ 12 by omega⟩, Nat.le_refl 1, hlength⟩, show 0 < 24 by omega, show 0 < 60 by omega,
    show 0 < 60 by omega⟩

theorem toSecond_newYear (y : Nat) : (newYear y).toSecond = yearStart y * 86400 := by
  simp [newYear, Moment.toSecond, Date.dayNumber, totalDays]

/-- A year begins no later than the moments of it and of the years after it. -/
theorem newYear_le {y : Nat} {m : Moment} (h : (y : Int) ≤ m.date.year) : (newYear y).toSecond ≤ m.toSecond := by
  have hstart := yearStart_le h
  have hday := Date.yearStart_le_dayNumber m.date
  rw [toSecond_newYear]
  simp only [Moment.toSecond]
  omega

/-- Without a year in the expression, the search keeps on course from 1970 on. -/
theorem onCourse_of_years (hyears : c.schedule.years = Cron.Field.year.all) (ht : .ofSecond 0 ≤ t) :
    c.schedule.OnCourse t := by
  have hle : (newYear 1970).toSecond ≤ (Moment.ofSecond (t.second + 1)).toSecond := by
    have hzero := second_nonneg ht
    rw [Moment.toSecond_ofSecond, toSecond_newYear, show yearStart (1970 : Nat) = 0 by decide]
    omega
  have hfrom : (1970 : Int) ≤ _ := (Moment.valid_ofSecond (t.second + 1)).year_le hle
  rw [Cron.Schedule.OnCourse, hyears]
  by_cases hto : (Moment.ofSecond (t.second + 1)).date.year ≤ 2100
  · refine .inl ⟨(Moment.ofSecond (t.second + 1)).date.year.toNat, Cron.Field.mem_all.2 ?_, by omega⟩
    simp only [Cron.Field.lo, Cron.Field.hi]
    omega
  · refine .inr fun y hy => ?_
    have hlimit : y ≤ 2100 := (Cron.Field.mem_all.1 hy).2
    omega

/-- Off its course, the search starts in front of a year of the schedule, and nothing occurs before that year. -/
theorem exists_gap (hs : c.schedule.Proper) (hoff : ¬ c.schedule.OnCourse t) :
    ∃ u, t ≤ u ∧ u.second < lastSecond ∧ c.schedule.OnCourse u ∧ ∀ o, c.schedule.Occurs o → t < o → u < o := by
  rw [Cron.Schedule.OnCourse, not_or] at hoff
  obtain ⟨hout, hlater⟩ := hoff
  have hex : ∃ y, y ∈ c.schedule.years ∧ (Moment.ofSecond (t.second + 1)).date.year < (y : Int) := by
    by_contra hnone
    exact hlater fun y hy => Int.not_lt.1 fun hlt => hnone ⟨y, hy, hlt⟩
  classical
  obtain ⟨hy, hlt⟩ := Nat.find_spec hex
  have hmin := fun {v : Nat} => Nat.find_min' hex (m := v)
  generalize Nat.find hex = y at hy hlt hmin
  have hsecond : (Instant.ofSecond ((newYear y).toSecond - 1)).second + 1 = (newYear y).toSecond := by
    rw [Instant.second_ofSecond]
    omega
  have hlast := Cron.Schedule.toSecond_le_lastSecond hs hy rfl (valid_newYear y)
  have hfrom : t.second + 1 < (newYear y).toSecond := by
    have hday := (Moment.valid_date_ofSecond (t.second + 1)).lt_of_year_lt (e := (newYear y).date) hlt
    have := (Moment.valid_ofSecond (t.second + 1)).lt_of_day_lt hday
    rwa [Moment.toSecond_ofSecond] at this
  have htu : t < .ofSecond ((newYear y).toSecond - 1) := Instant.lt_ofSecond.2 (by omega)
  refine ⟨_, Int.le_of_lt htu, by omega, .inl ⟨y, hy, ?_⟩, fun o ho hto => ?_⟩
  · rw [hsecond, (valid_newYear y).ofSecond_toSecond]
    rfl
  · obtain ⟨hsame, -, hallows⟩ := ho
    obtain ⟨v, hv, hyear⟩ := hallows.1
    have hlt' : t.second < o.second := Instant.lt_ofSecond.1 (hsame ▸ hto)
    have hle := (Moment.valid_ofSecond o.second).year_le (a := .ofSecond (t.second + 1)) (by
      rw [Moment.toSecond_ofSecond, Moment.toSecond_ofSecond]
      omega)
    -- The year of the occurrence is not the one in which the search starts, so it is not before the next one.
    have hne : (Moment.ofSecond (t.second + 1)).date.year ≠ (v : Int) := fun heq => hout ⟨v, hv, heq⟩
    have hyv : y ≤ v := hmin ⟨hv, by omega⟩
    have hstart := newYear_le (show (y : Int) ≤ (Moment.ofSecond o.second).date.year by omega)
    rw [Moment.toSecond_ofSecond] at hstart
    rw [hsame]
    exact Instant.lt_ofSecond.2 (by omega)

/-- If all answers agree, the search is exact everywhere. -/
theorem exact_of_inStep (hs : c.schedule.Proper) (hlast : t.second < lastSecond)
    (h : ∀ u, t ≤ u → u.second < lastSecond → c.InStep t u) : c.schedule.Exact t := by
  by_cases hcourse : c.schedule.OnCourse t
  · exact Cron.Schedule.exact_of_onCourse hs hcourse
  obtain ⟨u, htu, hulast, hu, hgap⟩ := exists_gap hs hcourse
  have hexact := Cron.Schedule.exact_of_onCourse hs hu
  obtain ⟨hdue, hrefused⟩ := h u htu hulast
  have hfound : ∀ o, c.next t = .due o → c.schedule.IsNext t o := by
    intro o ho
    obtain ⟨-, hafter⟩ := next_eq_due_iff_after?.1 ho
    have hto := Cron.Schedule.lt_of_after? hs.ascending hafter
    have huo := hgap o (Cron.Schedule.occurs_of_after? hs hafter) hto
    exact ((next_eq_due_iff hexact).1 (hdue o ho huo)).of_gap htu hgap
  have hafter : ∀ o, c.schedule.after? t = some o ↔ c.next t = .due o := by
    intro o
    rw [next_eq_due_iff_after?, and_iff_right hlast]
  intro o
  rw [hafter]
  refine ⟨hfound o, fun hnext => ?_⟩
  rcases next_cases hlast with ⟨o', ho'⟩ | hnone
  · rw [ho', (hfound o' ho').unique hnext]
  · have hu := hrefused _ hnone
    rw [(next_eq_due_iff hexact).2 (hnext.of_le htu (hgap o hnext.occurs hnext.after))] at hu
    cases hu

/-! ## Lists of fire times -/

/-- A list of fire times holds occurrences in their order, and each one up to its last, or all there are. -/
structure Complete (c : Recurring) (n : Nat) (t : Instant) : Prop where
  ascending : (c.fireTimes n t).1.Pairwise (· < ·)
  occur : ∀ o ∈ (c.fireTimes n t).1, c.schedule.Occurs o ∧ t < o
  all : ∀ o, c.schedule.Occurs o → t < o →
    o ∈ (c.fireTimes n t).1 ∨ (c.fireTimes n t).1.length = n ∧ ∀ x ∈ (c.fireTimes n t).1, x < o

theorem complete_of_nil {n : Nat} (hlist : (c.fireTimes n t).1 = [])
    (h : ∀ o, c.schedule.Occurs o → t < o → (c.fireTimes n t).1.length = n) : c.Complete n t := by
  refine ⟨?_, ?_, fun o ho hto => .inr ⟨h o ho hto, ?_⟩⟩ <;> simp [hlist]

/-- Where the search is exact, lists of fire times leave no occurrence out. -/
theorem complete_fireTimes (n : Nat) (hexact : ∀ u, t ≤ u → c.schedule.Exact u) : c.Complete n t := by
  induction n generalizing t with
  | zero => exact complete_of_nil rfl fun _ _ _ => rfl
  | succ n ih =>
    have ht := hexact t (Int.le_refl _)
    cases hnext : c.next t with
    | due o =>
      have hfirst := (next_eq_due_iff ht).1 hnext
      have hlist : (c.fireTimes (n + 1) t).1 = o :: (c.fireTimes n o).1 := by rw [fireTimes, hnext]
      obtain ⟨hsorted, hmem, hall⟩ := ih fun u hu => hexact u (Int.le_trans (Int.le_of_lt hfirst.after) hu)
      constructor <;> rw [hlist]
      · exact List.pairwise_cons.2 ⟨fun x hx => (hmem x hx).2, hsorted⟩
      · intro x hx
        rcases List.mem_cons.1 hx with rfl | hx
        · exact ⟨hfirst.occurs, hfirst.after⟩
        · exact ⟨(hmem x hx).1, Int.lt_trans hfirst.after (hmem x hx).2⟩
      · intro o' ho' hto'
        by_cases hsame : o = o'
        · exact .inl (hsame ▸ List.mem_cons_self)
        have hlt : o < o' := Instant.lt_of_le_of_ne (hfirst.least o' ho' hto') hsame
        rcases hall o' ho' hlt with hmem | ⟨hlength, hbefore⟩
        · exact .inl (List.mem_cons_of_mem o hmem)
        · exact .inr ⟨congrArg (· + 1) hlength, List.forall_mem_cons.2 ⟨hlt, hbefore⟩⟩
    | _ =>
      have hnone := (next_ne_due_iff ht).1 (by simp [hnext])
      have hlist : (c.fireTimes (n + 1) t).1 = [] := by rw [fireTimes, hnext]
      exact complete_of_nil hlist fun o ho hto => absurd hto (hnone o ho)

/-! ## The law -/

/-- How the fire times of a trigger fit together. -/
structure StreamLaw (c : Recurring) : Prop where
  /-- A fire time is the start of a second after the instant at which the trigger is asked. -/
  ahead : ∀ t o, c.next t = .due o → o = .ofSecond o.second ∧ t < o
  /-- The answers at two instants agree if the search is on its course at both. -/
  inStep : ∀ t u, t ≤ u → u.second < lastSecond → c.schedule.OnCourse t → c.schedule.OnCourse u → c.InStep t u
  /-- A later instant has no earlier fire time. -/
  monotone : ∀ t u o o', t ≤ u → c.schedule.OnCourse t → c.next t = .due o → c.next u = .due o' → o ≤ o'
  /-- With every year allowed, the search is on course from 1970 on. -/
  onCourse : c.schedule.years = Cron.Field.year.all → ∀ t, .ofSecond 0 ≤ t → c.schedule.OnCourse t
  /-- All answers agree exactly if each of them is the first occurrence, or that there is none. -/
  stream_iff : (∀ t u, Askable t → t ≤ u → u.second < lastSecond → c.InStep t u) ↔
    ∀ t, Askable t → c.schedule.Exact t
  /-- From an instant on from which the search keeps on course, the listed fire times leave no occurrence out. -/
  complete : ∀ n t, (∀ u, t ≤ u → c.schedule.OnCourse u) → c.Complete n t

/-- The fire times of every expression that is read fit together as far as the search is on course. -/
theorem streamLaw (hc : parse e = .ok c) : StreamLaw c := by
  have hs := proper_of_parse hc
  have hexact : ∀ {t}, c.schedule.OnCourse t → c.schedule.Exact t := Cron.Schedule.exact_of_onCourse hs
  refine ⟨fun t o ho => ?_, fun t u htu hlast ht hu => inStep_of_exact htu hlast (hexact ht) (hexact hu),
    fun t u o o' htu ht ho ho' => ?_, fun hyears t => onCourse_of_years hyears,
    ⟨fun h t ht => ?_, fun h t u ht htu hlast => ?_⟩, fun n t h => complete_fireTimes n fun u hu => hexact (h u hu)⟩
  · exact ⟨(Cron.Schedule.occurs_of_after? hs (next_eq_due_iff_after?.1 ho).2).1, lt_of_next hc ho⟩
  · have hoccurs := Cron.Schedule.occurs_of_after? hs (next_eq_due_iff_after?.1 ho').2
    exact ((next_eq_due_iff (hexact ht)).1 ho).least o' hoccurs (Instant.lt_of_le_of_lt htu (lt_of_next hc ho'))
  · exact exact_of_inStep hs ht.2 fun u htu hlast => h t u ht htu hlast
  · exact inStep_of_exact htu hlast (h t ht) (h u ⟨Int.le_trans ht.1 htu, hlast⟩)

/-- Fires on every leap day at midnight. -/
def leapDays : Recurring where
  expression := "0 0 29 2 *"
  schedule := ⟨[0], [0], [0], [29], [2], [1, 2, 3, 4, 5, 6, 7], Cron.Field.year.all⟩

/-- Asked in 2024 and at the end of 2027, the trigger fires next on the leap day of 2028. -/
theorem leapDays_streamLaw :
    let t : Instant := .ofSecond 1710072000
    let u : Instant := .ofSecond 1830297599
    parse "0 0 29 2 *" = .ok leapDays ∧ Askable t ∧ t ≤ u ∧ leapDays.InStep t u ∧
      leapDays.next t = .due (.ofSecond 1835395200) ∧ leapDays.next u = .due (.ofSecond 1835395200) := by
  intro t u
  have hparse : parse "0 0 29 2 *" = .ok leapDays := by decide +kernel
  have ht : Askable t := by decide
  have hu : Askable u := by decide
  have hlaw := streamLaw hparse
  have hinStep : leapDays.InStep t u :=
    hlaw.inStep t u (by decide) hu.2 (hlaw.onCourse rfl t ht.1) (hlaw.onCourse rfl u hu.1)
  have hdue : leapDays.next t = .due (.ofSecond 1835395200) := by decide +kernel
  exact ⟨hparse, ht, by decide, hinStep, hdue, hinStep.due _ hdue (by decide)⟩

/-- Fires once, at the beginning of 2099. -/
def lateTrigger : Recurring where
  expression := "0 0 0 1 1 * 2099"
  schedule := ⟨[0], [0], [0], [1], [1], [1, 2, 3, 4, 5, 6, 7], [2099]⟩

/-- In March 2024 the trigger has no next fire time, at the end of 2098 it has one: in the first year that is visited
the search starts in March. -/
theorem lateTrigger_not_inStep :
    let t : Instant := .ofSecond 1710028800
    let u : Instant := .ofSecond 4070908799
    parse "0 0 0 1 1 * 2099" = .ok lateTrigger ∧ Askable t ∧ t ≤ u ∧ u.second < lastSecond ∧
      lateTrigger.next t = .refused (.noNextFireTime "0 0 0 1 1 * 2099") ∧
      lateTrigger.next u = .due (.ofSecond 4070908800) ∧ ¬ lateTrigger.InStep t u := by
  intro t u
  have ht : lateTrigger.next t = .refused (.noNextFireTime "0 0 0 1 1 * 2099") := by decide +kernel
  have hu : lateTrigger.next u = .due (.ofSecond 4070908800) := by decide +kernel
  refine ⟨by decide +kernel, by decide, by decide, by decide, ht, hu, fun h => ?_⟩
  have hrefused := h.refused _ ht
  rw [hu] at hrefused
  cases hrefused

end Recurring

end Rota
