import Rota.Proofs.Occurrence

/-!
# The search leads forward

The search for the next occurrence after an instant never comes back to that instant or goes behind it.

- a date of the calendar comes before the dates of later years, months and days (`Date.Valid.lt_of_year_lt`,
  `Date.Valid.lt_of_month_lt`, `Date.Valid.lt_of_day_lt`);
- along its edge the walk keeps at or after its start, unit by unit (`le_of_inDay`, `le_of_inMonth`, `le_of_inYear`);
- so what the search finds lies ahead (`lt_of_after?`), and so does every fire time of a trigger (`lt_of_next`).
-/

namespace Rota

/-! ## Dates in order -/

/-- The total of a part of some lengths is no more than the total of a longer part. -/
theorem totalDays_take_le (ls : List Nat) {i j : Nat} (h : i ≤ j) : totalDays (ls.take i) ≤ totalDays (ls.take j) := by
  induction ls generalizing i j with
  | nil => simp
  | cons l ls ih =>
    cases i with
    | zero => simp [totalDays]
    | succ i =>
      obtain ⟨j, rfl⟩ : ∃ k, j = k + 1 := ⟨j - 1, by omega⟩
      simp only [List.take_succ_cons, totalDays]
      have := ih (Nat.le_of_succ_le_succ h)
      omega

theorem totalDays_take_succ {ls : List Nat} {k : Nat} (h : k < ls.length) :
    totalDays (ls.take (k + 1)) = totalDays (ls.take k) + ls[k] := by
  induction ls generalizing k with
  | nil => exact absurd h (Nat.not_lt_zero k)
  | cons l ls ih =>
    cases k with
    | zero => simp [totalDays]
    | succ k =>
      rw [List.take_succ_cons, totalDays, ih (Nat.lt_of_succ_lt_succ h), List.take_succ_cons, totalDays,
        List.getElem_cons_succ, Nat.add_assoc]

/-- A count of days short of the total ends in one of the months. -/
theorem splitMonths_lt : ∀ (ls : List Nat) (m d : Nat), d < totalDays ls →
    ∃ k l, (splitMonths m ls d).1 = m + k ∧ ls[k]? = some l ∧ (splitMonths m ls d).2 < l
  | [], _, d, h => absurd h (Nat.not_lt_zero d)
  | l :: ls, m, d, h => by
    by_cases hd : d < l
    · exact ⟨0, l, by simp [splitMonths, hd], rfl, by simp [splitMonths, hd]⟩
    · have hrest : d - l < totalDays ls := by
        simp only [totalDays] at h
        omega
      obtain ⟨k, l', h1, hl, h2⟩ := splitMonths_lt ls (m + 1) (d - l) hrest
      refine ⟨k + 1, l', ?_, by simpa using hl, by simpa [splitMonths, hd] using h2⟩
      rw [splitMonths, if_neg hd, h1]
      omega

theorem totalDays_monthLengths (y : Int) : (totalDays (monthLengths y) : Int) = yearStart (y + 1) - yearStart y := by
  rw [yearStart_succ]
  simp only [monthLengths, totalDays]
  split <;> omega

/-- Years start in their order. -/
theorem yearStart_le {y y' : Int} (h : y ≤ y') : yearStart y ≤ yearStart y' := by
  obtain ⟨n, rfl⟩ : ∃ n : Nat, y' = y + n := ⟨(y' - y).toNat, by omega⟩
  induction n with
  | zero => simp
  | succ n ih =>
    have hstep := yearStart_succ (y + n)
    have hn := ih (by omega)
    rw [show y + ((n + 1 : Nat) : Int) = y + n + 1 by omega, hstep]
    split <;> omega

namespace Date

/-- The day of a date lies in its month. -/
theorem exists_month_ofDayNumber (n : Int) :
    ∃ k l, (ofDayNumber n).month = k + 1 ∧ (monthLengths (ofDayNumber n).year)[k]? = some l ∧
      (ofDayNumber n).day ≤ l ∧ 1 ≤ (ofDayNumber n).day := by
  have hlt : (n - yearStart (yearOfDay n)).toNat < totalDays (monthLengths (yearOfDay n)) := by
    have h1 := yearStart_yearOfDay_le n
    have h2 := lt_yearStart_yearOfDay n
    have h3 := totalDays_monthLengths (yearOfDay n)
    omega
  obtain ⟨k, l, h1, hl, h2⟩ := splitMonths_lt _ 1 _ hlt
  refine ⟨k, l, ?_, hl, h2, Nat.le_add_left 1 _⟩
  rw [Nat.add_comm]
  exact h1

theorem yearStart_le_dayNumber (d : Date) : yearStart d.year ≤ d.dayNumber := by
  simp only [dayNumber]
  omega

/-- A date of the calendar: its month is one of a year, and its day one of the month. -/
structure Valid (d : Date) : Prop where
  month : 1 ≤ d.month ∧ d.month ≤ 12
  day : 1 ≤ d.day ∧ d.day ≤ monthLength d.year d.month

theorem valid_ofDayNumber (n : Int) : (ofDayNumber n).Valid := by
  obtain ⟨k, l, hk, hl, hday, hpos⟩ := exists_month_ofDayNumber n
  have hlength : k < 12 := (List.getElem?_eq_some_iff.1 hl).1
  refine ⟨by omega, hpos, ?_⟩
  rw [monthLength, hk, Nat.add_sub_cancel, List.getD_eq_getElem?_getD, hl]
  exact hday

variable {d e : Date}

/-- A date lies before the end of its month. -/
theorem Valid.lt_end (hd : d.Valid) :
    d.dayNumber < yearStart d.year + totalDays ((monthLengths d.year).take d.month) := by
  have hmonth := hd.month
  have hk : d.month - 1 < (monthLengths d.year).length := show d.month - 1 < 12 by omega
  have htotal := totalDays_take_succ hk
  have hday := hd.day
  rw [monthLength, List.getD_eq_getElem?_getD, List.getElem?_eq_getElem hk, Option.getD_some] at hday
  rw [Nat.sub_add_cancel hmonth.1] at htotal
  simp only [dayNumber]
  omega

/-- A date comes before every date of a later year. -/
theorem Valid.lt_of_year_lt (hd : d.Valid) (h : d.year < e.year) : d.dayNumber < e.dayNumber := by
  have hend := hd.lt_end
  have htotal := totalDays_monthLengths d.year
  have hle := totalDays_take_le (monthLengths d.year) hd.month.2
  have hnext : yearStart (d.year + 1) ≤ yearStart e.year := yearStart_le (by omega)
  have hyear := yearStart_le_dayNumber e
  change _ ≤ totalDays (monthLengths d.year) at hle
  omega

/-- A date comes before every date of a later month of its year. -/
theorem Valid.lt_of_month_lt (hd : d.Valid) (hy : d.year = e.year) (h : d.month < e.month) :
    d.dayNumber < e.dayNumber := by
  have hend := hd.lt_end
  have hle := totalDays_take_le (monthLengths d.year) (show d.month ≤ e.month - 1 by omega)
  have he : e.dayNumber = yearStart d.year + totalDays ((monthLengths d.year).take (e.month - 1)) +
      (e.day - 1 : Nat) := by rw [hy, dayNumber]
  omega

/-- A date comes before every later date of its month. -/
theorem Valid.lt_of_day_lt (hd : d.Valid) (hy : d.year = e.year) (hm : d.month = e.month) (h : d.day < e.day) :
    d.dayNumber < e.dayNumber := by
  have hpos := hd.day.1
  simp only [dayNumber, hy, hm]
  omega

end Date

/-! ## The walk -/

namespace Cron.Schedule

variable {s : Schedule} {start m : Moment} {edge : Bool} {d : Date} {hour minute month bound : Nat} {year : Int}

theorem mem_onward {vs : List Nat} {v : Nat} : v ∈ onward edge bound vs ↔ v ∈ vs ∧ (edge = true → bound ≤ v) := by
  cases edge <;> simp [onward]

theorem le_of_inMinute (h : s.inMinute start edge d hour minute = some m) :
    m.date = d ∧ m.hour = hour ∧ m.minute = minute ∧ (edge = true → start.second ≤ m.second) := by
  obtain ⟨second, hsecond, rfl⟩ := Option.map_eq_some_iff.1 h
  exact ⟨rfl, rfl, rfl, (mem_onward.1 (List.mem_of_mem_head? hsecond)).2⟩

theorem le_of_inHour (hstart : start.second < 60) (h : s.inHour start edge d hour = some m) :
    m.date = d ∧ m.hour = hour ∧
      (edge = true → start.minute * 60 + start.second ≤ m.minute * 60 + m.second) := by
  obtain ⟨minute, hminute, hm⟩ := List.exists_of_findSome?_eq_some h
  obtain ⟨hdate, hhour, rfl, hsecond⟩ := le_of_inMinute hm
  refine ⟨hdate, hhour, fun hedge => ?_⟩
  have hle := (mem_onward.1 hminute).2 hedge
  rcases Nat.lt_or_eq_of_le hle with hlt | heq
  · omega
  · have := hsecond (by simp [hedge, heq])
    omega

theorem le_of_inDay (hstart : start.second < 60 ∧ start.minute < 60) (h : s.inDay start edge d = some m) :
    m.date = d ∧ (edge = true →
      start.hour * 3600 + start.minute * 60 + start.second ≤ m.hour * 3600 + m.minute * 60 + m.second) := by
  obtain ⟨hour, hhour, hm⟩ := List.exists_of_findSome?_eq_some h
  obtain ⟨hdate, rfl, hminute⟩ := le_of_inHour hstart.1 hm
  refine ⟨hdate, fun hedge => ?_⟩
  have hle := (mem_onward.1 hhour).2 hedge
  rcases Nat.lt_or_eq_of_le hle with hlt | heq
  · omega
  · have := hminute (by simp [hedge, heq])
    omega

end Cron.Schedule

namespace Moment

theorem ofSecond_lt (i : Int) : (ofSecond i).second < 60 ∧ (ofSecond i).minute < 60 ∧
    (ofSecond i).hour * 3600 + (ofSecond i).minute * 60 + (ofSecond i).second < 86400 := by
  simp only [ofSecond]
  omega

theorem ofSecond_time (i : Int) :
    i = i / 86400 * 86400 +
      ((ofSecond i).hour * 3600 + (ofSecond i).minute * 60 + (ofSecond i).second : Nat) := by
  simp only [ofSecond]
  omega

/-- A second comes before every moment of a later day. -/
theorem le_toSecond_of_day_lt {i : Int} {m : Moment} (h : (ofSecond i).date.dayNumber < m.date.dayNumber) :
    i ≤ m.toSecond := by
  change (Date.ofDayNumber (i / 86400)).dayNumber < _ at h
  rw [Date.dayNumber_ofDayNumber] at h
  simp only [toSecond]
  omega

theorem valid_date_ofSecond (i : Int) : (ofSecond i).date.Valid := Date.valid_ofDayNumber _

end Moment

namespace Cron.Schedule

variable {s : Schedule} {m : Moment} {edge : Bool} {i : Int}

/-- A moment that is found in a month lies on a day of it. -/
theorem exists_of_inMonth {start : Moment} {month : Nat} {year : Int} (h : s.inMonth start edge year month = some m) :
    ∃ day ∈ onward edge (min start.date.day (monthLength year month)) (s.days.filter (· ≤ monthLength year month)),
      s.inDay start (edge && day == min start.date.day (monthLength year month) && s.days.contains start.date.day)
        ⟨year, month, day⟩ = some m := by
  obtain ⟨day, hday, hm⟩ := List.exists_of_findSome?_eq_some h
  dsimp only at hm
  split at hm
  · exact ⟨day, hday, hm⟩
  · cases hm

/-- The date of a moment that is found in a day. -/
theorem date_of_inDay {start : Moment} {d : Date} (h : s.inDay start edge d = some m) : m.date = d := by
  obtain ⟨hour, -, hm⟩ := List.exists_of_findSome?_eq_some h
  obtain ⟨minute, -, hm⟩ := List.exists_of_findSome?_eq_some hm
  exact (le_of_inMinute hm).1

theorem month_of_inMonth {start : Moment} {month : Nat} {year : Int} (h : s.inMonth start edge year month = some m) :
    m.date.year = year ∧ m.date.month = month := by
  obtain ⟨day, -, hm⟩ := exists_of_inMonth h
  rw [date_of_inDay hm]
  exact ⟨rfl, rfl⟩

theorem year_of_inYear {start : Moment} {year : Int} (h : s.inYear start edge year = some m) : m.date.year = year := by
  obtain ⟨month, -, hm⟩ := List.exists_of_findSome?_eq_some h
  exact (month_of_inMonth hm).1

/-- On the edge, a walk through the month of its start keeps at or after the start. -/
theorem le_of_inMonth (h : s.inMonth (Moment.ofSecond i) true (Moment.ofSecond i).date.year
    (Moment.ofSecond i).date.month = some m) : i ≤ m.toSecond := by
  obtain ⟨day, hday, hm⟩ := exists_of_inMonth h
  obtain ⟨hmem, hle⟩ := mem_onward.1 hday
  obtain ⟨hdate, htime⟩ := le_of_inDay ⟨(Moment.ofSecond_lt i).1, (Moment.ofSecond_lt i).2.1⟩ hm
  -- The day of the start is one of the month, so the walk begins there.
  have hlast : (Moment.ofSecond i).date.day ≤
      monthLength (Moment.ofSecond i).date.year (Moment.ofSecond i).date.month := (Moment.valid_date_ofSecond i).day.2
  rw [Nat.min_eq_left hlast] at hle htime
  rcases Nat.lt_or_eq_of_le (hle rfl) with hlt | heq
  · exact Moment.le_toSecond_of_day_lt (hdate ▸ (Moment.valid_date_ofSecond i).lt_of_day_lt rfl rfl hlt)
  · have hkept := htime (by simp [heq, (List.mem_filter.1 hmem).1])
    have hsame : m.date = Date.ofDayNumber (i / 86400) := by
      rw [hdate, ← heq]
      rfl
    have hi := Moment.ofSecond_time i
    simp only [Moment.toSecond, hsame, Date.dayNumber_ofDayNumber]
    omega

/-- On the edge, a walk through the year of its start keeps at or after the start. -/
theorem le_of_inYear (h : s.inYear (Moment.ofSecond i) true (Moment.ofSecond i).date.year = some m) :
    i ≤ m.toSecond := by
  obtain ⟨month, hmonth, hm⟩ := List.exists_of_findSome?_eq_some h
  obtain ⟨hy, hmo⟩ := month_of_inMonth hm
  rcases Nat.lt_or_eq_of_le ((mem_onward.1 hmonth).2 rfl) with hlt | heq
  · exact Moment.le_toSecond_of_day_lt ((Moment.valid_date_ofSecond i).lt_of_month_lt hy.symm (hmo ▸ hlt))
  · subst heq
    rw [beq_self_eq_true, Bool.and_self] at hm
    exact le_of_inMonth hm

/-- A walk through a later year stays after the start. -/
theorem le_of_inYear_of_lt {year : Int} (h : s.inYear (Moment.ofSecond i) edge year = some m)
    (hlt : (Moment.ofSecond i).date.year < year) : i ≤ m.toSecond :=
  Moment.le_toSecond_of_day_lt ((Moment.valid_date_ofSecond i).lt_of_year_lt (year_of_inYear h ▸ hlt))

/-! ## The search -/

/-- The years of a schedule stand in their order, each once. -/
def Ascending (s : Schedule) : Prop := s.years.Pairwise (· < ·)

/-- The search does not go behind its start. -/
theorem le_of_next? (hs : s.Ascending) (h : s.next? (Moment.ofSecond i) = some m) : i ≤ m.toSecond := by
  unfold next? at h
  split at h
  · cases h
  -- The first year may be that of the start, and is on the edge; the others are later.
  have hyears := List.Pairwise.filter (fun y => decide ((Moment.ofSecond i).date.year.toNat ≤ y)) hs
  have hfrom : ∀ y ∈ s.years.filter (fun y => decide ((Moment.ofSecond i).date.year.toNat ≤ y)),
      (Moment.ofSecond i).date.year ≤ y := by
    intro y hy
    have := of_decide_eq_true (List.mem_filter.1 hy).2
    omega
  generalize s.years.filter (fun y => decide ((Moment.ofSecond i).date.year.toNat ≤ y)) = ys at h hyears hfrom
  cases ys with
  | nil => cases h
  | cons y ys =>
    have hy := hfrom y List.mem_cons_self
    rw [inYears, Option.orElse_eq_orElse, Option.orElse_eq_or, Option.or_eq_some_iff] at h
    rcases h with h | ⟨-, h⟩
    · rcases Int.lt_or_eq_of_le hy with hlt | heq
      · exact le_of_inYear_of_lt h hlt
      · exact le_of_inYear (heq ▸ h)
    · obtain ⟨y', hy', hm⟩ := List.exists_of_findSome?_eq_some h
      have := (List.pairwise_cons.1 hyears).1 y' hy'
      exact le_of_inYear_of_lt hm (by omega)

/-- What the search finds after an instant lies ahead of it. -/
theorem lt_of_after? (hs : s.Ascending) {t o : Instant} (h : s.after? t = some o) : t < o := by
  obtain ⟨m, hm, rfl⟩ := Option.map_eq_some_iff.1 h
  have := le_of_next? hs hm
  exact Instant.lt_ofSecond.2 (by omega)

/-! ## Expressions that are read -/

/-- The values of a field. -/
def values (s : Schedule) : Field → List Nat
  | .second => s.seconds
  | .minute => s.minutes
  | .hour => s.hours
  | .day => s.days
  | .month => s.months
  | .weekday => s.weekdays
  | .year => s.years

/-- The values of every field stand in their order and within the limits of the field. -/
def Proper (s : Schedule) : Prop := ∀ f, (s.values f).Sublist f.all

theorem Proper.pairwise (hs : s.Proper) (f : Field) : (s.values f).Pairwise (· < ·) :=
  (List.pairwise_lt_range' _).sublist (hs f)

theorem Proper.limits (hs : s.Proper) {f : Field} {v : Nat} (hv : v ∈ s.values f) : f.lo ≤ v ∧ v ≤ f.hi :=
  Field.mem_all.1 ((hs f).subset hv)

theorem Proper.ascending (hs : s.Proper) : s.Ascending := hs.pairwise .year

theorem sublist_of_readValues {f : Field} {any : Bool} {cs r : List Char} {vs : List Nat}
    (h : readValues f any cs = some (vs, r)) : vs.Sublist f.all := by
  simp only [readValues, Option.bind_eq_bind, Option.bind_eq_some_iff] at h
  obtain ⟨⟨items, r'⟩, -, vs', hvs, h⟩ := h
  cases h
  obtain ⟨ss, -, rfl⟩ := Option.map_eq_some_iff.1 hvs
  exact List.filter_sublist

theorem proper_of_readFields {cs : List Char} (h : readFields cs = some s) : s.Proper := by
  simp only [readFields, Option.bind_eq_bind, Option.bind_eq_some_iff, Prod.exists] at h
  obtain ⟨seconds, _, hseconds, minutes, _, hminutes, hours, _, hhours, days, _, hdays, months, _, hmonths, weekdays, _,
    hweekdays, h⟩ := h
  have hother : ∀ years, years.Sublist Field.year.all →
      Proper ⟨seconds, minutes, hours, days, months, weekdays, years⟩ := by
    intro years hyears f
    cases f with
    | second => exact sublist_of_readValues hseconds
    | minute => exact sublist_of_readValues hminutes
    | hour => exact sublist_of_readValues hhours
    | day => exact sublist_of_readValues hdays
    | month => exact sublist_of_readValues hmonths
    | weekday => exact sublist_of_readValues hweekdays
    | year => exact hyears
  split at h
  case h_1 hyears =>
    cases h
    exact hother _ (sublist_of_readValues hyears)
  case h_2 => cases h
  case h_3 =>
    split at h
    · cases h
      exact hother _ (List.Sublist.refl _)
    · cases h

/-- A schedule that is read is proper. -/
theorem proper_of_ofExpression? {e : String} (h : ofExpression? e = some s) : s.Proper := by
  unfold ofExpression? read at h
  split at h
  · exact proper_of_readFields h
  · exact proper_of_readFields h

end Cron.Schedule

namespace Recurring

theorem ofExpression?_of_parse {e : String} {c : Recurring} (hc : parse e = .ok c) :
    Cron.Schedule.ofExpression? e = some c.schedule := by
  unfold parse at hc
  cases hs : Cron.Schedule.ofExpression? e with
  | none =>
    rw [hs] at hc
    cases hc
  | some s =>
    rw [hs] at hc
    cases hc
    rfl

theorem proper_of_parse {e : String} {c : Recurring} (hc : parse e = .ok c) : c.schedule.Proper :=
  Cron.Schedule.proper_of_ofExpression? (ofExpression?_of_parse hc)

/-- What a trigger answers before the last second of the calendar. -/
theorem next_eq_due_iff_after? {c : Recurring} {t o : Instant} :
    c.next t = .due o ↔ t.second < Instant.lastSecond ∧ c.schedule.after? t = some o := by
  unfold next
  by_cases hlast : Instant.lastSecond ≤ t.second
  · simp [hlast, Int.not_lt.2 hlast]
  · rw [if_neg hlast]
    cases c.schedule.after? t <;> simp [Int.not_le.1 hlast]

/-- A trigger that is read from an expression fires after the instant at which it is asked. -/
theorem lt_of_next {e : String} {c : Recurring} (hc : parse e = .ok c) {t o : Instant} (h : c.next t = .due o) :
    t < o :=
  Cron.Schedule.lt_of_after? (proper_of_parse hc).ascending (next_eq_due_iff_after?.1 h).2

end Recurring

end Rota
