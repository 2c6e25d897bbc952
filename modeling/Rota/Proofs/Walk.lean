import Rota.Proofs.Search

/-!
# The search misses nothing

The walk from years down to seconds visits the values of each unit in their order, so what it finds first is the least.

- a date and a moment of the calendar are known by their numbers (`Date.Valid.ofDayNumber_dayNumber`,
  `Moment.Valid.ofSecond_toSecond`);
- what is found is an allowed moment of the calendar (`Cron.Schedule.allows_of_next?`);
- on its edge and off it, the walk through a unit finds something no later than any allowed moment of the unit that
  does not lie before the start (`exists_inDay`, `exists_inMonth`, `exists_inYear`);
- the first year that is visited counts as the edge, so the search is exact if that is the year of its start, or there
  is no later year (`Cron.Schedule.exact_of_onCourse`).
-/

namespace Rota

/-! ## The calendar -/

namespace Date

variable {d e : Date}

theorem Valid.eq_of_dayNumber_eq (hd : d.Valid) (he : e.Valid) (h : d.dayNumber = e.dayNumber) : d = e := by
  have hyear : d.year = e.year := by
    rcases Int.lt_trichotomy d.year e.year with hlt | heq | hlt
    · exact absurd (hd.lt_of_year_lt hlt) (by omega)
    · exact heq
    · exact absurd (he.lt_of_year_lt hlt) (by omega)
  have hmonth : d.month = e.month := by
    rcases Nat.lt_trichotomy d.month e.month with hlt | heq | hlt
    · exact absurd (hd.lt_of_month_lt hyear hlt) (by omega)
    · exact heq
    · exact absurd (he.lt_of_month_lt hyear.symm hlt) (by omega)
  have hday : d.day = e.day := by
    rcases Nat.lt_trichotomy d.day e.day with hlt | heq | hlt
    · exact absurd (hd.lt_of_day_lt hyear hmonth hlt) (by omega)
    · exact heq
    · exact absurd (he.lt_of_day_lt hyear.symm hmonth.symm hlt) (by omega)
  obtain ⟨_, _, _⟩ := d
  obtain ⟨_, _, _⟩ := e
  obtain rfl : _ = _ := hyear
  obtain rfl : _ = _ := hmonth
  obtain rfl : _ = _ := hday
  rfl

/-- A date of the calendar is that of its number. -/
theorem Valid.ofDayNumber_dayNumber (hd : d.Valid) : ofDayNumber d.dayNumber = d :=
  (valid_ofDayNumber _).eq_of_dayNumber_eq hd (dayNumber_ofDayNumber _)

end Date

namespace Moment

variable {a b m : Moment}

/-- A moment of the calendar. -/
structure Valid (m : Moment) : Prop where
  date : m.date.Valid
  hour : m.hour < 24
  minute : m.minute < 60
  second : m.second < 60

theorem valid_ofSecond (i : Int) : (ofSecond i).Valid := by
  refine ⟨valid_date_ofSecond i, ?_, (ofSecond_lt i).2.1, (ofSecond_lt i).1⟩
  have := ofSecond_lt i
  omega

/-- A moment of the calendar is that of its second. -/
theorem Valid.ofSecond_toSecond (hm : m.Valid) : ofSecond m.toSecond = m := by
  obtain ⟨d, h, mi, s⟩ := m
  obtain ⟨hdate, hhour, hminute, hsecond⟩ := hm
  simp only at hdate hhour hminute hsecond
  have hday : toSecond ⟨d, h, mi, s⟩ / 86400 = d.dayNumber := by
    simp only [toSecond]
    omega
  have htime : (toSecond ⟨d, h, mi, s⟩ % 86400).toNat = h * 3600 + mi * 60 + s := by
    simp only [toSecond]
    omega
  simp only [ofSecond, hday, htime, hdate.ofDayNumber_dayNumber, Moment.mk.injEq, true_and]
  omega

/-- A moment comes before every moment of a later day. -/
theorem Valid.lt_of_day_lt (ha : a.Valid) (h : a.date.dayNumber < b.date.dayNumber) : a.toSecond < b.toSecond := by
  obtain ⟨-, hhour, hminute, hsecond⟩ := ha
  simp only [toSecond]
  omega

/-- A moment lies in no later year than the moments after it. -/
theorem Valid.year_le (hb : b.Valid) (h : a.toSecond ≤ b.toSecond) : a.date.year ≤ b.date.year := by
  by_contra hlt
  have := hb.lt_of_day_lt (hb.date.lt_of_year_lt (Int.lt_of_not_ge hlt))
  omega

end Moment

/-! ## What is found -/

/-- The first hit in an ascending list comes before a given hit, or is that hit. -/
theorem exists_findSome? {α : Type} {f : Nat → Option α} {l : List Nat} (hl : l.Pairwise (· < ·)) {c : Nat}
    (hc : c ∈ l) {P : α → Prop} (h : ∃ a, f c = some a ∧ P a) :
    ∃ a, l.findSome? f = some a ∧ ((∃ v ∈ l, v < c ∧ f v = some a) ∨ f c = some a ∧ P a) := by
  induction l with
  | nil => cases hc
  | cons x l ih =>
    obtain ⟨hx, hl⟩ := List.pairwise_cons.1 hl
    cases hfx : f x with
    | some b =>
      refine ⟨b, by rw [List.findSome?_cons, hfx], ?_⟩
      rcases List.mem_cons.1 hc with rfl | hmem
      · obtain ⟨a, ha, hP⟩ := h
        rw [hfx] at ha
        exact .inr ⟨hfx, Option.some.inj ha ▸ hP⟩
      · exact .inl ⟨x, List.mem_cons_self, hx c hmem, hfx⟩
    | none =>
      have hmem : c ∈ l := by
        rcases List.mem_cons.1 hc with rfl | hmem
        · obtain ⟨a, ha, -⟩ := h
          rw [hfx] at ha
          cases ha
        · exact hmem
      obtain ⟨a, hfind, ha⟩ := ih hl hmem
      refine ⟨a, by rw [List.findSome?_cons, hfx]; exact hfind, ha.imp_left ?_⟩
      rintro ⟨v, hv, hlt⟩
      exact ⟨v, List.mem_cons_of_mem x hv, hlt⟩

namespace Cron.Schedule

variable {s : Schedule} {start m c : Moment} {edge : Bool} {d : Date} {hour minute month bound : Nat} {year : Int}

theorem pairwise_onward {vs : List Nat} (h : vs.Pairwise (· < ·)) : (onward edge bound vs).Pairwise (· < ·) := by
  cases edge with
  | true => exact h.filter _
  | false => exact h

theorem mem_of_inMinute (h : s.inMinute start edge d hour minute = some m) :
    m.date = d ∧ m.hour = hour ∧ m.minute = minute ∧ m.second ∈ s.seconds := by
  obtain ⟨second, hsecond, rfl⟩ := Option.map_eq_some_iff.1 h
  exact ⟨rfl, rfl, rfl, (mem_onward.1 (List.mem_of_mem_head? hsecond)).1⟩

theorem mem_of_inHour (h : s.inHour start edge d hour = some m) :
    m.date = d ∧ m.hour = hour ∧ m.minute ∈ s.minutes ∧ m.second ∈ s.seconds := by
  obtain ⟨minute, hminute, hm⟩ := List.exists_of_findSome?_eq_some h
  obtain ⟨hdate, hhour, rfl, hsecond⟩ := mem_of_inMinute hm
  exact ⟨hdate, hhour, (mem_onward.1 hminute).1, hsecond⟩

theorem mem_of_inDay (h : s.inDay start edge d = some m) :
    m.date = d ∧ m.hour ∈ s.hours ∧ m.minute ∈ s.minutes ∧ m.second ∈ s.seconds := by
  obtain ⟨hour, hhour, hm⟩ := List.exists_of_findSome?_eq_some h
  obtain ⟨hdate, rfl, hminute, hsecond⟩ := mem_of_inHour hm
  exact ⟨hdate, (mem_onward.1 hhour).1, hminute, hsecond⟩

/-- The walk through one day of a month. -/
def onDay (s : Schedule) (start : Moment) (edge : Bool) (year : Int) (month day : Nat) : Option Moment :=
  let d : Date := ⟨year, month, day⟩
  let bound := min start.date.day (monthLength year month)
  if d.weekday ∈ s.weekdays then s.inDay start (edge && day == bound && s.days.contains start.date.day) d else none

theorem inMonth_eq (s : Schedule) (start : Moment) (edge : Bool) (year : Int) (month : Nat) :
    s.inMonth start edge year month =
      (onward edge (min start.date.day (monthLength year month)) (s.days.filter (· ≤ monthLength year month))).findSome?
        (s.onDay start edge year month) := rfl

theorem date_of_onDay {day : Nat} (h : s.onDay start edge year month day = some m) : m.date = ⟨year, month, day⟩ := by
  unfold onDay at h
  dsimp only at h
  split at h
  · exact (mem_of_inDay h).1
  · cases h

section Allowed

variable (hs : s.Proper) (hyear : ∃ y ∈ s.years, year = (y : Int))
include hs hyear

theorem allows_of_onDay (hmonth : month ∈ s.months) {day : Nat} (hday : day ∈ s.days)
    (hlast : day ≤ monthLength year month) (h : s.onDay start edge year month day = some m) : s.Allows m ∧ m.Valid := by
  unfold onDay at h
  dsimp only at h
  split at h
  case isFalse => cases h
  case isTrue hweekday =>
    obtain ⟨hdate, hhour, hminute, hsecond⟩ := mem_of_inDay h
    have hhours := hs.limits (f := .hour) hhour
    have hminutes := hs.limits (f := .minute) hminute
    have hseconds := hs.limits (f := .second) hsecond
    refine ⟨?_, ?_, Nat.lt_succ_of_le hhours.2, Nat.lt_succ_of_le hminutes.2, Nat.lt_succ_of_le hseconds.2⟩
    · rw [Allows, hdate]
      exact ⟨hyear, hmonth, hday, hweekday, hhour, hminute, hsecond⟩
    · rw [hdate]
      exact ⟨hs.limits (f := .month) hmonth, (hs.limits (f := .day) hday).1, hlast⟩

theorem allows_of_inMonth (hmonth : month ∈ s.months) (h : s.inMonth start edge year month = some m) :
    s.Allows m ∧ m.Valid := by
  rw [inMonth_eq] at h
  obtain ⟨day, hday, hm⟩ := List.exists_of_findSome?_eq_some h
  obtain ⟨hday, hlast⟩ := List.mem_filter.1 (mem_onward.1 hday).1
  exact allows_of_onDay hs hyear hmonth hday (of_decide_eq_true hlast) hm

theorem allows_of_inYear (h : s.inYear start edge year = some m) : s.Allows m ∧ m.Valid := by
  obtain ⟨month, hmonth, hm⟩ := List.exists_of_findSome?_eq_some h
  exact allows_of_inMonth hs hyear (mem_onward.1 hmonth).1 hm

end Allowed

/-- What is found is an allowed moment of the calendar. -/
theorem allows_of_next? (hs : s.Proper) (h : s.next? start = some m) : s.Allows m ∧ m.Valid := by
  unfold next? at h
  split at h
  · cases h
  have hyears : ∀ y ∈ s.years.filter (fun y => decide (start.date.year.toNat ≤ y)), y ∈ s.years :=
    fun y hy => (List.mem_filter.1 hy).1
  generalize s.years.filter (fun y => decide (start.date.year.toNat ≤ y)) = ys at h hyears
  cases ys with
  | nil => cases h
  | cons y ys =>
    rw [inYears, Option.orElse_eq_orElse, Option.orElse_eq_or, Option.or_eq_some_iff] at h
    rcases h with h | ⟨-, h⟩
    · exact allows_of_inYear hs ⟨y, hyears y List.mem_cons_self, rfl⟩ h
    · obtain ⟨y', hy', hm⟩ := List.exists_of_findSome?_eq_some h
      exact allows_of_inYear hs ⟨y', hyears y' (List.mem_cons_of_mem y hy'), rfl⟩ hm

/-! ## What is not missed -/

theorem exists_inMinute (hs : s.Proper) {second : Nat} (hsecond : second ∈ s.seconds)
    (hedge : edge = true → start.second ≤ second) :
    ∃ m, s.inMinute start edge d hour minute = some m ∧ m.second ≤ second := by
  have hmem : second ∈ onward edge start.second s.seconds := mem_onward.2 ⟨hsecond, hedge⟩
  have hsorted : (onward edge start.second s.seconds).Pairwise (· < ·) := pairwise_onward (hs.pairwise .second)
  unfold inMinute
  generalize onward edge start.second s.seconds = l at hmem hsorted
  cases l with
  | nil => cases hmem
  | cons x l =>
    refine ⟨⟨d, hour, minute, x⟩, rfl, ?_⟩
    rcases List.mem_cons.1 hmem with rfl | hmem
    · exact Nat.le_refl _
    · exact Nat.le_of_lt ((List.pairwise_cons.1 hsorted).1 second hmem)

theorem exists_inHour (hs : s.Proper) (hstart : start.Valid) {minute second : Nat} (hminute : minute ∈ s.minutes)
    (hsecond : second ∈ s.seconds)
    (hedge : edge = true → start.minute * 60 + start.second ≤ minute * 60 + second) :
    ∃ m, s.inHour start edge d hour = some m ∧ m.minute * 60 + m.second ≤ minute * 60 + second := by
  have hlimit : second ≤ 59 := (hs.limits (f := .second) hsecond).2
  have hfrom := hstart.second
  have hmem : minute ∈ onward edge start.minute s.minutes := by
    refine mem_onward.2 ⟨hminute, fun h => ?_⟩
    have := hedge h
    omega
  have hunit : ∃ m, s.inMinute start (edge && minute == start.minute) d hour minute = some m ∧ m.second ≤ second := by
    refine exists_inMinute hs hsecond fun h => ?_
    obtain ⟨hon, heq⟩ := Bool.and_eq_true_iff.1 h
    have := hedge hon
    have := beq_iff_eq.1 heq
    omega
  obtain ⟨m, hfind, ⟨v, -, hlt, hm⟩ | ⟨hm, hle⟩⟩ := exists_findSome?
    (f := fun minute => s.inMinute start (edge && minute == start.minute) d hour minute)
    (pairwise_onward (hs.pairwise .minute)) hmem hunit
  · obtain ⟨-, -, rfl, hfound⟩ := mem_of_inMinute hm
    have : m.second ≤ 59 := (hs.limits (f := .second) hfound).2
    exact ⟨m, hfind, by omega⟩
  · obtain ⟨-, -, hsame, -⟩ := mem_of_inMinute hm
    exact ⟨m, hfind, by omega⟩

theorem exists_inDay (hs : s.Proper) (hstart : start.Valid) {hour minute second : Nat} (hhour : hour ∈ s.hours)
    (hminute : minute ∈ s.minutes) (hsecond : second ∈ s.seconds)
    (hedge : edge = true →
      start.hour * 3600 + start.minute * 60 + start.second ≤ hour * 3600 + minute * 60 + second) :
    ∃ m, s.inDay start edge d = some m ∧
      m.hour * 3600 + m.minute * 60 + m.second ≤ hour * 3600 + minute * 60 + second := by
  have hlimit : minute ≤ 59 ∧ second ≤ 59 :=
    ⟨(hs.limits (f := .minute) hminute).2, (hs.limits (f := .second) hsecond).2⟩
  have hfrom := And.intro hstart.minute hstart.second
  have hmem : hour ∈ onward edge start.hour s.hours := by
    refine mem_onward.2 ⟨hhour, fun h => ?_⟩
    have := hedge h
    omega
  have hunit : ∃ m, s.inHour start (edge && hour == start.hour) d hour = some m ∧
      m.minute * 60 + m.second ≤ minute * 60 + second := by
    refine exists_inHour hs hstart hminute hsecond fun h => ?_
    obtain ⟨hon, heq⟩ := Bool.and_eq_true_iff.1 h
    have := hedge hon
    have := beq_iff_eq.1 heq
    omega
  obtain ⟨m, hfind, ⟨v, -, hlt, hm⟩ | ⟨hm, hle⟩⟩ := exists_findSome?
    (f := fun hour => s.inHour start (edge && hour == start.hour) d hour)
    (pairwise_onward (hs.pairwise .hour)) hmem hunit
  · obtain ⟨-, rfl, hminute, hsecond⟩ := mem_of_inHour hm
    have : m.minute ≤ 59 ∧ m.second ≤ 59 :=
      ⟨(hs.limits (f := .minute) hminute).2, (hs.limits (f := .second) hsecond).2⟩
    exact ⟨m, hfind, by omega⟩
  · obtain ⟨-, hsame, -⟩ := mem_of_inHour hm
    exact ⟨m, hfind, by omega⟩

/-- The years from one of the schedule on begin with that year. -/
theorem exists_years (hs : s.Proper) {y : Nat} (hstart : start.date.year = (y : Int)) (hy : y ∈ s.years) :
    ∃ ys, s.years.filter (fun v => decide (start.date.year.toNat ≤ v)) = y :: ys ∧ (y :: ys).Pairwise (· < ·) := by
  have hsorted := (hs.pairwise .year).filter (fun v => decide (start.date.year.toNat ≤ v))
  have hmem : y ∈ s.years.filter (fun v => decide (start.date.year.toNat ≤ v)) :=
    List.mem_filter.2 ⟨hy, decide_eq_true (by omega)⟩
  have hfrom : ∀ v ∈ s.years.filter (fun v => decide (start.date.year.toNat ≤ v)), y ≤ v := by
    intro v hv
    have := of_decide_eq_true (List.mem_filter.1 hv).2
    omega
  change (s.years.filter _).Pairwise (· < ·) at hsorted
  generalize s.years.filter (fun v => decide (start.date.year.toNat ≤ v)) = ys at hsorted hmem hfrom
  cases ys with
  | nil => cases hmem
  | cons x ys =>
    have hx : y = x := by
      rcases List.mem_cons.1 hmem with rfl | hmem
      · rfl
      · have := (List.pairwise_cons.1 hsorted).1 y hmem
        have := hfrom x List.mem_cons_self
        omega
    exact ⟨ys, by rw [hx], hx ▸ hsorted⟩

/-- Only the first year is on the edge. -/
theorem inYears_cons {y : Nat} {ys : List Nat} (h : (y :: ys).Pairwise (· < ·)) :
    s.inYears start (y :: ys) = (y :: ys).findSome? fun (x : Nat) => s.inYear start (x == y) x := by
  have hrest : ys.findSome? (fun (x : Nat) => s.inYear start false x) =
      ys.findSome? fun (x : Nat) => s.inYear start (x == y) x := by
    obtain ⟨hlt, -⟩ := List.pairwise_cons.1 h
    clear h
    induction ys with
    | nil => rfl
    | cons x xs ih =>
      have hx : (x == y) = false := beq_eq_false_iff_ne.2 (Nat.ne_of_gt (hlt x List.mem_cons_self))
      rw [List.findSome?_cons, List.findSome?_cons, hx, ih fun z hz => hlt z (List.mem_cons_of_mem x hz)]
  rw [inYears, List.findSome?_cons, beq_self_eq_true, hrest]
  cases s.inYear start true (y : Int) <;> rfl

section Least

variable (hs : s.Proper) (hstart : start.Valid) (hc : s.Allows c)
include hs hstart hc

/-- On the edge, the walk is in the month of its start. -/
theorem exists_onDay (hedge : edge = true → start.date.year = c.date.year ∧ start.date.month = c.date.month ∧
      start.toSecond ≤ c.toSecond) :
    ∃ m, s.onDay start edge c.date.year c.date.month c.date.day = some m ∧ m.toSecond ≤ c.toSecond := by
  obtain ⟨-, -, -, hweekday, hhour, hminute, hsecond⟩ := hc
  have hfrom : (edge && c.date.day == min start.date.day (monthLength c.date.year c.date.month) &&
      s.days.contains start.date.day) = true →
      start.hour * 3600 + start.minute * 60 + start.second ≤ c.hour * 3600 + c.minute * 60 + c.second := by
    intro h
    simp only [Bool.and_eq_true, beq_iff_eq] at h
    obtain ⟨⟨hon, heq⟩, -⟩ := h
    obtain ⟨hyear, hmonth, hle⟩ := hedge hon
    rw [← hyear, ← hmonth, Nat.min_eq_left hstart.date.day.2] at heq
    have hsame : start.date.dayNumber = c.date.dayNumber := by simp only [Date.dayNumber, hyear, hmonth, heq]
    simp only [Moment.toSecond] at hle
    omega
  obtain ⟨m, hm, hle⟩ := exists_inDay (d := c.date) hs hstart hhour hminute hsecond hfrom
  refine ⟨m, (if_pos hweekday).trans hm, ?_⟩
  have hdate : m.date = c.date := (mem_of_inDay hm).1
  simp only [Moment.toSecond, hdate]
  omega

variable (hvalid : c.Valid)
include hvalid

theorem exists_inMonth (hedge : edge = true → start.date.year = c.date.year ∧ start.date.month = c.date.month ∧
      start.toSecond ≤ c.toSecond) :
    ∃ m, s.inMonth start edge c.date.year c.date.month = some m ∧ m.toSecond ≤ c.toSecond := by
  have hmem : c.date.day ∈ onward edge (min start.date.day (monthLength c.date.year c.date.month))
      (s.days.filter (· ≤ monthLength c.date.year c.date.month)) := by
    refine mem_onward.2 ⟨List.mem_filter.2 ⟨hc.2.2.1, decide_eq_true hvalid.date.day.2⟩, fun h => ?_⟩
    obtain ⟨hyear, hmonth, hle⟩ := hedge h
    rw [← hyear, ← hmonth, Nat.min_eq_left hstart.date.day.2]
    by_contra hlt
    have := hvalid.lt_of_day_lt (hvalid.date.lt_of_day_lt hyear.symm hmonth.symm (Nat.lt_of_not_le hlt))
    omega
  rw [inMonth_eq]
  obtain ⟨m, hfind, ⟨day, hday, hlt, hm⟩ | ⟨-, hle⟩⟩ := exists_findSome?
    (pairwise_onward ((hs.pairwise .day).filter _)) hmem (exists_onDay hs hstart hc hedge)
  · obtain ⟨hday, hlast⟩ := List.mem_filter.1 (mem_onward.1 hday).1
    have hm' := (allows_of_onDay hs hc.1 hc.2.1 hday (of_decide_eq_true hlast) hm).2
    have hdate := date_of_onDay hm
    refine ⟨m, hfind, Int.le_of_lt (hm'.lt_of_day_lt (hm'.date.lt_of_day_lt ?_ ?_ ?_))⟩ <;> rw [hdate]
    exact hlt
  · exact ⟨m, hfind, hle⟩

/-- On the edge, the walk is in the year of its start. -/
theorem exists_inYear (hedge : edge = true → start.date.year = c.date.year ∧ start.toSecond ≤ c.toSecond) :
    ∃ m, s.inYear start edge c.date.year = some m ∧ m.toSecond ≤ c.toSecond := by
  have hmem : c.date.month ∈ onward edge start.date.month s.months := by
    refine mem_onward.2 ⟨hc.2.1, fun h => ?_⟩
    obtain ⟨hyear, hle⟩ := hedge h
    by_contra hlt
    have := hvalid.lt_of_day_lt (hvalid.date.lt_of_month_lt hyear.symm (Nat.lt_of_not_le hlt))
    omega
  have hunit : ∃ m, s.inMonth start (edge && c.date.month == start.date.month) c.date.year c.date.month = some m ∧
      m.toSecond ≤ c.toSecond := by
    refine exists_inMonth hs hstart hc hvalid fun h => ?_
    obtain ⟨hon, heq⟩ := Bool.and_eq_true_iff.1 h
    exact ⟨(hedge hon).1, (beq_iff_eq.1 heq).symm, (hedge hon).2⟩
  obtain ⟨m, hfind, ⟨month, hmonth, hlt, hm⟩ | ⟨-, hle⟩⟩ := exists_findSome?
    (f := fun month => s.inMonth start (edge && month == start.date.month) c.date.year month)
    (pairwise_onward (hs.pairwise .month)) hmem hunit
  · have hm' := (allows_of_inMonth hs hc.1 (mem_onward.1 hmonth).1 hm).2
    obtain ⟨hyear, hsame⟩ := month_of_inMonth hm
    exact ⟨m, hfind, Int.le_of_lt (hm'.lt_of_day_lt (hm'.date.lt_of_month_lt hyear (hsame ▸ hlt)))⟩
  · exact ⟨m, hfind, hle⟩

/-- The search finds something no later than any allowed moment at or after its start, if the year of the start is one
of the schedule. -/
theorem exists_next? (hyear : ∃ y ∈ s.years, start.date.year = (y : Int)) (hle : start.toSecond ≤ c.toSecond) :
    ∃ m, s.next? start = some m ∧ m.toSecond ≤ c.toSecond := by
  obtain ⟨y, hy, hstarty⟩ := hyear
  obtain ⟨v, hv, hcv⟩ := id hc.1
  have hyv := hvalid.year_le hle
  obtain ⟨ys, hys, hsorted⟩ := exists_years hs hstarty hy
  have hmem : v ∈ y :: ys := hys ▸ List.mem_filter.2 ⟨hv, decide_eq_true (by omega)⟩
  have hunit : ∃ m, s.inYear start (v == y) (v : Int) = some m ∧ m.toSecond ≤ c.toSecond := by
    rw [← hcv]
    refine exists_inYear hs hstart hc hvalid fun h => ⟨?_, hle⟩
    rw [hstarty, hcv, beq_iff_eq.1 h]
  rw [next?, if_neg (by omega), hys, inYears_cons hsorted]
  obtain ⟨m, hfind, ⟨x, hx, hlt, hm⟩ | ⟨-, hle⟩⟩ := exists_findSome?
    (f := fun (x : Nat) => s.inYear start (x == y) x) hsorted hmem hunit
  · have hxs : x ∈ s.years := (List.mem_filter.1 (hys ▸ hx)).1
    have hm' := (allows_of_inYear hs ⟨x, hxs, rfl⟩ hm).2
    have hyear := year_of_inYear hm
    exact ⟨m, hfind, Int.le_of_lt (hm'.lt_of_day_lt (hm'.date.lt_of_year_lt (by omega)))⟩
  · exact ⟨m, hfind, hle⟩

end Least

/-! ## The search after an instant -/

/-- The year in which the search after an instant starts is one of the schedule, or no year of the schedule is later. -/
def OnCourse (s : Schedule) (t : Instant) : Prop :=
  (∃ y ∈ s.years, (Moment.ofSecond (t.second + 1)).date.year = (y : Int)) ∨
    ∀ y ∈ s.years, (y : Int) ≤ (Moment.ofSecond (t.second + 1)).date.year

instance (s : Schedule) (t : Instant) : Decidable (s.OnCourse t) := inferInstanceAs (Decidable (_ ∨ _))

variable {t o : Instant}

/-- The years of a schedule lie in the calendar. -/
theorem toSecond_le_lastSecond (hs : s.Proper) {y : Nat} (hy : y ∈ s.years) (hyear : m.date.year = (y : Int))
    (hvalid : m.Valid) : m.toSecond ≤ Instant.lastSecond := by
  have hlimit : y ≤ 2100 := (hs.limits (f := .year) hy).2
  have hlt := hvalid.lt_of_day_lt (b := ⟨⟨2101, 1, 1⟩, 0, 0, 0⟩)
    (hvalid.date.lt_of_year_lt (show m.date.year < 2101 by omega))
  have hlast : (⟨⟨2101, 1, 1⟩, 0, 0, 0⟩ : Moment).toSecond ≤ Instant.lastSecond := by decide
  omega

/-- What the search finds is an occurrence. -/
theorem occurs_of_after? (hs : s.Proper) (h : s.after? t = some o) : s.Occurs o := by
  obtain ⟨m, hm, rfl⟩ := Option.map_eq_some_iff.1 h
  obtain ⟨hallows, hvalid⟩ := allows_of_next? hs hm
  obtain ⟨y, hy, hyear⟩ := hallows.1
  have hlast := toSecond_le_lastSecond hs hy hyear hvalid
  refine ⟨by rw [Instant.second_ofSecond], Instant.ofSecond_le_latest.2 hlast, ?_⟩
  rw [Instant.second_ofSecond, hvalid.ofSecond_toSecond]
  exact hallows

/-- On course, the search finds something no later than any occurrence that lies ahead. -/
theorem exists_after? (hs : s.Proper) (hcourse : s.OnCourse t) (ho : s.Occurs o) (hto : t < o) :
    ∃ o', s.after? t = some o' ∧ o' ≤ o := by
  obtain ⟨hsecond, -, hallows⟩ := ho
  have hlt : t.second < o.second := Instant.lt_ofSecond.1 (hsecond ▸ hto)
  have hle : (Moment.ofSecond (t.second + 1)).toSecond ≤ (Moment.ofSecond o.second).toSecond := by
    rw [Moment.toSecond_ofSecond, Moment.toSecond_ofSecond]
    omega
  have hyear : ∃ y ∈ s.years, (Moment.ofSecond (t.second + 1)).date.year = (y : Int) := by
    rcases hcourse with hcourse | hlate
    · exact hcourse
    · obtain ⟨y, hy, hyo⟩ := hallows.1
      have hstart := (Moment.valid_ofSecond o.second).year_le hle
      have hlate := hlate y hy
      exact ⟨y, hy, by omega⟩
  obtain ⟨m, hm, hmo⟩ := exists_next? hs (Moment.valid_ofSecond _) hallows (Moment.valid_ofSecond _) hyear hle
  rw [Moment.toSecond_ofSecond] at hmo
  refine ⟨_, Option.map_eq_some_iff.2 ⟨m, hm, rfl⟩, ?_⟩
  rw [hsecond]
  exact Instant.ofSecond_le.2 hmo

/-- On course, the search is exact. -/
theorem exact_of_onCourse (hs : s.Proper) (hcourse : s.OnCourse t) : s.Exact t := by
  have hfound : ∀ o, s.after? t = some o → s.IsNext t o := by
    refine fun o h => ⟨occurs_of_after? hs h, lt_of_after? hs.ascending h, fun o' ho' hto' => ?_⟩
    obtain ⟨o'', hafter, hle⟩ := exists_after? hs hcourse ho' hto'
    rw [h] at hafter
    exact Option.some.inj hafter ▸ hle
  refine fun o => ⟨hfound o, fun hnext => ?_⟩
  obtain ⟨o', hafter, -⟩ := exists_after? hs hcourse hnext.occurs hnext.after
  rw [hafter, (hfound o' hafter).unique hnext]

end Cron.Schedule

end Rota
