/-!
# The Gregorian calendar

Days are numbered from 1970-01-01, which is day 0, in both directions, and a `Date` names such a day by year, month
and day of month. A `Moment` adds the time of day to the second.

- the years tile the day numbers: each has 365 or 366 days (`yearStart_succ`), and a day number lies in the year that
  `yearOfDay` gives it (`yearStart_yearOfDay_le`, `lt_yearStart_yearOfDay`);
- the date of a day number has that number (`Date.dayNumber_ofDayNumber`);
- the moment of a second lies at that second (`Moment.toSecond_ofSecond`).
-/

namespace Rota

/-! ## Years -/

/-- A year has a leap day if four divides it, except a century that 400 does not divide. -/
def isLeapYear (y : Int) : Bool := decide (y % 4 = 0 ∧ (y % 100 ≠ 0 ∨ y % 400 = 0))

/-- The number of the first day of a year. -/
def yearStart (y : Int) : Int := 365 * (y - 1970) + (y - 1) / 4 - (y - 1) / 100 + (y - 1) / 400 - 477

/-- A year has 366 days if it is a leap year, else 365. -/
theorem yearStart_succ (y : Int) : yearStart (y + 1) = yearStart y + if isLeapYear y then 366 else 365 := by
  simp only [yearStart, isLeapYear, decide_eq_true_eq]
  split <;> omega

/-- The year a day lies in: 400 years have 146097 days, which gives it up to one year. -/
def yearOfDay (n : Int) : Int :=
  let y := 1970 + (400 * n) / 146097
  if n < yearStart y then y - 1 else if yearStart (y + 1) ≤ n then y + 1 else y

/-- A day does not lie before its year. -/
theorem yearStart_yearOfDay_le (n : Int) : yearStart (yearOfDay n) ≤ n := by
  simp only [yearOfDay]
  split
  · simp only [yearStart] at *
    omega
  · split <;> omega

/-- A day lies before the year after its own. -/
theorem lt_yearStart_yearOfDay (n : Int) : n < yearStart (yearOfDay n + 1) := by
  simp only [yearOfDay]
  split
  · rename_i h
    simpa using h
  · split
    · simp only [yearStart] at *
      omega
    · omega

/-! ## Months -/

/-- The lengths of the twelve months of a year. -/
def monthLengths (y : Int) : List Nat :=
  [31, if isLeapYear y then 29 else 28, 31, 30, 31, 30, 31, 31, 30, 31, 30, 31]

/-- The number of days of a month, counted from 1. -/
def monthLength (y : Int) (m : Nat) : Nat := (monthLengths y).getD (m - 1) 31

/-- The days in months of the given lengths. -/
def totalDays : List Nat → Nat
  | [] => 0
  | l :: ls => l + totalDays ls

/-- Takes whole months of the given lengths, the first numbered `m`, off a count of days: the month that is reached
and the days left over. -/
def splitMonths : Nat → List Nat → Nat → Nat × Nat
  | m, [], d => (m, d)
  | m, l :: ls, d => if d < l then (m, d) else splitMonths (m + 1) ls (d - l)

/-- The months taken and the days left over make up the count of days. -/
theorem splitMonths_total : ∀ (ls : List Nat) (m d : Nat),
    ∃ k, (splitMonths m ls d).1 = m + k ∧ totalDays (ls.take k) + (splitMonths m ls d).2 = d
  | [], m, d => ⟨0, rfl, by simp [splitMonths, totalDays]⟩
  | l :: ls, m, d => by
    by_cases h : d < l
    · exact ⟨0, by simp [splitMonths, h], by simp [splitMonths, h, totalDays]⟩
    · obtain ⟨k, h1, h2⟩ := splitMonths_total ls (m + 1) (d - l)
      refine ⟨k + 1, ?_, ?_⟩
      · rw [splitMonths, if_neg h, h1]
        omega
      · rw [splitMonths, if_neg h, List.take_succ_cons, totalDays]
        omega

/-! ## Dates -/

structure Date where
  year : Int
  month : Nat
  day : Nat
deriving DecidableEq, Inhabited

namespace Date

def dayNumber (d : Date) : Int :=
  yearStart d.year + totalDays ((monthLengths d.year).take (d.month - 1)) + (d.day - 1 : Nat)

def ofDayNumber (n : Int) : Date :=
  let y := yearOfDay n
  let (m, d) := splitMonths 1 (monthLengths y) (n - yearStart y).toNat
  ⟨y, m, d + 1⟩

/-- The date of a day number has that number. -/
theorem dayNumber_ofDayNumber (n : Int) : (ofDayNumber n).dayNumber = n := by
  obtain ⟨k, h1, h2⟩ := splitMonths_total (monthLengths (yearOfDay n)) 1 (n - yearStart (yearOfDay n)).toNat
  have h := yearStart_yearOfDay_le n
  simp only [ofDayNumber, dayNumber, h1, Nat.add_sub_cancel_left, Nat.add_sub_cancel]
  omega

/-- The day of the week, 1 on Sunday to 7 on Saturday; 1970-01-01 was a Thursday. -/
def weekday (d : Date) : Nat := ((d.dayNumber + 4) % 7).toNat + 1

end Date

/-! ## Moments -/

/-- A calendar day and a time of day to the second. -/
structure Moment where
  date : Date
  hour : Nat
  minute : Nat
  second : Nat
deriving DecidableEq, Inhabited

namespace Moment

/-- The seconds from the start of 1970 to a moment. -/
def toSecond (m : Moment) : Int :=
  m.date.dayNumber * 86400 + (m.hour * 3600 + m.minute * 60 + m.second : Nat)

/-- The moment a number of seconds after the start of 1970. -/
def ofSecond (s : Int) : Moment :=
  let r := (s % 86400).toNat
  ⟨Date.ofDayNumber (s / 86400), r / 3600, r / 60 % 60, r % 60⟩

/-- The moment of a second lies at that second. -/
theorem toSecond_ofSecond (s : Int) : (ofSecond s).toSecond = s := by
  simp only [toSecond, ofSecond, Date.dayNumber_ofDayNumber]
  omega

end Moment

end Rota
