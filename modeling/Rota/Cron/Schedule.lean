import Rota.Cron.Grammar
import Rota.Time.Calendar
import Rota.Time.Instant

/-!
# Schedules

A `Schedule` holds the values that a moment may have in each field. It is read from a text with six or seven fields,
from second to day of week and an optional year, or from a shorthand such as `@daily`.
-/

namespace Rota.Cron

/-- The values allowed in each field, in ascending order. -/
structure Schedule where
  seconds : List Nat
  minutes : List Nat
  hours : List Nat
  days : List Nat
  months : List Nat
  weekdays : List Nat
  years : List Nat
deriving DecidableEq

namespace Schedule

/-- A schedule allows a moment if each field of the moment has an allowed value. -/
def Allows (s : Schedule) (m : Moment) : Prop :=
  (∃ y ∈ s.years, m.date.year = (y : Int)) ∧ m.date.month ∈ s.months ∧ m.date.day ∈ s.days ∧
    m.date.weekday ∈ s.weekdays ∧ m.hour ∈ s.hours ∧ m.minute ∈ s.minutes ∧ m.second ∈ s.seconds

instance (s : Schedule) (m : Moment) : Decidable (s.Allows m) := inferInstanceAs (Decidable (_ ∧ _))

/-- An instant is an occurrence of a schedule if it is the start of an allowed second of the calendar. -/
def Occurs (s : Schedule) (t : Instant) : Prop :=
  t = .ofSecond t.second ∧ t ≤ .latest ∧ s.Allows (.ofSecond t.second)

instance (s : Schedule) (t : Instant) : Decidable (s.Occurs t) := inferInstanceAs (Decidable (_ ∧ _ ∧ _))

/-- The six fields and the year, which may be left out and then is any year. -/
def readFields (cs : List Char) : Option Schedule := do
  let (seconds, r) ← readValues .second false cs
  let (minutes, r) ← readValues .minute false r
  let (hours, r) ← readValues .hour false r
  let (days, r) ← readValues .day true r
  let (months, r) ← readValues .month false r
  let (weekdays, r) ← readValues .weekday true r
  match readValues .year false r with
  | some (years, []) => some ⟨seconds, minutes, hours, days, months, weekdays, years⟩
  | some (_, _ :: _) => none
  | none => if r = [] then some ⟨seconds, minutes, hours, days, months, weekdays, Field.year.all⟩ else none

/-- The texts that stand for a whole expression. -/
def shorthands : List (String × String) :=
  [("@yearly", "0 0 0 1 1 * *"), ("@monthly", "0 0 0 1 * * *"), ("@weekly", "0 0 0 * * 1 *"),
    ("@daily", "0 0 0 * * * *"), ("@hourly", "0 0 * * * * *")]

/-- Reads a schedule: a shorthand with gaps around it, or fields. -/
def read (cs : List Char) : Option Schedule :=
  match shorthands.lookup (String.ofList ((skipGap cs).reverse.dropWhile isGap).reverse) with
  | some e => readFields e.toList
  | none => readFields cs

end Schedule

end Rota.Cron
