import Rota.Cron.Schedule

/-!
# The next occurrence

The search for the next occurrence walks years, months, days, hours, minutes and seconds in ascending order. The walk
starts at the moment `start` and keeps to its fields as long as it moves along its edge: a unit is on the edge if
every larger unit so far has the value that `start` has. On the edge a unit begins at the value of `start`, elsewhere
at its least value. The first year that is visited counts as the edge.
-/

namespace Rota.Cron.Schedule

/-- The values of a unit to be walked: on the edge, those not below the bound. -/
def onward (edge : Bool) (bound : Nat) (vs : List Nat) : List Nat := if edge then vs.filter (bound ≤ ·) else vs

def inMinute (s : Schedule) (start : Moment) (edge : Bool) (d : Date) (hour minute : Nat) : Option Moment :=
  (onward edge start.second s.seconds).head?.map fun second => ⟨d, hour, minute, second⟩

def inHour (s : Schedule) (start : Moment) (edge : Bool) (d : Date) (hour : Nat) : Option Moment :=
  (onward edge start.minute s.minutes).findSome? fun minute =>
    s.inMinute start (edge && minute == start.minute) d hour minute

def inDay (s : Schedule) (start : Moment) (edge : Bool) (d : Date) : Option Moment :=
  (onward edge start.hour s.hours).findSome? fun hour => s.inHour start (edge && hour == start.hour) d hour

/-- The first allowed moment of a month. On the edge the walk starts at the day of `start`, or at the end of a month
that is shorter; it stays on the edge only if the day of `start` is an allowed one. -/
def inMonth (s : Schedule) (start : Moment) (edge : Bool) (year : Int) (month : Nat) : Option Moment :=
  let last := monthLength year month
  let bound := min start.date.day last
  (onward edge bound (s.days.filter (· ≤ last))).findSome? fun day =>
    let d : Date := ⟨year, month, day⟩
    if d.weekday ∈ s.weekdays then s.inDay start (edge && day == bound && s.days.contains start.date.day) d else none

def inYear (s : Schedule) (start : Moment) (edge : Bool) (year : Int) : Option Moment :=
  (onward edge start.date.month s.months).findSome? fun month =>
    s.inMonth start (edge && month == start.date.month) year month

/-- The first allowed moment of a list of years, of which the first is on the edge. -/
def inYears (s : Schedule) (start : Moment) : List Nat → Option Moment
  | [] => none
  | y :: ys => s.inYear start true y <|> ys.findSome? fun (y : Nat) => s.inYear start false y

/-- The moment of the next occurrence at or after `start`. No year follows a negative one. -/
def next? (s : Schedule) (start : Moment) : Option Moment :=
  if start.date.year < 0 then none else s.inYears start (s.years.filter (start.date.year.toNat ≤ ·))

/-- The first occurrence after an instant: the search starts one second later. -/
def after? (s : Schedule) (t : Instant) : Option Instant :=
  (s.next? (Moment.ofSecond (t.second + 1))).map fun m => Instant.ofSecond m.toSecond

end Rota.Cron.Schedule
