import Rota.Cron.Field
import Rota.Text.Blank

/-!
# Days of the week counted from zero

Expressions with five fields count the days of the week from 0 to 7, with Sunday as 0 and as 7. `renumber` turns such
a field into one of the days 1 to 7 with Sunday as 1: the numeric items become one list of days, and every other item
follows unchanged, to be accepted or refused by the grammar of fields.
-/

namespace Rota.Cron.Weekday

/-- The base of a numeric item: every day, one day, or a range of days. A single day with a step runs on to Saturday.
-/
def base? (stepped : Bool) (cs : List Char) : Option (Nat × Nat) :=
  match Text.splitFirst '-' cs with
  | some (a, b) => do
    let a ← Text.byte? a
    let b ← Text.byte? b
    some (a, b)
  | none =>
    if cs = ['*'] then some (0, 6)
    else (Text.byte? cs).map fun d => (d, if stepped then 6 else d)

/-- The days from 0 to 7 that a numeric item denotes. Days beyond 7, a step of zero and a range that runs backwards
make an item not numeric. -/
def stride? (item : List Char) : Option Stride := do
  let (base, step) ← match Text.splitFirst '/' item with
    | some (base, step) => ((Text.byte? step).filter (0 < ·)).map fun s => (base, s)
    | none => some (item, 1)
  let (a, b) ← base? (item.contains '/') base
  if a ≤ b ∧ b ≤ 7 then some ⟨a, b, step⟩ else none

/-- Whether a stride over the days 0 to 7 meets a day numbered from 1 on Sunday to 7 on Saturday. -/
def meets (s : Stride) (day : Nat) : Bool := (List.range 8).any fun d => s.meets d && d % 7 + 1 == day

/-- The field with the days 1 to 7 for a field that counts days from zero. -/
def renumber (field : List Char) : List Char :=
  if field = ['*'] ∨ field = ['?'] then field
  else
    let items := Text.pieces ',' field
    let strides := items.filterMap stride?
    let days := (List.range' 1 7).filter fun d => strides.any (meets · d)
    let others := items.filter fun i => (stride? i).isNone
    [','].intercalate (days.map (fun d => (toString d).toList) ++ others)

end Rota.Cron.Weekday
