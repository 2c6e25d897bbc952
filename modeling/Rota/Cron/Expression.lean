import Rota.Cron.Schedule
import Rota.Cron.Weekday

/-!
# Cron expressions

Three forms of an expression are read: a shorthand, six or seven fields from second to year, and the classic five
fields from minute to day of week. The last means second zero and counts the days of the week from 0 to 7.
-/

namespace Rota.Cron

/-- The text to be read for an expression: five words become six fields, any other text is left as it is. -/
def normalize (expression : List Char) : List Char :=
  match Text.words expression with
  | [minute, hour, day, month, weekday] =>
    [' '].intercalate [['0'], minute, hour, day, month, Weekday.renumber weekday]
  | _ => Text.trim expression

/-- The schedule an expression denotes, if it is well formed. -/
def Schedule.ofExpression? (expression : String) : Option Schedule := Schedule.read (normalize expression.toList)

end Rota.Cron
