import Rota.Text.Decimal
import Rota.Time.Instant

/-!
# Spans as text

A span is shown in the largest of seconds, milliseconds, microseconds and nanoseconds that it fills at least once,
with as many decimals as it needs: one minute is `60s`, half a microsecond `500ns` and no time at all `0ns`.
-/

namespace Rota.Span

/-- A span in a unit that has so many nanoseconds, shown with the decimals of the unit. -/
def inUnit (s : Span) (nanos decimals : Nat) (unit : String) : String :=
  toString (s.nanos / nanos) ++ Text.fraction decimals (s.nanos % nanos) ++ unit

def text (s : Span) : String :=
  if 1000000000 ≤ s.nanos then s.inUnit 1000000000 9 "s"
  else if 1000000 ≤ s.nanos then s.inUnit 1000000 6 "ms"
  else if 1000 ≤ s.nanos then s.inUnit 1000 3 "µs"
  else s.inUnit 1 0 "ns"

example : text (ofSeconds 60 0) = "60s" := by decide
example : text (ofSeconds 90 10) = "90.00000001s" := by decide
example : text ⟨999999999⟩ = "999.999999ms" := by decide
example : text ⟨1500⟩ = "1.5µs" := by decide
example : text zero = "0ns" := by decide

end Rota.Span
