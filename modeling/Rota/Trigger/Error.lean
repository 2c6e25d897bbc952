import Rota.Time.SpanText

/-!
# Why a trigger cannot say when it fires
-/

namespace Rota

/-- The reasons a trigger cannot be made or has no next fire time. -/
inductive TriggerError
  | invalidCron (expression reason : String)
  | noNextFireTime (expression : String)
  | expired
  | invalidDelay (delay : Span)
deriving DecidableEq, Inhabited

namespace TriggerError

def message : TriggerError → String
  | invalidCron expression reason => "Invalid cron expression '" ++ expression ++ "': " ++ reason
  | noNextFireTime expression =>
    "Cron expression '" ++ expression ++ "' has no fire time after the requested instant"
  | expired => "Run-once trigger has already fired"
  | invalidDelay delay => "Trigger delay " ++ delay.text ++ " cannot be represented as a calendar duration"

end TriggerError

/-- What a trigger answers when it is asked for the next fire time after an instant. -/
inductive NextFire
  | due (t : Instant)
  | refused (e : TriggerError)
  | overrun
deriving DecidableEq, Inhabited

end Rota
