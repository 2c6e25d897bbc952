import Rota.Routine.Error

/-!
# Engines

An engine makes the backups of routines. It binds a storage backend to each routine of a configuration, and makes the
handler of a routine from the configuration and the backend that is bound to it.
-/

namespace Rota

/-- What the scheduler knows of the handler of a routine. -/
structure Handler where
  routine : String
  /-- The time of the last full backup, if there was one. -/
  lastFull : Option Instant
deriving DecidableEq

/-- An engine with backends of some type. -/
structure Engine (β : Type) where
  /-- The backends of a configuration by routine, given the number of earlier bindings. -/
  bind : Nat → Config → Std.ExtTreeMap String β
  /-- The handler of a routine, given the backend that is bound to it. -/
  handler : Config → String → Option β → Except HandlerError Handler

end Rota
