import Rota.Scheduler.Flight

/-!
# Runs from inside a run

A full and an incremental backup of one handler are run directly, and the handler may run either of them again before
it returns. A run that gets to work is noted with the backups that are in progress at that moment.
-/

namespace Rota

/-- A call of the handler: its kind, the clock reading, and whether a full and an incremental backup were in progress.
-/
structure NestedCall where
  kind : Kind
  time : Instant
  full : Bool
  incremental : Bool
deriving DecidableEq

/-- A full and an incremental backup of one routine, their guards and metrics. -/
structure BackupPair where
  routine : String
  scheduler : Scheduler := {}

namespace BackupPair

def backup (p : BackupPair) (kind : Kind) : Backup := ⟨0, p.routine, kind⟩

/-- Whether the backup of a kind is in progress. -/
def running (p : BackupPair) (kind : Kind) : Bool := (p.scheduler.guard (p.backup kind)).taken

/-- Begins a run: its number, and the note of it if it gets to work. -/
def begin (p : BackupPair) (now : Instant) (kind : Kind) : BackupPair × Nat × Option NestedCall :=
  let id := p.scheduler.nextRun
  let s := p.scheduler.launch [⟨⟨⟨p.routine, some kind⟩, .backup (p.backup kind)⟩, now⟩]
  let q := { p with scheduler := s.beginRun id }
  (q, id, (s.handlerCall? id now).map fun c => ⟨c.kind, c.time, q.running .full, q.running .incremental⟩)

def finish (p : BackupPair) (id : Nat) (panicked : Bool) : BackupPair :=
  { p with scheduler := p.scheduler.finishRun id panicked Span.zero }

def inner (now : Instant) : List Kind → BackupPair → BackupPair × List NestedCall
  | [], p => (p, [])
  | kind :: kinds, p =>
    let (p, id, call) := p.begin now kind
    let (p, calls) := inner now kinds (p.finish id false)
    (p, call.toList ++ calls)

/-- Runs a backup whose handler runs others and then may panic: the runs that got to work, and whether it panicked. -/
def run (p : BackupPair) (now : Instant) (kind : Kind) (nest : List Kind) (panic : Bool) :
    BackupPair × List NestedCall × Bool :=
  let (p, id, call) := p.begin now kind
  match call with
  | none => (p.finish id false, [], false)
  | some call =>
    let (p, calls) := inner now nest p
    (p.finish id panic, call :: calls, panic)

end BackupPair

end Rota
