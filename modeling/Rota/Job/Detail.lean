import Rota.Job.Key
import Rota.Time.Stamp

/-!
# Jobs

A `Job` is work that a trigger sets off: a backup or some other chore. A `Backup` is one object that many
registrations can share; it is told from others by the handler it was made for, which has a number of its own, and by
its kind. It gets to work by a `HandlerCall`. A `Detail` is a job under a key, and `JobInfo` is what can be asked about
a registered one.
-/

namespace Rota

/-! ## Backups -/

/-- A full or incremental backup of a routine. -/
structure Backup where
  /-- The number of the handler that makes the backup. -/
  handler : Nat
  routine : String
  kind : Kind
deriving DecidableEq, Inhabited

namespace Backup

/-- The place of a backup among all backups: by handler, routine and kind. -/
instance : Ord Backup :=
  ⟨compareLex (compareOn handler) (compareLex (compareOn routine) (compareOn fun b => b.kind.rank))⟩

instance : Std.TransOrd Backup :=
  inferInstanceAs (Std.TransCmp
    (compareLex (compareOn handler) (compareLex (compareOn routine) (compareOn fun b => b.kind.rank))))

instance : Std.LawfulEqOrd Backup where
  eq_of_compare {a b} h := by
    have h' : compareLex (compareOn handler) (compareLex (compareOn routine) (compareOn fun b => b.kind.rank)) a b
        = .eq := h
    rw [compareLex_eq_eq, compareLex_eq_eq] at h'
    obtain ⟨hh, hr, hk⟩ := h'
    have hhandler : a.handler = b.handler := Std.LawfulEqOrd.eq_of_compare hh
    have hroutine : a.routine = b.routine := Std.LawfulEqOrd.eq_of_compare hr
    have hkind : a.kind = b.kind := Kind.rank_injective (Std.LawfulEqOrd.eq_of_compare hk)
    obtain ⟨ah, ar, ak⟩ := a
    obtain ⟨bh, br, bk⟩ := b
    simp only at hhandler hroutine hkind
    rw [hhandler, hroutine, hkind]

def text (b : Backup) : String := b.routine ++ " " ++ b.kind.text ++ " backup job"

end Backup

/-- A call of the handler with a number, at a clock reading: to make a full backup or an incremental one. -/
inductive HandlerCall
  | full (handler : Nat) (time : Instant)
  | incremental (handler : Nat) (time : Instant)
deriving DecidableEq

namespace HandlerCall

def kind : HandlerCall → Kind
  | full .. => .full
  | incremental .. => .incremental

def handler : HandlerCall → Nat
  | full n _ => n
  | incremental n _ => n

def time : HandlerCall → Instant
  | full _ t => t
  | incremental _ t => t

end HandlerCall

/-- The call by which a backup is made. -/
def Backup.call (b : Backup) (now : Instant) : HandlerCall :=
  match b.kind with
  | .full => .full b.handler now
  | .incremental => .incremental b.handler now

/-! ## Jobs -/

/-- Work that a trigger sets off. -/
inductive Job
  | backup (b : Backup)
  /-- Any other work: a label, and whether it ends in a panic. -/
  | chore (label : String) (panics : Bool)
deriving DecidableEq, Inhabited

def Job.text : Job → String
  | backup b => b.text
  | chore label _ => label

/-- A job under a key. -/
structure Detail where
  key : Key
  job : Job
deriving DecidableEq, Inhabited

/-- What is known of a registered job: its key, the labels of the job and of its trigger, and its next fire time. -/
structure JobInfo where
  key : Key
  job : String
  trigger : String
  next : Stamp
deriving DecidableEq, Inhabited

end Rota
