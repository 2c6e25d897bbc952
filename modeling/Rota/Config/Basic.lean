import Rota.Text.Blank
import Std.Data.ExtTreeMap

/-!
# Backup configurations

A configuration names routines, policies and storages. Only the cron expressions of a routine matter to scheduling;
the rest is there for the engine that makes the backups.
-/

namespace Rota

/-! ## Parts of a configuration -/

/-- What is backed up, where to and when. -/
structure Routine where
  policy : String := ""
  cluster : String := ""
  storage : String := ""
  /-- The expression of the full backups. -/
  fullCron : String := ""
  /-- The expression of the incremental backups; blank for none. -/
  incrementalCron : String := ""
  /-- The namespaces to be backed up; none stands for all. -/
  namespaces : List String := []
deriving DecidableEq, Inhabited

/-- The expression of the incremental backups without the blanks around it, if there are any. -/
def Routine.incremental? (r : Routine) : Option String :=
  match Text.trim r.incrementalCron.toList with
  | [] => none
  | cs => some (String.ofList cs)

/-- How the engine makes a backup. -/
structure Policy where
  parallel : Option UInt32 := none
  maxRetries : Option UInt32 := none
  /-- The pause between two tries in milliseconds. -/
  retryDelay : Option UInt64 := none
  sealed : Option Bool := none
deriving DecidableEq, Inhabited

/-- The kinds of storage. -/
inductive StorageType
  | localDisk
  | awsS3
deriving DecidableEq, Inhabited

/-- Where backups are stored. -/
structure Storage where
  type : StorageType := .localDisk
  path : String := ""
  s3Region : Option String := none
deriving DecidableEq, Inhabited

/-! ## Configurations -/

/-- The whole configuration, each part by its names. -/
structure Config where
  routines : Std.ExtTreeMap String Routine := ∅
  policies : Std.ExtTreeMap String Policy := ∅
  storages : Std.ExtTreeMap String Storage := ∅

namespace Config

instance : Inhabited Config := ⟨{}⟩

def empty : Config := {}

def withRoutine (c : Config) (name : String) (r : Routine) : Config :=
  { c with routines := c.routines.insert name r }

def withPolicy (c : Config) (name : String) (p : Policy) : Config :=
  { c with policies := c.policies.insert name p }

def withStorage (c : Config) (name : String) (s : Storage) : Config :=
  { c with storages := c.storages.insert name s }

def routine? (c : Config) (name : String) : Option Routine := c.routines[name]?

end Config

end Rota
