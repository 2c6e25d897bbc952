import Rota.Config.Basic
import Rota.Json.Printer
import Rota.Json.Reader
import Rota.Json.Record

/-!
# Configurations as JSON

Every part of a configuration is a record in which a missing value has its default. Written, a record has all its
values in a fixed order, and a map has its entries in the order of their names.
-/

namespace Rota

open Json (fields? orDefault asText? asNat? asOption? asBool? asList? asMap? asWord? ofOption)

/-- A number of 32 bits. -/
def Json.asWord32? (v : Json) : Option UInt32 := (asNat? UInt32.size v).map UInt32.ofNat

/-- A number of 64 bits. -/
def Json.asWord64? (v : Json) : Option UInt64 := (asNat? UInt64.size v).map UInt64.ofNat

/-- A map as an object, in the order of its names. -/
def Json.ofMap {α : Type} (f : α → Json) (m : Std.ExtTreeMap String α) : Json :=
  Json.ofMembers (m.toList.map fun (n, a) => (n, f a))

/-! ## Policies -/

namespace Policy

def fields : List String := ["parallel", "max-retries", "retry-delay", "sealed"]

def ofJson? (v : Json) : Option Policy := do
  match ← fields? false fields v with
  | [parallel, maxRetries, retryDelay, sealed] =>
    some {
      parallel := ← orDefault none (asOption? Json.asWord32?) parallel
      maxRetries := ← orDefault none (asOption? Json.asWord32?) maxRetries
      retryDelay := ← orDefault none (asOption? Json.asWord64?) retryDelay
      sealed := ← orDefault none (asOption? asBool?) sealed }
  | _ => none

def toJson (p : Policy) : Json :=
  Json.ofMembers (fields.zip [ofOption (fun n => Json.nat n.toNat) p.parallel,
    ofOption (fun n => Json.nat n.toNat) p.maxRetries, ofOption (fun n => Json.nat n.toNat) p.retryDelay,
    ofOption Json.bool p.sealed])

end Policy

/-! ## Storages -/

namespace StorageType

def words : List (String × StorageType) := [("local", .localDisk), ("aws-s3", .awsS3)]

def word : StorageType → String
  | localDisk => "local"
  | awsS3 => "aws-s3"

def ofJson? : Json → Option StorageType := asWord? words

def toJson (t : StorageType) : Json := .text t.word

end StorageType

namespace Storage

def fields : List String := ["type", "path", "s3-region"]

def ofJson? (v : Json) : Option Storage := do
  match ← fields? false fields v with
  | [type, path, s3Region] =>
    some {
      type := ← orDefault .localDisk StorageType.ofJson? type
      path := ← orDefault "" asText? path
      s3Region := ← orDefault none (asOption? asText?) s3Region }
  | _ => none

def toJson (s : Storage) : Json :=
  Json.ofMembers (fields.zip [s.type.toJson, .text s.path, ofOption Json.text s.s3Region])

end Storage

/-! ## Routines -/

namespace Routine

def fields : List String :=
  ["backup-policy", "source-cluster", "storage", "interval-cron", "incr-interval-cron", "namespaces"]

def ofJson? (v : Json) : Option Routine := do
  match ← fields? false fields v with
  | [policy, cluster, storage, fullCron, incrementalCron, namespaces] =>
    some {
      policy := ← orDefault "" asText? policy
      cluster := ← orDefault "" asText? cluster
      storage := ← orDefault "" asText? storage
      fullCron := ← orDefault "" asText? fullCron
      incrementalCron := ← orDefault "" asText? incrementalCron
      namespaces := ← orDefault [] (asList? asText?) namespaces }
  | _ => none

def toJson (r : Routine) : Json :=
  Json.ofMembers (fields.zip [.text r.policy, .text r.cluster, .text r.storage, .text r.fullCron,
    .text r.incrementalCron, .array (r.namespaces.map Json.text)])

end Routine

/-! ## Configurations -/

namespace Config

def fields : List String := ["backup-routines", "backup-policies", "storage"]

def ofJson? (v : Json) : Option Config := do
  match ← fields? false fields v with
  | [routines, policies, storages] =>
    some {
      routines := ← orDefault ∅ (asMap? Routine.ofJson?) routines
      policies := ← orDefault ∅ (asMap? Policy.ofJson?) policies
      storages := ← orDefault ∅ (asMap? Storage.ofJson?) storages }
  | _ => none

def toJson (c : Config) : Json :=
  Json.ofMembers (fields.zip [Json.ofMap Routine.toJson c.routines, Json.ofMap Policy.toJson c.policies,
    Json.ofMap Storage.toJson c.storages])

def ofText? (s : String) : Option Config := (Json.parse s).bind ofJson?

def text (c : Config) : String := c.toJson.render

end Config

end Rota
