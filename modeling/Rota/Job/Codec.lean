import Rota.Config.Codec
import Rota.Job.Detail

/-!
# Keys and job information as JSON

A kind is a word. A key needs its name and may leave out its kind; of the information on a job every value is needed.
-/

namespace Rota

open Json (fields? asText? asOption? asWord? ofOption)

namespace Kind

def words : List (String × Kind) := [("full", .full), ("incremental", .incremental)]

def ofJson? : Json → Option Kind := asWord? words

def toJson (k : Kind) : Json := .text k.text

end Kind

namespace Key

def fields : List String := ["name", "group"]

def ofJson? (v : Json) : Option Key := do
  match ← fields? true fields v with
  | [name, kind] => some ⟨← name.bind asText?, ← Json.orDefault none (asOption? Kind.ofJson?) kind⟩
  | _ => none

def toJson (k : Key) : Json := Json.ofMembers (fields.zip [.text k.name, ofOption Kind.toJson k.kind])

def ofText? (s : String) : Option Key := (Json.parse s).bind ofJson?

def jsonText (k : Key) : String := k.toJson.render

end Key

namespace JobInfo

def fields : List String := ["key", "description", "trigger", "next_fire_time"]

def ofJson? (v : Json) : Option JobInfo := do
  match ← fields? true fields v with
  | [key, job, trigger, next] =>
    some ⟨← key.bind Key.ofJson?, ← job.bind asText?, ← trigger.bind asText?,
      ← (← next.bind asText?) |> Stamp.ofText?⟩
  | _ => none

def toJson (i : JobInfo) : Json :=
  Json.ofMembers (fields.zip [i.key.toJson, .text i.job, .text i.trigger, .text i.next.text])

end JobInfo

end Rota
