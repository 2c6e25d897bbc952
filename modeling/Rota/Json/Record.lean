import Rota.Json.Basic
import Rota.Text.Decimal
import Std.Data.ExtTreeMap

/-!
# Reading records, maps and numbers from JSON

A record is an object whose members have known names, in any order and among others, or an array of its values in the
order of the names. A map is an object with arbitrary names; of members with one name the last counts.
-/

namespace Rota.Json

/-! ## Leaves -/

def asText? : Json → Option String
  | .string s => s
  | _ => none

def asBool? : Json → Option Bool
  | .bool b => some b
  | _ => none

/-- A natural number below a bound, written as a plain run of digits. -/
def asNat? (bound : Nat) : Json → Option Nat
  | .number ds => (Text.digits? ds).filter (· < bound)
  | _ => none

/-- A value, or null for none. -/
def asOption? {α : Type} (f : Json → Option α) : Json → Option (Option α)
  | .null => some none
  | v => (f v).map some

/-- A list of values of one sort. -/
def asList? {α : Type} (f : Json → Option α) : Json → Option (List α)
  | .array xs => xs.mapM f
  | _ => none

/-- One of some words: a string, or an object with the word as its only name and null as its value. -/
def asWord? {α : Type} (words : List (String × α)) : Json → Option α
  | .string (some s) => words.lookup s
  | .object [(some s, .null)] => words.lookup s
  | _ => none

/-! ## Maps -/

/-- A map from names to values of one sort. -/
def asMap? {α : Type} (f : Json → Option α) : Json → Option (Std.ExtTreeMap String α)
  | .object ms =>
    ms.foldl (fun m (n, v) => do some ((← m).insert (← n) (← f v))) (some ∅)
  | _ => none

/-! ## Records -/

/-- The members of an object with one of the known names, at most one for each. -/
def knownMembers? (names : List String) (ms : List (Option String × Json)) : Option (List (Option Json)) :=
  if ms.all fun (n, _) => n.isSome then
    names.mapM fun name =>
      match ms.filter fun (n, _) => n == some name with
      | [] => some none
      | [(_, v)] => some (some v)
      | _ => none
  else none

/-- The values of a record with the given names; a value that is not given is missing. With `whole`, an array must
have all of them. -/
def fields? (whole : Bool) (names : List String) : Json → Option (List (Option Json))
  | .object ms => knownMembers? names ms
  | .array xs =>
    if names.length < xs.length ∨ (whole ∧ xs.length < names.length) then none
    else some (xs.map some ++ List.replicate (names.length - xs.length) none)
  | _ => none

/-- A value of a record that has a default if it is missing. -/
def orDefault {α : Type} (default : α) (f : Json → Option α) : Option Json → Option α
  | none => some default
  | some v => f v

end Rota.Json
