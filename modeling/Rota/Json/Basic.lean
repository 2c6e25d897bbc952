/-!
# JSON values

A JSON value as it is written: numbers keep their digits, objects keep the order of their members and members of one
name. A string literal may escape a surrogate that has no partner; it is well formed but denotes no text.
-/

namespace Rota

/-- A JSON value. The text of a string or of a member's name is missing if the literal denotes none. -/
inductive Json
  | null
  | bool (b : Bool)
  | number (digits : List Char)
  | string (s : Option String)
  | array (items : List Json)
  | object (members : List (Option String × Json))
deriving Inhabited

namespace Json

def text (s : String) : Json := .string (some s)

def nat (n : Nat) : Json := .number (toString n).toList

/-- An object with the given members. -/
def ofMembers (ms : List (String × Json)) : Json := .object (ms.map fun (n, v) => (some n, v))

/-- A value that may be missing. -/
def ofOption {α : Type} (f : α → Json) : Option α → Json
  | none => .null
  | some a => f a

/-- The last member of an object with a name. -/
def member? (name : String) : Json → Option Json
  | .object ms => (ms.reverse.find? fun (n, _) => n == some name).map Prod.snd
  | _ => none

end Json

end Rota
