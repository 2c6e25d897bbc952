import Rota.Json.Basic
import Rota.Json.Literal

/-!
# Writing JSON

`Json.render` writes a value without blanks. A string that denotes no text is written as an empty one.
-/

namespace Rota.Json

mutual

/-- The characters of a value. -/
def print : Json → List Char
  | .null => ['n', 'u', 'l', 'l']
  | .bool true => ['t', 'r', 'u', 'e']
  | .bool false => ['f', 'a', 'l', 's', 'e']
  | .number ds => ds
  | .string s => literal (s.getD "")
  | .array xs => '[' :: printItems xs ++ [']']
  | .object ms => '{' :: printMembers ms ++ ['}']

def printItems : List Json → List Char
  | [] => []
  | [x] => print x
  | x :: xs => print x ++ ',' :: printItems xs

def printMembers : List (Option String × Json) → List Char
  | [] => []
  | [(n, v)] => literal (n.getD "") ++ ':' :: print v
  | (n, v) :: ms => literal (n.getD "") ++ ':' :: print v ++ ',' :: printMembers ms

end

def render (v : Json) : String := String.ofList (print v)

end Rota.Json
