import Rota.Json.Basic
import Rota.Json.Literal

/-!
# Reading JSON

`Json.parse` reads one value with blanks around it. The readers of values, items and members call each other on ever
shorter texts, so a number that starts at the length of the text bounds the depth of their calls.
-/

namespace Rota.Json

/-- The characters that may stand between the parts of a value. -/
def isSpace (c : Char) : Bool := c == ' ' || c == '\t' || c == '\n' || c == '\r'

def skipSpace (cs : List Char) : List Char := cs.dropWhile isSpace

/-! ## Numbers -/

/-- A non-empty run of digits. -/
def readDigits (cs : List Char) : Option (List Char × List Char) :=
  if cs.takeWhile Char.isDigit = [] then none else some (cs.takeWhile Char.isDigit, cs.dropWhile Char.isDigit)

/-- The digits in front of the point: no zero stands before another digit. -/
def readWhole : List Char → Option (List Char × List Char)
  | '0' :: r => some (['0'], r)
  | cs => readDigits cs

/-- The decimals, if there is a point. -/
def readDecimals : List Char → Option (List Char × List Char)
  | '.' :: r => (readDigits r).map fun (ds, r) => ('.' :: ds, r)
  | cs => some ([], cs)

/-- The exponent, if there is one. -/
def readExponent : List Char → Option (List Char × List Char)
  | e :: r =>
    if e = 'e' ∨ e = 'E' then
      match r with
      | s :: r' =>
        if s = '+' ∨ s = '-' then (readDigits r').map fun (ds, r) => (e :: s :: ds, r)
        else (readDigits r).map fun (ds, r) => (e :: ds, r)
      | [] => none
    else some ([], e :: r)
  | [] => some ([], [])

/-- A number without its sign. -/
def readUnsigned (cs : List Char) : Option (List Char × List Char) := do
  let (w, r) ← readWhole cs
  let (d, r) ← readDecimals r
  let (e, r) ← readExponent r
  some (w ++ d ++ e, r)

/-- A number as it is written. -/
def readNumber : List Char → Option (List Char × List Char)
  | '-' :: r => (readUnsigned r).map fun (n, r) => ('-' :: n, r)
  | cs => readUnsigned cs

/-! ## Values -/

/-- One given character behind blanks. -/
def readMark (c : Char) (cs : List Char) : Option (List Char) :=
  match skipSpace cs with
  | d :: r => if d = c then some r else none
  | [] => none

mutual

/-- A value without blanks in front. -/
def readValue : Nat → List Char → Option (Json × List Char)
  | 0, _ => none
  | _ + 1, 'n' :: 'u' :: 'l' :: 'l' :: r => some (.null, r)
  | _ + 1, 't' :: 'r' :: 'u' :: 'e' :: r => some (.bool true, r)
  | _ + 1, 'f' :: 'a' :: 'l' :: 's' :: 'e' :: r => some (.bool false, r)
  | _ + 1, '"' :: r => (readLiteral r).map fun (s, r) => (.string s, r)
  | n + 1, '[' :: r =>
    match readMark ']' r with
    | some r => some (.array [], r)
    | none => (readItems n r).map fun (xs, r) => (.array xs, r)
  | n + 1, '{' :: r =>
    match readMark '}' r with
    | some r => some (.object [], r)
    | none => (readMembers n r).map fun (ms, r) => (.object ms, r)
  | _ + 1, cs => (readNumber cs).map fun (ds, r) => (.number ds, r)

/-- The items of an array up to its closing bracket. -/
def readItems : Nat → List Char → Option (List Json × List Char)
  | 0, _ => none
  | n + 1, cs => do
    let (x, r) ← readValue n (skipSpace cs)
    match readMark ']' r with
    | some r => some ([x], r)
    | none =>
      let r ← readMark ',' r
      let (xs, r) ← readItems n r
      some (x :: xs, r)

/-- The members of an object up to its closing bracket. -/
def readMembers : Nat → List Char → Option (List (Option String × Json) × List Char)
  | 0, _ => none
  | n + 1, cs => do
    let r ← readMark '"' cs
    let (name, r) ← readLiteral r
    let r ← readMark ':' r
    let (v, r) ← readValue n (skipSpace r)
    match readMark '}' r with
    | some r => some ([(name, v)], r)
    | none =>
      let r ← readMark ',' r
      let (ms, r) ← readMembers n r
      some ((name, v) :: ms, r)

end

/-- The value that a text holds, with blanks around it and nothing else. -/
def parse (s : String) : Option Json :=
  let cs := skipSpace s.toList
  match readValue (cs.length + 1) cs with
  | some (v, r) => if skipSpace r = [] then some v else none
  | none => none

end Rota.Json
