import Rota.Cron.Field

/-!
# Grammar of cron fields

A reader takes a text and gives what it read together with the rest of the text, or nothing. Choices are ordered and a
choice that succeeded is not taken back. Numbers and names take the gaps around them with them, so fields need no gap
between them.
-/

namespace Rota.Cron

/-- The characters that may separate the parts of an expression. -/
def isGap (c : Char) : Bool := c == ' ' || c == '\t' || c == '\n' || c == '\r'

def skipGap (cs : List Char) : List Char := cs.dropWhile isGap

/-- A non-empty run of characters of one class, with the gaps around it. -/
def readRun (p : Char → Bool) (cs : List Char) : Option (List Char × List Char) :=
  let cs := skipGap cs
  if cs.takeWhile p = [] then none else some (cs.takeWhile p, skipGap (cs.dropWhile p))

/-- A number of at most 32 bits. -/
def readNumber (cs : List Char) : Option (Nat × List Char) :=
  match readRun Char.isDigit cs with
  | some (ds, r) => if Text.digitsValue ds < UInt32.size then some (Text.digitsValue ds, r) else none
  | none => none

def readName (cs : List Char) : Option (List Char × List Char) := readRun Char.isAlpha cs

def readChar (c : Char) : List Char → Option (List Char)
  | d :: r => if d = c then some r else none
  | [] => none

/-- Two parts joined by a dash. -/
def readPair {α : Type} (part : List Char → Option (α × List Char)) (cs : List Char) :
    Option ((α × α) × List Char) := do
  let (a, r) ← part cs
  let r ← readChar '-' r
  let (b, r) ← part r
  some ((a, b), r)

/-- A range: every value, two numbers, a number or two names. With `any`, a question mark also means every value. -/
def readRange (any : Bool) (cs : List Char) : Option (Range × List Char) :=
  let every := match cs with
    | '*' :: r => some (.all, r)
    | '?' :: r => if any then some (.all, r) else none
    | _ => none
  every <|> (readPair readNumber cs).map (fun ((a, b), r) => (.span a b, r))
    <|> (readNumber cs).map (fun (n, r) => (.point n, r))
    <|> (readPair readName cs).map (fun ((a, b), r) => (.names a b, r))

/-- A range and a step joined by a slash. -/
def readEvery (any : Bool) (cs : List Char) : Option (Item × List Char) := do
  let (x, r) ← readRange any cs
  let r ← readChar '/' r
  let (step, r) ← readNumber r
  some (.every x step, r)

/-- One item: a range with a step, a range, or a name. -/
def readItem (any : Bool) (cs : List Char) : Option (Item × List Char) :=
  readEvery any cs
    <|> (readRange any cs).map (fun (x, r) => (.range x, r))
    <|> (readName cs).map (fun (n, r) => (.name n, r))

/-- The further items of a list, each after a comma. A comma with no item after it stays in the rest. The number
bounds the items to be read; a text has fewer commas than characters. -/
def readMore (any : Bool) : Nat → List Char → List Item × List Char
  | 0, cs => ([], cs)
  | n + 1, cs =>
    match (readChar ',' cs).bind (readItem any) with
    | none => ([], cs)
    | some (x, r) =>
      let (xs, r) := readMore any n r
      (x :: xs, r)

/-- A field: items between commas. -/
def readField (any : Bool) (cs : List Char) : Option (List Item × List Char) :=
  (readItem any (skipGap cs)).map fun (x, r) =>
    let (xs, r) := readMore any r.length r
    (x :: xs, skipGap r)

/-- The values of a field. -/
def readValues (f : Field) (any : Bool) (cs : List Char) : Option (List Nat × List Char) := do
  let (items, r) ← readField any cs
  let vs ← values? f items
  some (vs, r)

end Rota.Cron
