/-!
# String literals of JSON

Between its quotes a literal holds characters and escapes. An escape of four hexadecimal digits denotes a UTF-16 unit,
and two units that form a surrogate pair denote one character. Writing escapes quotes, backslashes and control
characters and leaves every other character as it is.
-/

namespace Rota.Json

/-! ## Hexadecimal digits -/

def hexValue? (c : Char) : Option Nat :=
  if '0' ≤ c ∧ c ≤ '9' then some (c.toNat - 48)
  else if 'a' ≤ c ∧ c ≤ 'f' then some (c.toNat - 87)
  else if 'A' ≤ c ∧ c ≤ 'F' then some (c.toNat - 55)
  else none

def hexDigit (n : Nat) : Char := Char.ofNat (if n < 10 then 48 + n else 87 + n)

/-- The number that four hexadecimal digits denote. -/
def hexUnit? (a b c d : Char) : Option Nat := do
  some ((((← hexValue? a) * 16 + (← hexValue? b)) * 16 + (← hexValue? c)) * 16 + (← hexValue? d))

/-! ## Reading -/

/-- What a literal is made of. -/
inductive Piece
  /-- A character, written as it is or by a short escape. -/
  | char (c : Char)
  /-- A UTF-16 unit, written by its number. -/
  | unit (n : Nat)
deriving DecidableEq

/-- The character of a short escape. -/
def shortEscape? : Char → Option Char
  | '"' => some '"'
  | '\\' => some '\\'
  | '/' => some '/'
  | 'b' => some '\x08'
  | 'f' => some '\x0c'
  | 'n' => some '\n'
  | 'r' => some '\r'
  | 't' => some '\t'
  | _ => none

/-- The pieces of a literal up to its closing quote, and the text behind the quote. A control character must be
escaped. -/
def readPieces : List Char → Option (List Piece × List Char)
  | [] => none
  | '"' :: r => some ([], r)
  | '\\' :: 'u' :: a :: b :: c :: d :: r => do
    let n ← hexUnit? a b c d
    let (ps, r) ← readPieces r
    some (.unit n :: ps, r)
  | '\\' :: e :: r => do
    let c ← shortEscape? e
    let (ps, r) ← readPieces r
    some (.char c :: ps, r)
  | c :: r =>
    if c.toNat < 0x20 ∨ c = '\\' then none
    else do
      let (ps, r) ← readPieces r
      some (.char c :: ps, r)

/-- The characters that pieces denote; a surrogate without its partner denotes none. -/
def denote? : List Piece → Option (List Char)
  | [] => some []
  | .char c :: ps => (denote? ps).map (c :: ·)
  | .unit n :: ps =>
    if n < 0xD800 ∨ 0xDFFF < n then (denote? ps).map (Char.ofNat n :: ·)
    else if 0xDC00 ≤ n then none
    else match ps with
      | .unit m :: qs =>
        if 0xDC00 ≤ m ∧ m ≤ 0xDFFF then
          (denote? qs).map (Char.ofNat (0x10000 + (n - 0xD800) * 0x400 + (m - 0xDC00)) :: ·)
        else none
      | _ => none

/-- A literal behind its opening quote: the text it denotes, if any, and the rest. -/
def readLiteral (cs : List Char) : Option (Option String × List Char) :=
  (readPieces cs).map fun (ps, r) => ((denote? ps).map String.ofList, r)

/-! ## Writing -/

/-- The way a character is written inside a literal. -/
def escape (c : Char) : List Char :=
  match c with
  | '"' => ['\\', '"']
  | '\\' => ['\\', '\\']
  | '\x08' => ['\\', 'b']
  | '\x0c' => ['\\', 'f']
  | '\n' => ['\\', 'n']
  | '\r' => ['\\', 'r']
  | '\t' => ['\\', 't']
  | c =>
    if c.toNat < 0x20 then ['\\', 'u', '0', '0', hexDigit (c.toNat / 16), hexDigit (c.toNat % 16)] else [c]

def literal (s : String) : List Char := '"' :: s.toList.flatMap escape ++ ['"']

end Rota.Json
