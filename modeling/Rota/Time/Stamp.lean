import Rota.Text.Blank
import Rota.Text.Decimal
import Rota.Time.Calendar
import Rota.Time.Instant

/-!
# Time stamps as text

A `Stamp` is a point in time as a text such as `2016-12-31T23:59:60.500Z` names it. Unlike an instant it can lie in a
leap second, which is counted as the second before it with a billion nanoseconds more. Stamps are written in UTC; they
are read with any offset, with blanks in front of numbers and marks, and with fewer digits than are written.
-/

namespace Rota

/-- A second since the start of 1970 and the nanoseconds since its start, a billion or more of them in a leap second.
-/
structure Stamp where
  second : Int
  nanos : Nat
deriving DecidableEq, Inhabited

namespace Stamp

def ofInstant (t : Instant) : Stamp := ⟨t.second, t.subsecond⟩

/-! ## Writing -/

/-- A year: four digits, or a sign and at least four digits outside the years 0 to 9999. -/
def yearText (y : Int) : String :=
  if 0 ≤ y ∧ y ≤ 9999 then Text.padded 4 y.toNat
  else (if y < 0 then "-" else "+") ++ Text.padded 4 y.natAbs

/-- Nanoseconds as no, three, six or nine decimals, as few as are exact. -/
def decimals (nanos : Nat) : String :=
  if nanos = 0 then ""
  else if nanos % 1000000 = 0 then "." ++ Text.padded 3 (nanos / 1000000)
  else if nanos % 1000 = 0 then "." ++ Text.padded 6 (nanos / 1000)
  else "." ++ Text.padded 9 nanos

def text (s : Stamp) : String :=
  let m := Moment.ofSecond s.second
  let leap := if nanosPerSecond ≤ s.nanos then 1 else 0
  yearText m.date.year ++ "-" ++ Text.padded 2 m.date.month ++ "-" ++ Text.padded 2 m.date.day ++ "T" ++
    Text.padded 2 m.hour ++ ":" ++ Text.padded 2 m.minute ++ ":" ++ Text.padded 2 (m.second + leap) ++
    decimals (s.nanos % nanosPerSecond) ++ "Z"

/-! ## Reading -/

def skipBlank (cs : List Char) : List Char := cs.dropWhile Text.isBlank

/-- A number of one to `width` digits. -/
def readNumber (width : Nat) (cs : List Char) : Option (Nat × List Char) :=
  let ds := (cs.takeWhile Char.isDigit).take width
  if ds = [] then none else some (Text.digitsValue ds, cs.drop ds.length)

/-- A number behind blanks. -/
def readPart (width : Nat) (cs : List Char) : Option (Nat × List Char) := readNumber width (skipBlank cs)

/-- A year: four digits, or a sign and any number of digits. -/
def readYear (cs : List Char) : Option (Int × List Char) :=
  match skipBlank cs with
  | '-' :: r => (readNumber r.length r).map fun (n, r) => (-(n : Int), r)
  | '+' :: r => (readNumber r.length r).map fun (n, r) => ((n : Int), r)
  | cs => (readNumber 4 cs).map fun (n, r) => ((n : Int), r)

/-- A given mark behind blanks. -/
def readMark (c : Char) (cs : List Char) : Option (List Char) :=
  match skipBlank cs with
  | d :: r => if d = c then some r else none
  | [] => none

/-- Nanoseconds as the decimals behind a point, of which the first nine count; none without a point. -/
def readDecimals : List Char → Option (Nat × List Char)
  | '.' :: r => (readNumber 9 r).map fun (n, r') =>
    (n * Nat.pow 10 (9 - (r.length - r'.length)), r'.dropWhile Char.isDigit)
  | cs => some (0, cs)

/-- Two digits, the first of them at most `tens`. -/
def readTwo (tens : Nat) : List Char → Option (Nat × List Char)
  | a :: b :: r =>
    if a.isDigit ∧ b.isDigit ∧ a.toNat - 48 ≤ tens then some (Text.digitsValue [a, b], r) else none
  | _ => none

/-- An offset from UTC in seconds: a sign, hours and minutes. -/
def readSigned : List Char → Option (Int × List Char)
  | sign :: r =>
    if sign = '+' ∨ sign = '-' ∨ sign = '−' then do
      let (h, r) ← readTwo 9 r
      let (m, r) ← readTwo 5 (r.dropWhile fun c => c == ':' || Text.isBlank c)
      some ((if sign = '+' then 1 else -1) * ((h * 3600 + m * 60 : Nat) : Int), r)
    else none
  | [] => none

/-- An offset from UTC in seconds: a letter Z or the word UTC for none, else a sign, hours and minutes. -/
def readOffset : List Char → Option (Int × List Char)
  | 'Z' :: r => some (0, r)
  | 'z' :: r => some (0, r)
  | cs =>
    if (cs.take 3).map Char.toUpper = ['U', 'T', 'C'] then some (0, cs.drop 3) else readSigned cs

/-- The day with a year, a month and a day of month, if the calendar has it. -/
def date? (year : Int) (month day : Nat) : Option Date :=
  if 1 ≤ month ∧ month ≤ 12 ∧ 1 ≤ day ∧ day ≤ monthLength year month then some ⟨year, month, day⟩ else none

/-- A second that lies in the calendar. -/
def inCalendar (s : Int) : Bool := decide (Instant.earliest.second ≤ s ∧ s ≤ Instant.lastSecond)

/-- The stamp that a text names. Both the local and the universal time lie in the calendar. -/
def ofText? (s : String) : Option Stamp := do
  let (year, r) ← readYear s.toList
  let (month, r) ← readPart 2 (← readMark '-' r)
  let (day, r) ← readPart 2 (← readMark '-' r)
  let r ← match r with
    | c :: r => if c = 'T' ∨ c = 't' ∨ c = ' ' then some r else none
    | [] => none
  let (hour, r) ← readPart 2 r
  let (minute, r) ← readPart 2 (← readMark ':' r)
  let (second, r) ← readPart 2 (← readMark ':' r)
  let (nanos, r) ← readDecimals r
  let (offset, r) ← readOffset (skipBlank r)
  let date ← date? year month day
  if skipBlank r = [] ∧ hour < 24 ∧ minute < 60 ∧ second ≤ 60 ∧ offset.natAbs < 86400 then
    let leap := if second = 60 then 1 else 0
    let here := (Moment.mk date hour minute (second - leap)).toSecond
    if inCalendar here ∧ inCalendar (here - offset) then some ⟨here - offset, leap * nanosPerSecond + nanos⟩ else none
  else none

example : (ofText? "2024-02-29T12:30:15.5Z").map text = some "2024-02-29T12:30:15.500Z" := by decide
example : (ofText? "2024-03-10 20:30:00-03:30").map text = some "2024-03-11T00:00:00Z" := by decide
example : (ofText? "2016-12-31T23:59:60Z").map text = some "2016-12-31T23:59:60Z" := by decide
example : ofText? "2023-02-29T00:00:00Z" = none := by decide

end Stamp

end Rota
