import Rota.Text.Decimal

/-!
# Fields of a cron expression

An expression has a field for each of second, minute, hour, day of month, month, day of week and year. A field is a
list of `Item`s; an item denotes an arithmetic progression of values, its `Stride`, and a field the union of its
items.
-/

namespace Rota.Cron

/-! ## Limits and names -/

/-- What a field of an expression restricts. -/
inductive Field
  | second | minute | hour | day | month | weekday | year
deriving DecidableEq

namespace Field

def lo : Field → Nat
  | second | minute | hour => 0
  | day | month | weekday => 1
  | year => 1970

def hi : Field → Nat
  | second | minute => 59
  | hour => 23
  | day => 31
  | month => 12
  | weekday => 7
  | year => 2100

def all (f : Field) : List Nat := List.range' f.lo (f.hi + 1 - f.lo)

theorem mem_all {f : Field} {v : Nat} : v ∈ f.all ↔ f.lo ≤ v ∧ v ≤ f.hi := by
  have h : f.lo ≤ f.hi := by cases f <;> decide
  rw [all, List.mem_range'_1]
  omega

/-- The names that stand for values, in lower case; only months and days of the week have names. -/
def names : Field → List (String × Nat)
  | month =>
    [("jan", 1), ("january", 1), ("feb", 2), ("february", 2), ("mar", 3), ("march", 3), ("apr", 4), ("april", 4),
      ("may", 5), ("jun", 6), ("june", 6), ("jul", 7), ("july", 7), ("aug", 8), ("august", 8), ("sep", 9),
      ("september", 9), ("oct", 10), ("october", 10), ("nov", 11), ("november", 11), ("dec", 12), ("december", 12)]
  | weekday =>
    [("sun", 1), ("sunday", 1), ("mon", 2), ("monday", 2), ("tue", 3), ("tues", 3), ("tuesday", 3), ("wed", 4),
      ("wednesday", 4), ("thu", 5), ("thurs", 5), ("thursday", 5), ("fri", 6), ("friday", 6), ("sat", 7),
      ("saturday", 7)]
  | _ => []

/-- The value a name stands for, in any letter case. -/
def named? (f : Field) (name : List Char) : Option Nat := f.names.lookup (String.ofList (name.map Char.toLower))

/-- A number, if the field has it. -/
def within? (f : Field) (n : Nat) : Option Nat := if f.lo ≤ n ∧ n ≤ f.hi then some n else none

end Field

/-! ## Items -/

/-- The part of an item in front of its step. -/
inductive Range
  | all
  | point (n : Nat)
  | span (a b : Nat)
  | names (a b : List Char)
deriving DecidableEq

/-- One item of a field. -/
inductive Item
  | range (r : Range)
  | every (r : Range) (step : Nat)
  | name (n : List Char)
deriving DecidableEq

/-- The values `first`, `first + step`, … up to `last`. -/
structure Stride where
  first : Nat
  last : Nat
  step : Nat
deriving DecidableEq

/-- Whether a stride meets a value. -/
def Stride.meets (s : Stride) (v : Nat) : Bool := s.first ≤ v && v ≤ s.last && (v - s.first) % s.step == 0

/-- The first and the last value of a range; a range that runs backwards or leaves the field has none. -/
def Range.ends? (f : Field) : Range → Option (Nat × Nat)
  | .all => some (f.lo, f.hi)
  | .point n => (f.within? n).map fun n => (n, n)
  | .span a b => do
    let a ← f.within? a
    let b ← f.within? b
    if a ≤ b then some (a, b) else none
  | .names a b => do
    let a ← f.named? a
    let b ← f.named? b
    if a ≤ b then some (a, b) else none

/-- The values an item denotes. A single number with a step runs on to the greatest value of the field; a step is
positive. -/
def Item.stride? (f : Field) : Item → Option Stride
  | .range r => (r.ends? f).map fun (a, b) => ⟨a, b, 1⟩
  | .every r step =>
    if step = 0 then none
    else (r.ends? f).map fun (a, b) => ⟨a, match r with | .point _ => f.hi | _ => b, step⟩
  | .name n => (f.named? n).map fun v => ⟨v, v, 1⟩

/-- The values of a field, in ascending order, if each of its items is valid. -/
def values? (f : Field) (items : List Item) : Option (List Nat) :=
  (items.mapM (Item.stride? f)).map fun ss => f.all.filter fun v => ss.any (·.meets v)

end Rota.Cron
