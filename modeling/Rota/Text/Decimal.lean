/-!
# Decimal numbers in text

Numbers are written with ASCII digits. `digitsValue` reads a run of digits of any length, `byte?` a number up to 255
that may have a plus sign, and `padded` writes a number with leading zeros up to a width.

- a number that is written is read back (`Text.digits?_decimal`), so that different numbers are written differently
  (`Text.decimal_injective`);
- it has no zero in front of another digit (`Text.eq_nil_of_decimal_eq_zero_cons`).
-/

namespace Rota.Text

/-- The number that a run of digits denotes. -/
def digitsValue (cs : List Char) : Nat := cs.foldl (fun n c => 10 * n + (c.toNat - 48)) 0

/-- A non-empty run of digits and nothing else. -/
def digits? (cs : List Char) : Option Nat :=
  if cs ≠ [] ∧ cs.all Char.isDigit then some (digitsValue cs) else none

/-- A number from 0 to 255, with an optional plus sign. -/
def byte? (cs : List Char) : Option Nat :=
  (digits? (match cs with | '+' :: r => r | _ => cs)).filter (· ≤ 255)

/-- The decimal digits of a number, with zeros in front up to a width. -/
def padded (width n : Nat) : String := String.ofList ((toString n).toList.leftpad width '0')

/-- A fraction of the given number of decimals, without zeros at its end; nothing for zero. -/
def fraction (decimals n : Nat) : String :=
  if n = 0 then ""
  else "." ++ String.ofList (((padded decimals n).toList.reverse.dropWhile (· == '0')).reverse)

/-! ## Written numbers -/

/-- Without a sign, the digits are the whole text. -/
theorem byte?_of_head {cs : List Char} (h : ∀ r, cs ≠ '+' :: r) : byte? cs = (digits? cs).filter (· ≤ 255) := by
  rw [byte?]
  exact h

/-- A text of digits is read as a number of 8 bits if it has no more. -/
theorem byte?_of_digits {cs : List Char} (hne : cs ≠ []) (h : ∀ c ∈ cs, c.isDigit = true) :
    byte? cs = if digitsValue cs ≤ 255 then some (digitsValue cs) else none := by
  have hread : digits? cs = some (digitsValue cs) := if_pos ⟨hne, List.all_eq_true.2 h⟩
  rw [byte?_of_head, hread]
  · simp only [Option.filter_some, decide_eq_true_eq]
  · rintro r rfl
    exact absurd (h '+' List.mem_cons_self) (by decide)

variable {n m : Nat} {cs : List Char}

theorem toList_decimal (n : Nat) : (toString n).toList = Nat.toDigits 10 n := by
  rw [Nat.toString_eq_ofList_toDigits, String.toList_ofList]

theorem isDigit_of_mem_decimal {c : Char} (h : c ∈ (toString n).toList) : c.isDigit = true :=
  Nat.isDigit_of_mem_toDigits (by decide) (by decide) (toList_decimal n ▸ h)

theorem decimal_ne_nil (n : Nat) : (toString n).toList ≠ [] := by
  rw [toList_decimal]
  exact Nat.toDigits_ne_nil

theorem dash_not_mem_decimal (n : Nat) : '-' ∉ (toString n).toList :=
  fun h => absurd (isDigit_of_mem_decimal h) (by decide)

theorem digitsValue_eq (cs : List Char) : digitsValue cs = Nat.ofDigitChars 10 cs 0 := rfl

/-- What is written is read back. -/
theorem digits?_decimal (n : Nat) : digits? (toString n).toList = some n := by
  have hdigits : (toString n).toList.all Char.isDigit = true :=
    List.all_eq_true.2 fun c hc => isDigit_of_mem_decimal hc
  rw [digits?, if_pos ⟨decimal_ne_nil n, hdigits⟩, digitsValue_eq, toList_decimal, Nat.ofDigitChars_ten_toDigits]

theorem decimal_injective (h : (toString m).toList = (toString n).toList) : m = n :=
  Option.some.inj ((digits?_decimal m).symm.trans ((congrArg digits? h).trans (digits?_decimal n)))

theorem eq_zero_of_toDigits_eq_zero_cons (h : Nat.toDigits 10 n = '0' :: cs) : n = 0 := by
  induction n using Nat.strongRecOn generalizing cs with
  | ind n ih =>
    rw [Nat.toDigits_eq_if (by decide)] at h
    split at h
    next hlt =>
      have hzero : ∀ d < 10, Nat.digitChar d = '0' → d = 0 := by decide
      exact hzero n hlt (List.cons.inj h).1
    next hge =>
      obtain ⟨c, ds, hds⟩ := List.exists_cons_of_ne_nil (Nat.toDigits_ne_nil (n := n / 10) (b := 10))
      rw [hds, List.cons_append] at h
      rw [(List.cons.inj h).1] at hds
      have := ih (n / 10) (by omega) hds
      omega

/-- No zero stands in front of another digit. -/
theorem eq_nil_of_decimal_eq_zero_cons (h : (toString n).toList = '0' :: cs) : cs = [] := by
  rw [toList_decimal] at h
  rw [eq_zero_of_toDigits_eq_zero_cons h, Nat.toDigits_zero] at h
  exact (List.cons.inj h).2.symm

end Rota.Text
