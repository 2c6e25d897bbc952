import Rota.Json.Printer
import Rota.Json.Reader
import Rota.Text.Decimal

/-!
# JSON that is written is read back

A value is `Plain` if its numbers are natural and its strings and names denote texts: this is all that is ever written.

- every character of a literal is read back, escaped or not (`Json.readLiteral_literal`);
- a number is read back up to the character behind it (`Json.readNumber_nat`);
- a plain value is read back whatever stands behind it, if no number goes on there (`Json.Plain.readValue`);
- so the text of a plain value is read as the value (`Json.Plain.parse_render`).

The readers call each other with a bound on the depth. The length of the text is enough of it.
-/

namespace Rota.Json

/-! ## Literals -/

/-- The three ways to write a character: a short escape, a number or the character itself. -/
theorem escape_cases (c : Char) :
    (∃ e, e ≠ 'u' ∧ shortEscape? e = some c ∧ escape c = ['\\', e]) ∨
    (c.toNat < 0x20 ∧ escape c = ['\\', 'u', '0', '0', hexDigit (c.toNat / 16), hexDigit (c.toNat % 16)]) ∨
    (¬ c.toNat < 0x20 ∧ c ≠ '"' ∧ c ≠ '\\' ∧ escape c = [c]) := by
  unfold escape
  split
  case h_8 hquote hslash _ _ _ _ _ =>
    by_cases hlow : c.toNat < 0x20
    · exact .inr (.inl ⟨hlow, if_pos hlow⟩)
    · exact .inr (.inr ⟨hlow, hquote, hslash, if_neg hlow⟩)
  all_goals exact .inl ⟨_, by decide, rfl, rfl⟩

/-- The digits of a control character. -/
theorem hexUnit?_control {n : Nat} (h : n < 0x20) :
    hexUnit? '0' '0' (hexDigit (n / 16)) (hexDigit (n % 16)) = some n := by
  have hall : ∀ n < 0x20, hexUnit? '0' '0' (hexDigit (n / 16)) (hexDigit (n % 16)) = some n := by decide
  exact hall n h

/-- A character is written as one piece, which denotes it. -/
theorem readPieces_escape (c : Char) (r : List Char) :
    ∃ p, readPieces (escape c ++ r) = (readPieces r).map (fun x => (p :: x.1, x.2)) ∧
      ∀ ps, denote? (p :: ps) = (denote? ps).map (c :: ·) := by
  obtain ⟨e, hu, hshort, hc⟩ | ⟨hlow, hc⟩ | ⟨hhigh, hquote, hslash, hc⟩ := escape_cases c <;>
    simp only [hc, List.cons_append, List.nil_append]
  · refine ⟨.char c, ?_, fun _ => rfl⟩
    rw [readPieces.eq_def, Option.map_eq_bind]
    split
    next h => cases h
    next h => cases h
    next h => exact absurd (List.cons.inj (List.cons.inj h).2).1 hu
    next h =>
      obtain ⟨-, h⟩ := List.cons.inj h
      obtain ⟨rfl, rfl⟩ := List.cons.inj h
      rw [hshort]
      rfl
    next hnot h =>
      obtain ⟨rfl, rfl⟩ := List.cons.inj h
      exact (hnot _ _ rfl rfl).elim
  · refine ⟨.unit c.toNat, ?_, fun ps => ?_⟩
    · rw [readPieces, hexUnit?_control hlow, Option.map_eq_bind]
      rfl
    · have hbmp : c.toNat < 0xD800 ∨ 0xDFFF < c.toNat := by omega
      rw [denote?.eq_def]
      exact (if_pos hbmp).trans (by rw [Char.ofNat_toNat])
  · refine ⟨.char c, ?_, fun _ => rfl⟩
    rw [readPieces.eq_def, Option.map_eq_bind]
    split
    next h => cases h
    next h => exact absurd (List.cons.inj h).1 hquote
    next h => exact absurd (List.cons.inj h).1 hslash
    next h => exact absurd (List.cons.inj h).1 hslash
    next h =>
      obtain ⟨rfl, rfl⟩ := List.cons.inj h
      rw [if_neg (not_or.2 ⟨hhigh, hslash⟩)]
      rfl

/-- A text is written as pieces that denote it. -/
theorem readPieces_flatMap_escape (cs r : List Char) :
    ∃ ps, readPieces (cs.flatMap escape ++ '"' :: r) = some (ps, r) ∧ denote? ps = some cs := by
  induction cs with
  | nil => exact ⟨[], rfl, rfl⟩
  | cons c cs ih =>
    obtain ⟨ps, hread, hdenote⟩ := ih
    obtain ⟨p, hp, hc⟩ := readPieces_escape c (cs.flatMap escape ++ '"' :: r)
    refine ⟨p :: ps, ?_, ?_⟩
    · rw [List.flatMap_cons, List.append_assoc, hp, hread]
      rfl
    · rw [hc, hdenote]
      rfl

theorem literal_append (s : String) (r : List Char) :
    literal s ++ r = '"' :: (s.toList.flatMap escape ++ '"' :: r) := by
  simp [literal]

/-- What is written between the quotes is read back. -/
theorem readLiteral_literal (s : String) (r : List Char) :
    readLiteral (s.toList.flatMap escape ++ '"' :: r) = some (some s, r) := by
  obtain ⟨ps, hread, hdenote⟩ := readPieces_flatMap_escape s.toList r
  rw [readLiteral, hread]
  show some ((denote? ps).map String.ofList, r) = _
  rw [hdenote, Option.map_some, String.ofList_toList]

/-! ## Numbers -/

/-- No number goes on here. -/
def Ends (r : List Char) : Prop := ∀ c ∈ r.head?, c.isDigit = false ∧ c ≠ '.' ∧ c ≠ 'e' ∧ c ≠ 'E'

theorem ends_nil : Ends [] := fun _ h => by cases h

theorem ends_cons {c : Char} (r : List Char) (h : c.isDigit = false ∧ c ≠ '.' ∧ c ≠ 'e' ∧ c ≠ 'E') : Ends (c :: r) := by
  intro d hd
  obtain rfl := Option.some.inj hd
  exact h

section Numbers

variable {r : List Char} (hr : Ends r)
include hr

theorem readDigits_append {ds : List Char} (hne : ds ≠ []) (hds : ∀ d ∈ ds, d.isDigit = true) :
    readDigits (ds ++ r) = some (ds, r) := by
  have hrest : r.takeWhile Char.isDigit = [] ∧ r.dropWhile Char.isDigit = r := by
    cases r with
    | nil => exact ⟨rfl, rfl⟩
    | cons c r => simp [(hr c rfl).1]
  have htake : (ds ++ r).takeWhile Char.isDigit = ds := by
    rw [List.takeWhile_append_of_pos hds, hrest.1, List.append_nil]
  have hdrop : (ds ++ r).dropWhile Char.isDigit = r := by
    rw [List.dropWhile_append_of_pos hds, hrest.2]
  rw [readDigits, htake, hdrop, if_neg hne]

theorem readDecimals_of_ends : readDecimals r = some ([], r) := by
  unfold readDecimals
  split
  next r => exact absurd rfl (hr '.' rfl).2.1
  next => rfl

theorem readExponent_of_ends : readExponent r = some ([], r) := by
  unfold readExponent
  split
  next e r => exact if_neg (not_or.2 (hr e rfl).2.2)
  next => rfl

theorem readWhole_nat (n : Nat) : readWhole ((toString n).toList ++ r) = some ((toString n).toList, r) := by
  unfold readWhole
  split
  next cs h =>
    obtain ⟨c, ds, hds⟩ := List.exists_cons_of_ne_nil (Text.decimal_ne_nil n)
    rw [hds, List.cons_append] at h
    obtain ⟨rfl, rfl⟩ := List.cons.inj h
    rw [hds, Text.eq_nil_of_decimal_eq_zero_cons hds]
    rfl
  next => exact readDigits_append hr (Text.decimal_ne_nil n) fun d hd => Text.isDigit_of_mem_decimal hd

/-- What is written of a number is read back. -/
theorem readNumber_nat (n : Nat) : readNumber ((toString n).toList ++ r) = some ((toString n).toList, r) := by
  unfold readNumber
  split
  next cs h =>
    obtain ⟨c, ds, hds⟩ := List.exists_cons_of_ne_nil (Text.decimal_ne_nil n)
    rw [hds, List.cons_append] at h
    rw [(List.cons.inj h).1] at hds
    exact absurd (hds ▸ List.mem_cons_self) (Text.dash_not_mem_decimal n)
  next =>
    rw [readUnsigned, readWhole_nat hr]
    simp only [Option.bind_eq_bind, Option.bind_some, readDecimals_of_ends hr, readExponent_of_ends hr,
      List.append_nil]

end Numbers

/-! ## Values -/

/-- A value whose numbers are natural and whose strings and names denote texts. -/
inductive Plain : Json → Prop
  | null : Plain .null
  | bool (b : Bool) : Plain (.bool b)
  | nat (n : Nat) : Plain (nat n)
  | text (s : String) : Plain (text s)
  | array {xs : List Json} : (∀ x ∈ xs, Plain x) → Plain (.array xs)
  | members {ms : List (String × Json)} : (∀ m ∈ ms, Plain m.2) → Plain (ofMembers ms)

/-- How a value may begin. -/
def Begins (cs : List Char) : Prop := ∃ c r, cs = c :: r ∧ isSpace c = false ∧ c ≠ ']' ∧ c ≠ '}'

theorem Begins.append {cs : List Char} (h : Begins cs) (r : List Char) : Begins (cs ++ r) := by
  obtain ⟨c, cs, rfl, hc⟩ := h
  exact ⟨c, cs ++ r, rfl, hc⟩

theorem Begins.skipSpace {cs : List Char} (h : Begins cs) : skipSpace cs = cs := by
  obtain ⟨c, cs, rfl, hc, -⟩ := h
  exact List.dropWhile_cons_of_neg (by simp [hc])

theorem Begins.readMark {cs : List Char} (h : Begins cs) {c : Char} (hc : c = ']' ∨ c = '}') :
    readMark c cs = none := by
  unfold Json.readMark
  rw [h.skipSpace]
  obtain ⟨d, cs, rfl, -, hbracket, hbrace⟩ := h
  rcases hc with rfl | rfl
  · exact if_neg hbracket
  · exact if_neg hbrace

theorem readMark_self {c : Char} (hc : isSpace c = false) (r : List Char) : readMark c (c :: r) = some r := by
  rw [readMark, skipSpace, List.dropWhile_cons_of_neg (by simp [hc])]
  exact if_pos rfl

theorem begins_literal (s : String) : Begins (literal s) := ⟨'"', _, rfl, by decide⟩

theorem Plain.begins {v : Json} (h : Plain v) : Begins (print v) := by
  cases h with
  | null => exact ⟨'n', _, rfl, by decide⟩
  | bool b => cases b <;> exact ⟨_, _, rfl, by decide⟩
  | nat n =>
    obtain ⟨d, ds, hds⟩ := List.exists_cons_of_ne_nil (Text.decimal_ne_nil n)
    have hd : d.isDigit = true := Text.isDigit_of_mem_decimal (hds ▸ List.mem_cons_self)
    refine ⟨d, ds, hds, ?_, ?_, ?_⟩
    · rw [Bool.eq_false_iff]
      intro hspace
      simp only [isSpace, Bool.or_eq_true, beq_iff_eq] at hspace
      rcases hspace with ((rfl | rfl) | rfl) | rfl <;> exact absurd hd (by decide)
    · rintro rfl
      exact absurd hd (by decide)
    · rintro rfl
      exact absurd hd (by decide)
  | text s => exact begins_literal s
  | array _ => exact ⟨'[', _, rfl, by decide⟩
  | members _ => exact ⟨'{', _, rfl, by decide⟩

/-- A value that is read back, whatever stands behind it. -/
def ReadBack (v : Json) : Prop :=
  ∀ ⦃n : Nat⦄ ⦃r : List Char⦄, (print v).length ≤ n → Ends r → readValue (n + 1) (print v ++ r) = some (v, r)

theorem readBack_nat (n : Nat) : ReadBack (nat n) := by
  intro m r _ hr
  have hnumber := readNumber_nat hr n
  show readValue (m + 1) ((toString n).toList ++ r) = _
  obtain ⟨d, ds, hds⟩ := List.exists_cons_of_ne_nil (Text.decimal_ne_nil n)
  have hd : d.isDigit = true := Text.isDigit_of_mem_decimal (hds ▸ List.mem_cons_self)
  have hother : ∀ {c : Char}, d = c → c.isDigit = true := fun h => h ▸ hd
  rw [hds, List.cons_append] at hnumber ⊢
  -- A digit begins no other value.
  rw [readValue.eq_def]
  split
  case h_8 heq =>
    rw [hnumber, nat, hds]
    rfl
  all_goals
    rename_i h
    first
    | exact absurd (hother (List.cons.inj h).1) (by decide)
    | cases h

/-! ### Items and members -/

/-- What follows a value among others. -/
theorem ends_of_separator {c : Char} (hc : c = ',' ∨ c = ']' ∨ c = '}') (r : List Char) : Ends (c :: r) := by
  rcases hc with rfl | rfl | rfl <;> exact ends_cons r (by decide)

theorem readMark_of_ne {c d : Char} (hd : isSpace d = false) (h : d ≠ c) (r : List Char) :
    readMark c (d :: r) = none := by
  rw [readMark, skipSpace, List.dropWhile_cons_of_neg (by simp [hd])]
  exact if_neg h

/-- Items are read back one by one. -/
theorem readItems_printItems {xs : List Json} (hne : xs ≠ []) (hplain : ∀ x ∈ xs, Plain x) (hxs : ∀ x ∈ xs, ReadBack x)
    {n : Nat} (hn : (printItems xs).length ≤ n) (r : List Char) :
    readItems (n + 2) (printItems xs ++ ']' :: r) = some (xs, r) := by
  induction xs generalizing n with
  | nil => exact absurd rfl hne
  | cons x xs ih =>
    have hx := hxs x List.mem_cons_self
    have hbegins := (hplain x List.mem_cons_self).begins
    cases xs with
    | nil =>
      have hvalue := hx hn (ends_of_separator (.inr (.inl rfl)) r)
      show readItems (n + 1 + 1) (print x ++ ']' :: r) = _
      rw [readItems, (hbegins.append _).skipSpace, hvalue]
      simp only [Option.bind_eq_bind, Option.bind_some, readMark_self (show isSpace ']' = false by decide)]
    | cons y ys =>
      have hlength : (print x).length + 1 + (printItems (y :: ys)).length ≤ n := by
        simp only [printItems, List.length_append, List.length_cons] at hn
        omega
      have hvalue := hx (show (print x).length ≤ n by omega) (ends_of_separator (.inl rfl)
        (printItems (y :: ys) ++ ']' :: r))
      obtain ⟨n, rfl⟩ := Nat.exists_eq_add_of_le' (show 1 ≤ n by omega)
      have hrest := ih (by simp) (fun x hx => hplain x (List.mem_cons_of_mem _ hx))
        (fun x hx => hxs x (List.mem_cons_of_mem _ hx)) (show (printItems (y :: ys)).length ≤ n by omega)
      have hprint : printItems (x :: y :: ys) ++ ']' :: r = print x ++ ',' :: (printItems (y :: ys) ++ ']' :: r) := by
        simp [printItems]
      rw [hprint, readItems, (hbegins.append _).skipSpace, hvalue]
      simp only [Option.bind_eq_bind, Option.bind_some, readMark_of_ne (show isSpace ',' = false by decide)
        (show ',' ≠ ']' by decide), readMark_self (show isSpace ',' = false by decide), hrest]

/-- The members of a written object. -/
abbrev named (ms : List (String × Json)) : List (Option String × Json) := ms.map fun (n, v) => (some n, v)

/-- Members are read back one by one. -/
theorem readMembers_printMembers {ms : List (String × Json)} (hne : ms ≠ []) (hplain : ∀ m ∈ ms, Plain m.2)
    (hms : ∀ m ∈ ms, ReadBack m.2) {n : Nat} (hn : (printMembers (named ms)).length ≤ n) (r : List Char) :
    readMembers (n + 2) (printMembers (named ms) ++ '}' :: r) = some (named ms, r) := by
  have hquote : isSpace '"' = false := by decide
  have hcolon : isSpace ':' = false := by decide
  induction ms generalizing n with
  | nil => exact absurd rfl hne
  | cons m ms ih =>
    obtain ⟨name, v⟩ := m
    have hv := hms (name, v) List.mem_cons_self
    have hbegins := (hplain (name, v) List.mem_cons_self).begins
    cases ms with
    | nil =>
      have hlength : (print v).length ≤ n := by
        simp only [named, List.map_cons, List.map_nil, printMembers, List.length_append, List.length_cons] at hn
        omega
      have hprint : printMembers (named [(name, v)]) ++ '}' :: r =
          '"' :: (name.toList.flatMap escape ++ '"' :: ':' :: (print v ++ '}' :: r)) := by
        simp [printMembers, literal]
      have hvalue := hv hlength (ends_of_separator (.inr (.inr rfl)) r)
      rw [hprint, readMembers]
      simp only [Option.bind_eq_bind, Option.bind_some, readMark_self hquote, readLiteral_literal, readMark_self hcolon,
        (hbegins.append _).skipSpace, hvalue, readMark_self (show isSpace '}' = false by decide)]
      rfl
    | cons m ms =>
      have hlength : (print v).length + 1 + (printMembers (named (m :: ms))).length ≤ n := by
        simp only [named, List.map_cons, printMembers, List.length_append, List.length_cons] at hn ⊢
        omega
      have hprint : printMembers (named ((name, v) :: m :: ms)) ++ '}' :: r = '"' :: (name.toList.flatMap escape ++
          '"' :: ':' :: (print v ++ ',' :: (printMembers (named (m :: ms)) ++ '}' :: r))) := by
        simp [printMembers, literal]
      have hvalue := hv (show (print v).length ≤ n by omega) (ends_of_separator (.inl rfl)
        (printMembers (named (m :: ms)) ++ '}' :: r))
      obtain ⟨n, rfl⟩ := Nat.exists_eq_add_of_le' (show 1 ≤ n by omega)
      have hrest := ih (by simp) (fun m hm => hplain m (List.mem_cons_of_mem _ hm))
        (fun m hm => hms m (List.mem_cons_of_mem _ hm)) (show (printMembers (named (m :: ms))).length ≤ n by omega)
      rw [hprint, readMembers]
      simp only [Option.bind_eq_bind, Option.bind_some, readMark_self hquote, readLiteral_literal, readMark_self hcolon,
        (hbegins.append _).skipSpace, hvalue, readMark_of_ne (show isSpace ',' = false by decide)
          (show ',' ≠ '}' by decide), readMark_self (show isSpace ',' = false by decide), hrest]
      rfl

theorem begins_printItems {xs : List Json} (hne : xs ≠ []) (hplain : ∀ x ∈ xs, Plain x) : Begins (printItems xs) := by
  cases xs with
  | nil => exact absurd rfl hne
  | cons x xs =>
    have hx := (hplain x List.mem_cons_self).begins
    cases xs with
    | nil => exact hx
    | cons y ys => exact hx.append _

theorem begins_printMembers {ms : List (String × Json)} (hne : ms ≠ []) : Begins (printMembers (named ms)) := by
  cases ms with
  | nil => exact absurd rfl hne
  | cons m ms =>
    cases ms with
    | nil => exact (begins_literal m.1).append _
    | cons _ _ => exact ((begins_literal m.1).append _).append _

theorem readBack_array {xs : List Json} (hplain : ∀ x ∈ xs, Plain x) (hxs : ∀ x ∈ xs, ReadBack x) :
    ReadBack (.array xs) := by
  intro n r hn _
  have hprint : print (.array xs) ++ r = '[' :: (printItems xs ++ ']' :: r) := by simp [print]
  rw [hprint, readValue]
  by_cases hne : xs = []
  · subst hne
    rw [printItems, List.nil_append, readMark_self (by decide)]
  · rw [((begins_printItems hne hplain).append _).readMark (.inl rfl)]
    have hlength : (printItems xs).length + 2 ≤ n := by
      simp only [print, List.cons_append, List.length_cons, List.length_append, List.length_nil] at hn
      omega
    obtain ⟨n, rfl⟩ := Nat.exists_eq_add_of_le' (show 2 ≤ n by omega)
    rw [readItems_printItems hne hplain hxs (show _ ≤ n by omega)]
    rfl

theorem readBack_members {ms : List (String × Json)} (hplain : ∀ m ∈ ms, Plain m.2) (hms : ∀ m ∈ ms, ReadBack m.2) :
    ReadBack (ofMembers ms) := by
  intro n r hn _
  have hprint : print (ofMembers ms) ++ r = '{' :: (printMembers (named ms) ++ '}' :: r) := by simp [print, ofMembers]
  rw [hprint, readValue]
  by_cases hne : ms = []
  · subst hne
    rw [named, List.map_nil, printMembers, List.nil_append, readMark_self (by decide)]
    rfl
  · rw [((begins_printMembers hne).append _).readMark (.inr rfl)]
    have hlength : (printMembers (named ms)).length + 2 ≤ n := by
      change (print (.object (named ms))).length ≤ n at hn
      simp only [print, List.cons_append, List.length_cons, List.length_append, List.length_nil] at hn
      omega
    obtain ⟨n, rfl⟩ := Nat.exists_eq_add_of_le' (show 2 ≤ n by omega)
    rw [readMembers_printMembers hne hplain hms (show _ ≤ n by omega)]
    rfl

/-! ## Texts -/

namespace Plain

variable {v : Json}

/-- A plain value is read back, whatever stands behind it. -/
theorem readBack (h : Plain v) : ReadBack v := by
  induction h with
  | null => exact fun _ _ _ _ => rfl
  | bool b => cases b <;> exact fun _ _ _ _ => rfl
  | nat n => exact readBack_nat n
  | text s =>
    intro n r _ _
    have hprint : print (Json.text s) ++ r = '"' :: (s.toList.flatMap escape ++ '"' :: r) := literal_append s r
    rw [hprint, readValue, readLiteral_literal]
    rfl
  | array hplain ih => exact readBack_array hplain ih
  | members hplain ih => exact readBack_members hplain ih

/-- The text of a plain value holds the value. -/
theorem parse_render (h : Plain v) : parse (render v) = some v := by
  have hread := h.readBack (Nat.le_refl _) ends_nil
  rw [List.append_nil] at hread
  have hskip := h.begins.skipSpace
  simp only [parse, render, String.toList_ofList, hskip, hread]
  rfl

end Plain

end Rota.Json
