import Mathlib.Data.List.Basic
import Rota.Cron.Grammar

/-!
# Items as they are written

An item is written as a range with or without a step, or as a name (`Item.Written`). Numbers are written with any number
of digits, but only 32 bits are read (`readNumber_append`, `readNumber_of_le`).

- a range or an item that is written is read as it and up to the gap behind it, unless a dash or a slash goes on there
  (`readRange_append`, `readItem_append`);
- where no item begins, none is read (`readItem_eq_none`).
-/

namespace Rota.Cron

/-! ## Numbers and names -/

/-- A non-empty run of characters of one class. -/
def Token (p : Char → Bool) (cs : List Char) : Prop := cs ≠ [] ∧ ∀ c ∈ cs, p c = true

/-- A number as it is written. -/
def IsNumber (ds : List Char) (n : Nat) : Prop := Token Char.isDigit ds ∧ Text.digitsValue ds = n

theorem isNumber_decimal (n : Nat) : IsNumber (toString n).toList n := by
  refine ⟨⟨Text.decimal_ne_nil n, fun c hc => Text.isDigit_of_mem_decimal hc⟩, ?_⟩
  have hread := Text.digits?_decimal n
  rw [Text.digits?] at hread
  exact Option.some.inj (Option.ite_none_right_eq_some.1 hread).2

/-- Neither a number nor a name goes on here. -/
def Stops (r : List Char) : Prop := ∀ c ∈ r.head?, c.isDigit = false ∧ c.isAlpha = false

/-- A gap is neither a digit nor a letter. -/
theorem of_isGap {c : Char} (h : isGap c = true) : c.isDigit = false ∧ c.isAlpha = false := by
  simp only [isGap, Bool.or_eq_true, beq_iff_eq] at h
  rcases h with ((rfl | rfl) | rfl) | rfl <;> decide

theorem isGap_eq_false_of_isDigit {c : Char} (h : c.isDigit = true) : isGap c = false := by
  rw [Bool.eq_false_iff]
  intro hgap
  rw [(of_isGap hgap).1] at h
  cases h

theorem isGap_eq_false_of_isAlpha {c : Char} (h : c.isAlpha = true) : isGap c = false := by
  rw [Bool.eq_false_iff]
  intro hgap
  rw [(of_isGap hgap).2] at h
  cases h

theorem isDigit_eq_false_of_isAlpha {c : Char} (h : c.isAlpha = true) : c.isDigit = false := by
  rw [Bool.eq_false_iff]
  intro hdigit
  have hnine : c.val ≤ '9'.val := of_decide_eq_true (Bool.and_eq_true_iff.1 hdigit).2
  have hletter : 'A'.val ≤ c.val ∨ 'a'.val ≤ c.val := by
    rcases Bool.or_eq_true_iff.1 h with hupper | hlower
    · exact .inl (of_decide_eq_true hupper).1
    · exact .inr (of_decide_eq_true (Bool.and_eq_true_iff.1 hlower).1)
  have hcodes : 'A'.val.toNat = 65 ∧ 'a'.val.toNat = 97 ∧ '9'.val.toNat = 57 := ⟨rfl, rfl, rfl⟩
  rw [UInt32.le_iff_toNat_le] at hnine
  rw [UInt32.le_iff_toNat_le, UInt32.le_iff_toNat_le] at hletter
  omega

theorem skipGap_of_head {cs : List Char} (h : ∀ c ∈ cs.head?, isGap c = false) : skipGap cs = cs := by
  cases cs with
  | nil => rfl
  | cons c cs => exact List.dropWhile_cons_of_neg (by simp [h c rfl])

theorem skipGap_skipGap (cs : List Char) : skipGap (skipGap cs) = skipGap cs := by
  refine skipGap_of_head fun c hc => ?_
  have := List.head?_dropWhile_not isGap cs
  unfold skipGap at hc
  rw [Option.mem_def] at hc
  rw [hc] at this
  simpa using this

section Runs

variable {p : Char → Bool} {cs r : List Char}

theorem Token.head? (h : Token p cs) {c : Char} (hc : c ∈ (cs ++ r).head?) : p c = true := by
  rw [List.head?_append_of_ne_nil _ h.1] at hc
  exact h.2 c (List.mem_of_mem_head? hc)

theorem readRun_append (hgap : ∀ {c}, p c = true → isGap c = false) (hcs : Token p cs)
    (hr : ∀ c ∈ r.head?, p c = false) : readRun p (cs ++ r) = some (cs, skipGap r) := by
  obtain ⟨hne, hall⟩ := hcs
  have hskip : skipGap (cs ++ r) = cs ++ r :=
    skipGap_of_head fun c hc => hgap (Token.head? ⟨hne, hall⟩ hc)
  have hrest : r.takeWhile p = [] ∧ r.dropWhile p = r := by
    cases r with
    | nil => exact ⟨rfl, rfl⟩
    | cons c r => simp [hr c rfl]
  have htake : (cs ++ r).takeWhile p = cs := by
    rw [List.takeWhile_append_of_pos hall, hrest.1, List.append_nil]
  have hdrop : (cs ++ r).dropWhile p = r := by rw [List.dropWhile_append_of_pos hall, hrest.2]
  simp only [readRun, hskip, htake, hdrop, if_neg hne]

theorem readRun_eq_none (h : ∀ c ∈ cs.head?, p c = false ∧ isGap c = false) : readRun p cs = none := by
  have hskip : skipGap cs = cs := skipGap_of_head fun c hc => (h c hc).2
  have htake : cs.takeWhile p = [] := by
    cases cs with
    | nil => rfl
    | cons c cs => simp [(h c rfl).1]
  simp only [readRun, hskip, htake, if_pos]

theorem readNumber_append {ds : List Char} {n : Nat} (hds : IsNumber ds n) (hn : n < UInt32.size) (hr : Stops r) :
    readNumber (ds ++ r) = some (n, skipGap r) := by
  obtain ⟨htoken, rfl⟩ := hds
  rw [readNumber, readRun_append isGap_eq_false_of_isDigit htoken fun c hc => (hr c hc).1]
  exact if_pos hn

/-- A number of more than 32 bits is not read. -/
theorem readNumber_of_le {ds : List Char} {n : Nat} (hds : IsNumber ds n) (hn : UInt32.size ≤ n) (hr : Stops r) :
    readNumber (ds ++ r) = none := by
  obtain ⟨htoken, rfl⟩ := hds
  rw [readNumber, readRun_append isGap_eq_false_of_isDigit htoken fun c hc => (hr c hc).1]
  exact if_neg (Nat.not_lt.2 hn)

theorem readName_append (hcs : Token Char.isAlpha cs) (hr : Stops r) : readName (cs ++ r) = some (cs, skipGap r) :=
  readRun_append isGap_eq_false_of_isAlpha hcs fun c hc => (hr c hc).2

theorem readNumber_eq_none (h : ∀ c ∈ cs.head?, c.isDigit = false ∧ isGap c = false) : readNumber cs = none := by
  rw [readNumber, readRun_eq_none h]

theorem readChar_eq_none {c : Char} (h : cs.head? ≠ some c) : readChar c cs = none := by
  cases cs with
  | nil => rfl
  | cons d cs => exact if_neg fun heq => h (congrArg some heq)

end Runs

/-! ## Ranges and items -/

/-- How a range is written. With `any`, a question mark may stand for every value. -/
inductive Range.Written (any : Bool) : Range → List Char → Prop
  | star : Written any .all ['*']
  | mark : any = true → Written any .all ['?']
  | point {n : Nat} {ds : List Char} : IsNumber ds n → Written any (.point n) ds
  | span {a b : Nat} {ds es : List Char} : IsNumber ds a → IsNumber es b → Written any (.span a b) (ds ++ '-' :: es)
  | names {as bs : List Char} : Token Char.isAlpha as → Token Char.isAlpha bs →
      Written any (.names as bs) (as ++ '-' :: bs)

/-- How an item is written. -/
inductive Item.Written (any : Bool) : Item → List Char → Prop
  | range {x : Range} {cs : List Char} : x.Written any cs → Written any (.range x) cs
  | every {x : Range} {s : Nat} {cs ds : List Char} : x.Written any cs → IsNumber ds s →
      Written any (.every x s) (cs ++ '/' :: ds)
  | name {cs : List Char} : Token Char.isAlpha cs → Written any (.name cs) cs

/-- The numbers of a range are read: they have at most 32 bits. -/
def Range.Fits : Range → Prop
  | .point n => n < UInt32.size
  | .span a b => a < UInt32.size ∧ b < UInt32.size
  | _ => True

/-- The numbers of an item are read. -/
def Item.Fits : Item → Prop
  | .range x => x.Fits
  | .every x s => x.Fits ∧ s < UInt32.size
  | .name _ => True

/-- The characters with which an item begins. -/
def Begins (c : Char) : Prop := c = '*' ∨ c = '?' ∨ c.isDigit = true ∨ c.isAlpha = true

instance (c : Char) : Decidable (Begins c) := inferInstanceAs (Decidable (_ ∨ _))

theorem Begins.isGap {c : Char} (h : Begins c) : isGap c = false := by
  rcases h with rfl | rfl | h | h
  · rfl
  · rfl
  · exact isGap_eq_false_of_isDigit h
  · exact isGap_eq_false_of_isAlpha h

theorem Range.Written.begins {any : Bool} {x : Range} {cs r : List Char} (h : x.Written any cs) :
    ∀ c ∈ (cs ++ r).head?, Begins c := by
  intro c hc
  cases h with
  | star => exact .inl (Option.some.inj hc).symm
  | mark _ => exact .inr (.inl (Option.some.inj hc).symm)
  | point hn => exact .inr (.inr (.inl (hn.1.head? hc)))
  | span ha _ => exact .inr (.inr (.inl (ha.1.head? (List.append_assoc _ _ r ▸ hc))))
  | names ha _ => exact .inr (.inr (.inr (ha.head? (List.append_assoc _ _ r ▸ hc))))

theorem Item.Written.begins {any : Bool} {i : Item} {cs r : List Char} (h : i.Written any cs) :
    ∀ c ∈ (cs ++ r).head?, Begins c := by
  intro c hc
  cases h with
  | range hx => exact hx.begins c hc
  | every hx _ => exact hx.begins c (List.append_assoc _ _ r ▸ hc)
  | name hcs => exact .inr (.inr (.inr (hcs.head? hc)))

/-- Whatever is read, the rest begins with one of some characters. -/
def BreaksAt {α : Type} (stops : List Char) (result : Option (α × List Char)) : Prop :=
  ∀ x r, result = some (x, r) → ∃ c ∈ stops, r.head? = some c

theorem breaksAt_none {α : Type} {stops : List Char} : BreaksAt stops (none : Option (α × List Char)) :=
  fun _ _ h => by cases h

theorem breaksAt_some {α : Type} {stops : List Char} {x : α} {r : List Char} {c : Char} (hc : c ∈ stops)
    (hr : r.head? = some c) : BreaksAt stops (some (x, r)) := by
  intro y r' h
  obtain ⟨rfl, rfl⟩ := Prod.mk.inj (Option.some.inj h)
  exact ⟨c, hc, hr⟩

/-- The end of an item: the gap behind it may be taken. -/
def Behind (r r' : List Char) : Prop := r' = r ∨ r' = skipGap r

theorem Behind.head {r r' : List Char} (h : Behind r r') {c : Char} (hc : isGap c = false)
    (hr : (skipGap r).head? ≠ some c) : r'.head? ≠ some c := by
  rcases h with rfl | rfl
  · cases r' with
    | nil => simp
    | cons d r =>
      intro heq
      obtain rfl := Option.some.inj heq
      rw [skipGap_of_head (by simpa using hc)] at hr
      exact hr rfl
  · exact hr

theorem Behind.eq_of_head {r r' : List Char} (h : Behind r r') (hr : ∀ c ∈ r.head?, isGap c = false) : r' = r := by
  rcases h with rfl | rfl
  · rfl
  · exact skipGap_of_head hr

theorem Behind.skipGap_eq {r r' : List Char} (h : Behind r r') : skipGap r' = skipGap r := by
  rcases h with rfl | rfl
  · rfl
  · exact skipGap_skipGap r

section Ranges

variable {any : Bool} {cs r : List Char}

theorem stops_cons {c : Char} (hc : c.isDigit = false ∧ c.isAlpha = false) (r : List Char) : Stops (c :: r) := by
  intro d hd
  obtain rfl := Option.some.inj hd
  exact hc

theorem readNumber_of_alpha (h : ∀ c ∈ cs.head?, c.isAlpha = true) : readNumber cs = none :=
  readNumber_eq_none fun c hc => ⟨isDigit_eq_false_of_isAlpha (h c hc), isGap_eq_false_of_isAlpha (h c hc)⟩

theorem readName_of_digit (h : ∀ c ∈ cs.head?, c.isDigit = true) : readName cs = none := by
  refine readRun_eq_none fun c hc => ⟨?_, isGap_eq_false_of_isDigit (h c hc)⟩
  rw [Bool.eq_false_iff]
  intro halpha
  exact absurd (h c hc) (by simp [isDigit_eq_false_of_isAlpha halpha])

theorem readPair_eq_some {α : Type} {part : List Char → Option (α × List Char)} {a b : α} {r' : List Char}
    (ha : part cs = some (a, '-' :: r)) (hb : part r = some (b, r')) : readPair part cs = some ((a, b), r') := by
  rw [readPair, ha]
  simp only [Option.bind_eq_bind, Option.bind_some, readChar, if_pos, hb]

theorem readPair_eq_none_of_snd {α : Type} {part : List Char → Option (α × List Char)} {a : α}
    (ha : part cs = some (a, '-' :: r)) (hb : part r = none) : readPair part cs = none := by
  rw [readPair, ha]
  simp only [Option.bind_eq_bind, Option.bind_some, readChar, if_pos, hb, Option.bind_none]

theorem readPair_eq_none {α : Type} {part : List Char → Option (α × List Char)} {a : α}
    (ha : part cs = some (a, r)) (hr : r.head? ≠ some '-') : readPair part cs = none := by
  rw [readPair, ha]
  simp only [Option.bind_eq_bind, Option.bind_some, readChar_eq_none hr, Option.bind_none]

theorem readPair_eq_none_of_fst {α : Type} {part : List Char → Option (α × List Char)} (h : part cs = none) :
    readPair part cs = none := by
  rw [readPair, h]
  rfl

/-- A text that begins otherwise than with a star or a question mark is read as numbers or names. -/
theorem readRange_of_head (h : ∀ c ∈ cs.head?, c ≠ '*' ∧ c ≠ '?') :
    readRange any cs = ((readPair readNumber cs).map (fun ((a, b), r) => (.span a b, r))
      <|> (readNumber cs).map (fun (n, r) => (.point n, r))
      <|> (readPair readName cs).map (fun ((a, b), r) => (.names a b, r))) := by
  unfold readRange
  split
  next r => exact absurd rfl (h '*' rfl).1
  next r => exact absurd rfl (h '?' rfl).2
  next => rfl

theorem readRange_of_alpha (h : ∀ c ∈ cs.head?, c.isAlpha = true) :
    readRange any cs = (readPair readName cs).map (fun ((a, b), r) => (.names a b, r)) := by
  rw [readRange_of_head fun c hc => ?_, readPair_eq_none_of_fst (readNumber_of_alpha h), readNumber_of_alpha h]
  · rfl
  · have := h c hc
    constructor <;> rintro rfl <;> cases this

theorem readRange_of_digit (h : ∀ c ∈ cs.head?, c.isDigit = true) :
    readRange any cs = ((readPair readNumber cs).map (fun ((a, b), r) => (.span a b, r))
      <|> (readNumber cs).map (fun (n, r) => (.point n, r))) := by
  rw [readRange_of_head fun c hc => ?_, readPair_eq_none_of_fst (readName_of_digit h)]
  · simp
  · have := h c hc
    constructor <;> rintro rfl <;> cases this

/-- A range is read, if no dash follows. Where a number of it is too great, nothing is read of it but a number in front
of a dash. -/
theorem readRange_append {x : Range} (hx : x.Written any cs) (hr : Stops r) (hdash : (skipGap r).head? ≠ some '-') :
    (x.Fits ∧ ∃ r', readRange any (cs ++ r) = some (x, r') ∧ Behind r r') ∨
      ¬ x.Fits ∧ BreaksAt ['-'] (readRange any (cs ++ r)) ∧ readName (cs ++ r) = none := by
  have hgap : ∀ r, skipGap ('-' :: r) = '-' :: r := fun r => skipGap_of_head (by simp [isGap])
  have hcut : ∀ r, Stops ('-' :: r) := stops_cons (by decide)
  cases hx with
  | star => exact .inl ⟨trivial, r, rfl, .inl rfl⟩
  | mark hany =>
    subst hany
    exact .inl ⟨trivial, r, rfl, .inl rfl⟩
  | @point n _ hn =>
    have hhead : ∀ c ∈ (cs ++ r).head?, c.isDigit = true := fun c hc => hn.1.head? hc
    rw [readRange_of_digit hhead]
    by_cases hfits : n < UInt32.size
    · have hnumber := readNumber_append hn hfits hr
      rw [readPair_eq_none hnumber hdash, hnumber]
      exact .inl ⟨hfits, skipGap r, rfl, .inr rfl⟩
    · have hnumber := readNumber_of_le hn (Nat.not_lt.1 hfits) hr
      rw [readPair_eq_none_of_fst hnumber, hnumber]
      exact .inr ⟨hfits, breaksAt_none, readName_of_digit hhead⟩
  | @span a b ds es ha hb =>
    rw [List.append_assoc, List.cons_append]
    have hhead : ∀ c ∈ (ds ++ '-' :: (es ++ r)).head?, c.isDigit = true := fun c hc => ha.1.head? hc
    rw [readRange_of_digit hhead]
    by_cases hfst : a < UInt32.size
    · have hnumber := readNumber_append ha hfst (hcut (es ++ r))
      rw [hgap] at hnumber
      by_cases hsnd : b < UInt32.size
      · rw [readPair_eq_some hnumber (readNumber_append hb hsnd hr)]
        exact .inl ⟨⟨hfst, hsnd⟩, skipGap r, rfl, .inr rfl⟩
      · rw [readPair_eq_none_of_snd hnumber (readNumber_of_le hb (Nat.not_lt.1 hsnd) hr), hnumber]
        exact .inr ⟨fun h => hsnd h.2, breaksAt_some (List.mem_singleton_self _) rfl, readName_of_digit hhead⟩
    · have hnumber := readNumber_of_le ha (Nat.not_lt.1 hfst) (hcut (es ++ r))
      rw [readPair_eq_none_of_fst hnumber, hnumber]
      exact .inr ⟨fun h => hfst h.1, breaksAt_none, readName_of_digit hhead⟩
  | @names as bs ha hb =>
    rw [List.append_assoc, List.cons_append]
    have hhead : ∀ c ∈ (as ++ '-' :: (bs ++ r)).head?, c.isAlpha = true := fun c hc => ha.head? hc
    have hname := readName_append ha (hcut (bs ++ r))
    rw [hgap] at hname
    rw [readRange_of_alpha hhead, readPair_eq_some hname (readName_append hb hr)]
    exact .inl ⟨trivial, skipGap r, rfl, .inr rfl⟩

/-- A name is no range, if no dash follows. -/
theorem readRange_of_name (hcs : Token Char.isAlpha cs) (hr : Stops r) (hdash : (skipGap r).head? ≠ some '-') :
    readRange any (cs ++ r) = none := by
  rw [readRange_of_alpha fun c hc => hcs.head? hc, readPair_eq_none (readName_append hcs hr) hdash]
  rfl

theorem readEvery_eq_none (h : ∀ x r, readRange any cs = some (x, r) → r.head? ≠ some '/') :
    readEvery any cs = none := by
  rw [readEvery]
  cases hrange : readRange any cs with
  | none => rfl
  | some p => simp only [Option.bind_eq_bind, Option.bind_some, readChar_eq_none (h _ _ hrange), Option.bind_none]

theorem readEvery_of_slash {x : Range} (h : readRange any cs = some (x, '/' :: r)) :
    readEvery any cs = (readNumber r).map fun (s, r) => (.every x s, r) := by
  rw [readEvery, h]
  simp only [Option.bind_eq_bind, Option.bind_some, readChar, if_pos]
  cases readNumber r <;> rfl

/-- Where a range breaks off, so does the item. -/
theorem breaksAt_readItem (h : BreaksAt ['-'] (readRange any cs)) (hname : readName cs = none) :
    BreaksAt ['-', '/'] (readItem any cs) := by
  have hevery : readEvery any cs = none := readEvery_eq_none fun x r hx => by
    obtain ⟨c, hc, hhead⟩ := h x r hx
    simp [hhead, List.mem_singleton.1 hc]
  rw [readItem, hevery, hname]
  cases hrange : readRange any cs with
  | none => exact breaksAt_none
  | some p =>
    obtain ⟨c, hc, hhead⟩ := h p.1 p.2 hrange
    exact breaksAt_some (List.mem_cons.2 (.inl (List.mem_singleton.1 hc))) hhead

/-- An item is read, if neither a dash nor a slash follows. Where a number of it is too great, reading breaks off in
front of a dash or a slash. -/
theorem readItem_append {i : Item} (hi : i.Written any cs) (hr : Stops r) (hdash : (skipGap r).head? ≠ some '-')
    (hslash : (skipGap r).head? ≠ some '/') :
    (i.Fits ∧ ∃ r', readItem any (cs ++ r) = some (i, r') ∧ Behind r r') ∨
      ¬ i.Fits ∧ BreaksAt ['-', '/'] (readItem any (cs ++ r)) := by
  cases hi with
  | range hx =>
    rcases readRange_append hx hr hdash with ⟨hfits, r', hrange, hbehind⟩ | ⟨hfits, hbreak, hname⟩
    · have hevery : readEvery any (cs ++ r) = none := readEvery_eq_none fun x r'' h => by
        rw [hrange] at h
        obtain ⟨-, rfl⟩ := Prod.mk.inj (Option.some.inj h)
        exact hbehind.head rfl hslash
      rw [readItem, hevery, hrange]
      exact .inl ⟨hfits, r', rfl, hbehind⟩
    · exact .inr ⟨hfits, breaksAt_readItem hbreak hname⟩
  | @every x s cs ds hx hs =>
    rw [List.append_assoc, List.cons_append]
    have hgap : skipGap ('/' :: (ds ++ r)) = '/' :: (ds ++ r) := skipGap_of_head (by simp [isGap])
    rcases readRange_append hx (stops_cons (c := '/') (by decide) (ds ++ r)) (by rw [hgap]; simp) with
      ⟨hrange_fits, r', hrange, hbehind⟩ | ⟨hfits, hbreak, hname⟩
    · obtain rfl := hbehind.eq_of_head (by simp [isGap])
      have hevery := readEvery_of_slash hrange
      by_cases hfits : s < UInt32.size
      · rw [readNumber_append hs hfits hr] at hevery
        rw [readItem, hevery]
        exact .inl ⟨⟨hrange_fits, hfits⟩, skipGap r, rfl, .inr rfl⟩
      · rw [readNumber_of_le hs (Nat.not_lt.1 hfits) hr] at hevery
        rw [readItem, hevery, hrange]
        exact .inr ⟨fun h => hfits h.2, breaksAt_some (by simp) rfl⟩
    · exact .inr ⟨fun h => hfits h.1, breaksAt_readItem hbreak hname⟩
  | name hcs =>
    have hrange : readRange any (cs ++ r) = none := readRange_of_name hcs hr hdash
    have hevery : readEvery any (cs ++ r) = none := readEvery_eq_none fun x r h => by simp [hrange] at h
    rw [readItem, hevery, hrange, readName_append hcs hr]
    exact .inl ⟨trivial, skipGap r, rfl, .inr rfl⟩

/-- A text in which no item begins is not read. -/
theorem readItem_eq_none (h : ∀ c ∈ cs.head?, ¬ Begins c ∧ isGap c = false) : readItem any cs = none := by
  have hnumber : readNumber cs = none := readNumber_eq_none fun c hc =>
    ⟨Bool.eq_false_iff.2 fun hd => (h c hc).1 (.inr (.inr (.inl hd))), (h c hc).2⟩
  have hname : readName cs = none := readRun_eq_none fun c hc =>
    ⟨Bool.eq_false_iff.2 fun ha => (h c hc).1 (.inr (.inr (.inr ha))), (h c hc).2⟩
  have hrange : readRange any cs = none := by
    rw [readRange_of_head fun c hc => ⟨fun hs => (h c hc).1 (.inl hs), fun hs => (h c hc).1 (.inr (.inl hs))⟩,
      readPair_eq_none_of_fst hnumber, hnumber, readPair_eq_none_of_fst hname]
    rfl
  rw [readItem, readEvery_eq_none fun x r hx => by simp [hrange] at hx, hrange, hname]
  rfl

end Ranges

end Rota.Cron
