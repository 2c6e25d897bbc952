import Mathlib.Data.List.TakeWhile
import Rota.Proofs.Grammar

/-!
# Lists that are read item by item

A text without gaps is read up to the next comma without a look at what stands behind it, and what is read was written:
both hold of a reader that `Reads` texts of some form.

- they hold of the readers of numbers and names and pass on to what is made of these, up to items
  (`reads_readRange`, `reads_readItem`);
- a text that is written as an item is read as it to its end (`readItem_written`);
- so a list is read item by item, up to the first that is not read to its end (`readField_pieces`), and its values are
  those of a field if all of its items are taken, or the last one before a rest (`exists_readValues_iff`).
-/

namespace Rota.Cron

/-- A text without gaps. -/
def Gapless (cs : List Char) : Prop := ∀ c ∈ cs, isGap c = false

/-- Here a text ends or a comma stands. -/
def AtComma (r : List Char) : Prop := ∀ c ∈ r.head?, c = ','

section Gaps

variable {cs r : List Char}

theorem Gapless.of_suffix (h : Gapless cs) (hr : r <:+ cs) : Gapless r := fun c hc => h c (hr.subset hc)

theorem Gapless.skipGap (h : Gapless cs) : skipGap cs = cs := skipGap_of_head fun c hc => h c (List.mem_of_mem_head? hc)

theorem Gapless.skipGap_append (h : Gapless cs) (hr : AtComma r) : Cron.skipGap (cs ++ r) = cs ++ r := by
  refine skipGap_of_head fun c hc => ?_
  cases cs with
  | nil =>
    obtain rfl := hr c hc
    rfl
  | cons d cs =>
    obtain rfl := Option.some.inj hc
    exact h d List.mem_cons_self

end Gaps

/-! ## Readers -/

/-- What is read of a text without gaps was written in front of the rest, and what stands behind the next comma does
not matter to it. -/
structure Reads {α : Type} (f : List Char → Option (α × List Char)) (Form : α → List Char → Prop) : Prop where
  written {cs r : List Char} {x : α} : Gapless cs → f cs = some (x, r) → ∃ t, cs = t ++ r ∧ Form x t
  frame {cs r : List Char} : Gapless cs → AtComma r → f (cs ++ r) = (f cs).map fun y => (y.1, y.2 ++ r)

section Readers

variable {α β γ : Type} {f g : List Char → Option (α × List Char)} {h : List Char → Option (β × List Char)}
  {Form : α → List Char → Prop} {FormB : β → List Char → Prop} {FormC : γ → List Char → Prop} {cs r : List Char}

theorem readRun_written {p : Char → Bool} {t : List Char} (hcs : Gapless cs) (hread : readRun p cs = some (t, r)) :
    cs = t ++ r ∧ Token p t := by
  simp only [readRun, hcs.skipGap] at hread
  obtain ⟨hne, hread⟩ := Option.ite_none_left_eq_some.1 hread
  obtain ⟨rfl, rfl⟩ := Prod.mk.inj (Option.some.inj hread)
  rw [(hcs.of_suffix (List.dropWhile_suffix p)).skipGap]
  exact ⟨List.takeWhile_append_dropWhile.symm, hne, fun c hc => List.mem_takeWhile_imp hc⟩

theorem reads_readRun {p : Char → Bool} (hcomma : p ',' = false) : Reads (readRun p) fun x t => x = t ∧ Token p t where
  written hcs hread := by
    obtain ⟨heq, htoken⟩ := readRun_written hcs hread
    exact ⟨_, heq, rfl, htoken⟩
  frame := by
    intro cs r hcs hr
    have hcut : ∀ cs : List Char,
        (cs ++ r).takeWhile p = cs.takeWhile p ∧ (cs ++ r).dropWhile p = cs.dropWhile p ++ r := by
      intro cs
      induction cs with
      | nil =>
        cases r with
        | nil => exact ⟨rfl, rfl⟩
        | cons c r =>
          obtain rfl := hr c rfl
          simp [hcomma]
      | cons c cs ih => cases hc : p c <;> simp [hc, ih]
    have hdrop := hcs.of_suffix (List.dropWhile_suffix p)
    simp only [readRun, hcs.skipGap_append hr, hcs.skipGap, (hcut cs).1, (hcut cs).2, hdrop.skipGap_append hr,
      hdrop.skipGap]
    split <;> rfl

theorem readChar_append {c : Char} (hc : c ≠ ',') (hr : AtComma r) :
    readChar c (cs ++ r) = (readChar c cs).map (· ++ r) := by
  cases cs with
  | nil =>
    cases r with
    | nil => rfl
    | cons d r =>
      obtain rfl := hr d rfl
      exact if_neg hc.symm
  | cons d cs =>
    simp only [List.cons_append, readChar]
    split <;> rfl

theorem readChar_eq_some {c : Char} (hread : readChar c cs = some r) : cs = c :: r := by
  cases cs with
  | nil => cases hread
  | cons d cs =>
    obtain ⟨rfl, h⟩ := Option.ite_none_right_eq_some.1 hread
    rw [Option.some.inj h]

theorem Reads.map (hf : Reads f Form) (k : α → β) (hk : ∀ {x t}, Form x t → FormB (k x) t) :
    Reads (fun cs => (f cs).map fun y => (k y.1, y.2)) FormB where
  written hcs hread := by
    obtain ⟨y, hy, heq⟩ := Option.map_eq_some_iff.1 hread
    obtain ⟨rfl, rfl⟩ := Prod.mk.inj heq
    obtain ⟨t, ht, hform⟩ := hf.written hcs hy
    exact ⟨t, ht, hk hform⟩
  frame hcs hr := by
    rw [hf.frame hcs hr, Option.map_map, Option.map_map]
    rfl

theorem Reads.orElse (hf : Reads f Form) (hg : Reads g Form) : Reads (fun cs => f cs <|> g cs) Form where
  written hcs hread := by
    cases hfst : f _ with
    | none =>
      rw [hfst] at hread
      exact hg.written hcs hread
    | some y =>
      rw [hfst] at hread
      exact hf.written hcs (hfst.trans hread)
  frame {cs r} hcs hr := by
    rw [hf.frame hcs hr, hg.frame hcs hr]
    cases f cs <;> rfl

/-- Two parts with a character between them. -/
theorem Reads.joined (hf : Reads f Form) (hh : Reads h FormB) {c : Char} (hc : c ≠ ',') (k : α → β → γ)
    (hk : ∀ {x y s t}, Form x s → FormB y t → FormC (k x y) (s ++ c :: t)) :
    Reads (fun cs => (f cs).bind fun y => (readChar c y.2).bind fun r => (h r).map fun z => (k y.1 z.1, z.2))
      FormC where
  written hcs hread := by
    obtain ⟨⟨x, q⟩, hx, hread⟩ := Option.bind_eq_some_iff.1 hread
    obtain ⟨q', hq, hread⟩ := Option.bind_eq_some_iff.1 hread
    obtain ⟨⟨y, q''⟩, hy, heq⟩ := Option.map_eq_some_iff.1 hread
    obtain ⟨rfl, rfl⟩ := Prod.mk.inj heq
    obtain rfl := readChar_eq_some hq
    obtain ⟨s, rfl, hs⟩ := hf.written hcs hx
    have hq' : Gapless q' := hcs.of_suffix ⟨s ++ [c], by simp⟩
    obtain ⟨t, rfl, ht⟩ := hh.written hq' hy
    exact ⟨s ++ c :: t, by simp, hk hs ht⟩
  frame {cs r} hcs hr := by
    rw [hf.frame hcs hr]
    cases hx : f cs with
    | none => rfl
    | some y =>
      obtain ⟨s, rfl, -⟩ := hf.written hcs hx
      simp only [Option.map_some, Option.bind_some, readChar_append hc hr]
      cases hq : readChar c y.2 with
      | none => rfl
      | some q =>
        have hgapless : Gapless q := hcs.of_suffix ⟨s ++ [c], by simp [readChar_eq_some hq]⟩
        simp only [Option.map_some, Option.bind_some, hh.frame hgapless hr, Option.map_map]
        rfl

end Readers

/-! ## Numbers, ranges and items -/

theorem reads_readNumber : Reads readNumber fun n t => IsNumber t n ∧ n < UInt32.size where
  written {cs r n} hcs hread := by
    rw [readNumber] at hread
    split at hread
    next ds r' hrun =>
      obtain ⟨hfits, heq⟩ := Option.ite_none_right_eq_some.1 hread
      obtain ⟨rfl, rfl⟩ := Prod.mk.inj (Option.some.inj heq)
      obtain ⟨rfl, htoken⟩ := readRun_written hcs hrun
      exact ⟨ds, rfl, ⟨htoken, rfl⟩, hfits⟩
    next => cases hread
  frame {cs r} hcs hr := by
    rw [readNumber, readNumber, (reads_readRun (by decide)).frame hcs hr]
    cases readRun Char.isDigit cs with
    | none => rfl
    | some y =>
      simp only [Option.map_some]
      split <;> rfl

theorem reads_readName : Reads readName fun x t => x = t ∧ Token Char.isAlpha t := reads_readRun (by decide)

section Items

variable (any : Bool)

theorem readPair_eq {α : Type} (part : List Char → Option (α × List Char)) (cs : List Char) : readPair part cs =
    (part cs).bind fun y => (readChar '-' y.2).bind fun r => (part r).map fun z => ((y.1, z.1), z.2) := by
  simp only [readPair, Option.map_eq_bind]
  rfl

theorem readEvery_eq (cs : List Char) : readEvery any cs =
    (readRange any cs).bind fun y => (readChar '/' y.2).bind fun r =>
      (readNumber r).map fun z => (.every y.1 z.1, z.2) := by
  simp only [readEvery, Option.map_eq_bind]
  rfl

theorem reads_readPair {α : Type} {part : List Char → Option (α × List Char)} {Form : α → List Char → Prop}
    (hpart : Reads part Form) :
    Reads (readPair part) fun x t => ∃ t₁ t₂, t = t₁ ++ '-' :: t₂ ∧ Form x.1 t₁ ∧ Form x.2 t₂ := by
  rw [funext (readPair_eq part)]
  exact hpart.joined hpart (by decide) Prod.mk fun hs ht => ⟨_, _, rfl, hs, ht⟩

/-- The characters that stand for every value. -/
def readAll : List Char → Option (Range × List Char)
  | '*' :: r => some (.all, r)
  | '?' :: r => if any then some (.all, r) else none
  | _ => none

theorem reads_readAll : Reads (readAll any) fun x t => x.Written any t ∧ x.Fits where
  written {cs r x} _ hread := by
    unfold readAll at hread
    split at hread
    next r =>
      obtain ⟨rfl, rfl⟩ := Prod.mk.inj (Option.some.inj hread)
      exact ⟨['*'], rfl, .star, trivial⟩
    next r =>
      obtain ⟨hany, heq⟩ := Option.ite_none_right_eq_some.1 hread
      obtain ⟨rfl, rfl⟩ := Prod.mk.inj (Option.some.inj heq)
      exact ⟨['?'], rfl, .mark hany, trivial⟩
    next => cases hread
  frame {cs r} _ hr := by
    cases cs with
    | nil =>
      cases r with
      | nil => rfl
      | cons c r =>
        obtain rfl := hr c rfl
        rfl
    | cons c cs =>
      by_cases hstar : c = '*'
      · subst hstar
        rfl
      by_cases hmark : c = '?'
      · subst hmark
        cases any <;> rfl
      · have hnone : ∀ r, readAll any (c :: r) = none := fun r => by simp [readAll, hstar, hmark]
        rw [List.cons_append, hnone, hnone]
        rfl

/-- What is read as a range is written as one, with numbers that fit. -/
theorem reads_readRange : Reads (readRange any) fun x t => x.Written any t ∧ x.Fits := by
  have heq : readRange any = fun cs => readAll any cs <|>
      ((readPair readNumber cs).map fun y => (.span y.1.1 y.1.2, y.2)) <|>
      ((readNumber cs).map fun y => (.point y.1, y.2)) <|>
      ((readPair readName cs).map fun y => (.names y.1.1 y.1.2, y.2)) := rfl
  rw [heq]
  refine (reads_readAll any).orElse (.orElse ?_ (.orElse ?_ ?_))
  · refine (reads_readPair reads_readNumber).map (fun p => Range.span p.1 p.2) ?_
    rintro ⟨_, _⟩ _ ⟨_, _, rfl, hs, ht⟩
    exact ⟨.span hs.1 ht.1, hs.2, ht.2⟩
  · refine reads_readNumber.map Range.point ?_
    exact fun hn => ⟨.point hn.1, hn.2⟩
  · refine (reads_readPair reads_readName).map (fun p => Range.names p.1 p.2) ?_
    rintro ⟨_, _⟩ _ ⟨_, _, rfl, ⟨rfl, hs⟩, rfl, ht⟩
    exact ⟨.names hs ht, trivial⟩

/-- What is read as an item is written as one, with numbers that fit. -/
theorem reads_readItem : Reads (readItem any) fun i t => i.Written any t ∧ i.Fits := by
  have hevery : Reads (readEvery any) fun i t => i.Written any t ∧ i.Fits := by
    rw [funext (readEvery_eq any)]
    refine (reads_readRange any).joined reads_readNumber (by decide) Item.every ?_
    exact fun hx hs => ⟨.every hx.1 hs.1, hx.2, hs.2⟩
  have hrange : Reads (fun cs => (readRange any cs).map fun y => (Item.range y.1, y.2))
      fun i t => i.Written any t ∧ i.Fits :=
    (reads_readRange any).map Item.range fun hx => ⟨.range hx.1, hx.2⟩
  refine hevery.orElse (hrange.orElse (reads_readName.map Item.name ?_))
  rintro _ _ ⟨rfl, hs⟩
  exact ⟨.name hs, trivial⟩

variable {any} {cs : List Char} {i : Item}

/-- What is written as an item is read to its end, or up to a dash or a slash if its numbers do not fit. -/
theorem readItem_self (hi : i.Written any cs) : i.Fits ∧ readItem any cs = some (i, []) ∨
    ¬ i.Fits ∧ BreaksAt ['-', '/'] (readItem any cs) := by
  have hread := readItem_append hi ends_nil.1 (by simp [skipGap]) (by simp [skipGap])
  rw [List.append_nil] at hread
  refine hread.imp_left ?_
  rintro ⟨hfits, r, hitem, hbehind⟩
  rw [hbehind.eq_of_head fun c hc => by cases hc] at hitem
  exact ⟨hfits, hitem⟩

theorem readItem_written (hi : i.Written any cs) (hfits : i.Fits) : readItem any cs = some (i, []) :=
  ((readItem_self hi).resolve_right fun h => h.1 hfits).2

/-- A text that is read to its end is that of no other item. -/
theorem eq_of_readItem {j : Item} (hread : readItem any cs = some (i, [])) (hj : j.Written any cs) : j = i := by
  rcases readItem_self hj with ⟨-, h⟩ | ⟨-, hbreak⟩
  · exact (Prod.mk.inj (Option.some.inj (h.symm.trans hread))).1
  · obtain ⟨c, -, hc⟩ := hbreak _ _ hread
    cases hc

end Items

/-! ## Lists -/

/-- The pieces of a list behind the first one, each behind a comma. -/
def followers (ps : List (List Char)) : List Char := ps.flatMap fun p => ',' :: p

theorem intercalate_cons (p : List Char) (ps : List (List Char)) :
    [','].intercalate (p :: ps) = p ++ followers ps := by
  induction ps generalizing p with
  | nil => simp [followers]
  | cons q ps ih => rw [List.intercalate_cons_cons, ih, followers, followers, List.flatMap_cons]; simp

/-- How the pieces of a list are read as items: to their ends, or up to the first from which a rest is left. -/
inductive Splits (any : Bool) : List (List Char) → List Item → List Char → Prop
  | done : Splits any [] [] []
  | next {p r : List Char} {i : Item} {ps : List (List Char)} {is : List Item} : readItem any p = some (i, []) →
      Splits any ps is r → Splits any (p :: ps) (i :: is) r
  | stop {p q : List Char} {i : Item} {ps : List (List Char)} : readItem any p = some (i, q) → q ≠ [] →
      Splits any (p :: ps) [i] (q ++ followers ps)

/-- A piece of a list: it has no gaps and no commas. -/
def IsPiece (p : List Char) : Prop := Gapless p ∧ ',' ∉ p

section Lists

variable {any : Bool} {f : Field} {p r : List Char} {ps : List (List Char)} {i : Item} {is : List Item} {n : Nat}

theorem atComma_followers (ps : List (List Char)) : AtComma (followers ps) := by
  intro c hc
  cases ps with
  | nil => cases hc
  | cons p ps => exact (Option.some.inj hc).symm

theorem gapless_followers (hps : ∀ p ∈ ps, IsPiece p) : Gapless (followers ps) := by
  intro c hc
  obtain ⟨p, hp, hc⟩ := List.mem_flatMap.1 hc
  rcases List.mem_cons.1 hc with rfl | hc
  · rfl
  · exact (hps p hp).1 c hc

/-- What is left of a piece. -/
theorem IsPiece.rest (hp : IsPiece p) {q : List Char} (hread : readItem any p = some (i, q)) : IsPiece q := by
  obtain ⟨t, rfl, -⟩ := (reads_readItem any).written hp.1 hread
  exact ⟨hp.1.of_suffix (List.suffix_append t q), fun hmem => hp.2 (List.mem_append_right t hmem)⟩

theorem IsPiece.head_append (hp : IsPiece p) (hne : p ≠ []) : (p ++ r).head? ≠ some ',' := by
  obtain ⟨c, p, rfl⟩ := List.exists_cons_of_ne_nil hne
  intro h
  exact hp.2 (Option.some.inj h ▸ List.mem_cons_self)

/-- The first piece is read to its end, or reading stops within it. -/
theorem splits_cons_iff : Splits any (p :: ps) is r ↔ ∃ i q, readItem any p = some (i, q) ∧
    (q = [] ∧ (∃ is', is = i :: is' ∧ Splits any ps is' r) ∨ q ≠ [] ∧ is = [i] ∧ r = q ++ followers ps) := by
  constructor
  · intro h
    cases h with
    | next hread hsplits => exact ⟨_, _, hread, .inl ⟨rfl, _, rfl, hsplits⟩⟩
    | stop hread hne => exact ⟨_, _, hread, .inr ⟨hne, rfl, rfl⟩⟩
  · rintro ⟨i, q, hread, ⟨rfl, is', rfl, hsplits⟩ | ⟨hne, rfl, rfl⟩⟩
    · exact .next hread hsplits
    · exact .stop hread hne

/-- The pieces are read one after the other. -/
theorem readMore_followers (hps : ∀ p ∈ ps, IsPiece p) (hn : ps.length ≤ n) :
    readMore any n (followers ps) = (is, r) ∧ r.head? ≠ some ',' ↔ Splits any ps is r := by
  induction ps generalizing n is with
  | nil =>
    rw [readMore_of_head (by simp [followers])]
    constructor
    · rintro ⟨h, -⟩
      cases h
      exact .done
    · rintro ⟨⟩
      exact ⟨rfl, by simp⟩
  | cons p ps ih =>
    obtain ⟨hp, hps⟩ := List.forall_mem_cons.1 hps
    obtain ⟨n, rfl⟩ : ∃ m, n = m + 1 := ⟨n - 1, by rw [List.length_cons] at hn; omega⟩
    have hlist : followers (p :: ps) = ',' :: (p ++ followers ps) := rfl
    rw [hlist, readMore_comma, (reads_readItem any).frame hp.1 (atComma_followers ps), splits_cons_iff]
    cases hread : readItem any p with
    | none =>
      refine iff_of_false (fun ⟨h, hhead⟩ => ?_) fun ⟨_, _, h, _⟩ => (by cases h)
      cases h
      exact hhead rfl
    | some y =>
      obtain ⟨i, q⟩ := y
      simp only [Option.map_some, Option.some.injEq, Prod.mk.injEq]
      by_cases hq : q = []
      · subst hq
        have ih : ∀ is, readMore any n (followers ps) = (is, r) ∧ r.head? ≠ some ',' ↔ Splits any ps is r := fun _ =>
          ih hps (Nat.le_of_succ_le_succ hn)
        constructor
        · rintro ⟨⟨rfl, rfl⟩, hhead⟩
          exact ⟨i, [], ⟨rfl, rfl⟩, .inl ⟨rfl, _, rfl, (ih _).1 ⟨rfl, hhead⟩⟩⟩
        · rintro ⟨_, _, ⟨rfl, rfl⟩, ⟨-, is', rfl, hsplits⟩ | ⟨hne, -⟩⟩
          · obtain ⟨hmore, hhead⟩ := (ih is').2 hsplits
            rw [List.nil_append, hmore]
            exact ⟨⟨rfl, rfl⟩, hhead⟩
          · exact absurd rfl hne
      · have hhead := (hp.rest hread).head_append (r := followers ps) hq
        rw [readMore_of_head hhead]
        constructor
        · rintro ⟨⟨rfl, rfl⟩, -⟩
          exact ⟨i, q, ⟨rfl, rfl⟩, .inr ⟨hq, rfl, rfl⟩⟩
        · rintro ⟨_, _, ⟨rfl, rfl⟩, ⟨hnil, -⟩ | ⟨-, rfl, rfl⟩⟩
          · exact absurd hnil hq
          · exact ⟨⟨rfl, rfl⟩, hhead⟩

theorem gapless_readMore {cs : List Char} (hcs : Gapless cs) (n : Nat) : Gapless (readMore any n cs).2 := by
  induction n generalizing cs with
  | zero => exact hcs
  | succ n ih =>
    cases cs with
    | nil => exact hcs
    | cons c cs =>
      by_cases hc : c = ','
      · subst hc
        rw [readMore_comma]
        have hcs' : Gapless cs := fun d hd => hcs d (List.mem_cons_of_mem _ hd)
        cases hread : readItem any cs with
        | none => exact hcs
        | some y =>
          obtain ⟨t, rfl, -⟩ := (reads_readItem any).written hcs' hread
          exact ih (hcs'.of_suffix (List.suffix_append t y.2))
      · rw [readMore_of_head (by simpa using hc)]
        exact hcs

theorem length_le_followers (ps : List (List Char)) : ps.length ≤ (followers ps).length := by
  induction ps with
  | nil => exact Nat.le_refl _
  | cons p ps ih =>
    rw [followers, List.flatMap_cons, List.length_append, ← followers, List.length_cons, List.length_cons]
    omega

/-- A list is read piece by piece. -/
theorem readField_pieces (hps : ∀ q ∈ p :: ps, IsPiece q) :
    readField any ([','].intercalate (p :: ps)) = some (is, r) ∧ r.head? ≠ some ',' ↔ Splits any (p :: ps) is r := by
  obtain ⟨hp, hps'⟩ := List.forall_mem_cons.1 hps
  have hgapless : Gapless (p ++ followers ps) := fun c hc =>
    (List.mem_append.1 hc).elim (hp.1 c) (gapless_followers hps' c)
  rw [intercalate_cons, readField, hgapless.skipGap]
  cases hread : readItem any (p ++ followers ps) with
  | none =>
    have hnone := (reads_readItem any).frame hp.1 (atComma_followers ps)
    rw [hread] at hnone
    have hnone := Option.map_eq_none_iff.1 hnone.symm
    simp [splits_cons_iff, hnone]
  | some y =>
    have hrest : Gapless y.2 ∧ ps.length ≤ y.2.length := by
      have hframe := (reads_readItem any).frame hp.1 (atComma_followers ps)
      rw [hread] at hframe
      obtain ⟨z, -, rfl⟩ := Option.map_eq_some_iff.1 hframe.symm
      obtain ⟨t, ht, -⟩ := (reads_readItem any).written hgapless hread
      refine ⟨hgapless.of_suffix ⟨t, ht.symm⟩, ?_⟩
      rw [List.length_append]
      exact Nat.le_add_left_of_le (length_le_followers ps)
    have hlist : followers (p :: ps) = ',' :: (p ++ followers ps) := rfl
    rw [← readMore_followers hps (Nat.succ_le_succ hrest.2), hlist, readMore_comma, hread]
    simp only [Option.map_some, (gapless_readMore hrest.1 _).skipGap, Option.some.injEq]

/-! ## Values -/

/-- A piece is read to its end as an item that the field has. -/
def Takes (f : Field) (any : Bool) (p : List Char) : Prop := ∃ i t, readItem any p = some (i, []) ∧ i.stride? f = some t

theorem exists_values?_iff : (∃ vs, values? f is = some vs) ↔ ∀ i ∈ is, ∃ t, i.stride? f = some t := by
  have hstrides : ∀ is : List Item,
      (∃ ts, is.mapM (Item.stride? f) = some ts) ↔ ∀ i ∈ is, ∃ t, i.stride? f = some t := by
    intro is
    induction is with
    | nil => simp
    | cons i is ih =>
      rw [List.forall_mem_cons, ← ih, List.mapM_cons]
      cases i.stride? f <;> cases is.mapM (Item.stride? f) <;> simp
  rw [← hstrides]
  simp [values?]

/-- The pieces of a list are items of a field, to their ends or up to one from which a rest of some form is left. -/
def Divides (f : Field) (any : Bool) (Rest : List Char → Prop) (ps : List (List Char)) : Prop :=
  (∀ p ∈ ps, Takes f any p) ∧ Rest [] ∨
    ∃ before p after i t q, ps = before ++ p :: after ∧ (∀ a ∈ before, Takes f any a) ∧ readItem any p = some (i, q) ∧
      i.stride? f = some t ∧ q ≠ [] ∧ Rest ([','].intercalate (q :: after))

theorem exists_splits_iff {Rest : List Char → Prop} :
    (∃ is r, Splits any ps is r ∧ (∀ i ∈ is, ∃ t, i.stride? f = some t) ∧ Rest r) ↔ Divides f any Rest ps := by
  induction ps with
  | nil =>
    constructor
    · rintro ⟨_, _, ⟨⟩, -, hrest⟩
      exact .inl ⟨List.forall_mem_nil _, hrest⟩
    · rintro (⟨-, hrest⟩ | ⟨before, p, after, i, t, q, h, -⟩)
      · exact ⟨[], [], .done, List.forall_mem_nil _, hrest⟩
      · cases before <;> cases h
  | cons p ps ih =>
    constructor
    · rintro ⟨_, _, hsplits, hvalid, hrest⟩
      cases hsplits with
      | next hread hsplits =>
        obtain ⟨⟨t, ht⟩, hvalid⟩ := List.forall_mem_cons.1 hvalid
        rcases ih.1 ⟨_, _, hsplits, hvalid, hrest⟩ with
          ⟨hall, hnil⟩ | ⟨before, p', after, i', t', q, rfl, hbefore, hlast⟩
        · exact .inl ⟨List.forall_mem_cons.2 ⟨⟨_, t, hread, ht⟩, hall⟩, hnil⟩
        · have hbefore := List.forall_mem_cons.2 ⟨⟨_, t, hread, ht⟩, hbefore⟩
          exact .inr ⟨p :: before, p', after, i', t', q, rfl, hbefore, hlast⟩
      | stop hread hne =>
        obtain ⟨t, ht⟩ := hvalid _ (List.mem_singleton_self _)
        exact .inr ⟨[], p, ps, _, t, _, rfl, List.forall_mem_nil _, hread, ht, hne, intercalate_cons _ ps ▸ hrest⟩
    · rintro (⟨hall, hnil⟩ | ⟨before, p', after, i', t', q, heq, hbefore, hread, ht, hne, hrest⟩)
      · obtain ⟨⟨i, t, hread, ht⟩, hall⟩ := List.forall_mem_cons.1 hall
        obtain ⟨is, r, hsplits, hvalid, hrest⟩ := ih.2 (.inl ⟨hall, hnil⟩)
        exact ⟨i :: is, r, .next hread hsplits, List.forall_mem_cons.2 ⟨⟨t, ht⟩, hvalid⟩, hrest⟩
      · cases before with
        | nil =>
          obtain ⟨rfl, rfl⟩ := List.cons.inj heq
          rw [intercalate_cons] at hrest
          refine ⟨[i'], _, .stop hread hne, fun j hj => ?_, hrest⟩
          rw [List.mem_singleton.1 hj]
          exact ⟨t', ht⟩
        | cons a before =>
          obtain ⟨rfl, rfl⟩ := List.cons.inj heq
          obtain ⟨⟨i, t, hfst, hi⟩, hbefore⟩ := List.forall_mem_cons.1 hbefore
          obtain ⟨is, r, hsplits, hvalid, hrest⟩ :=
            ih.2 (.inr ⟨before, p', after, i', t', q, rfl, hbefore, hread, ht, hne, hrest⟩)
          exact ⟨i :: is, r, .next hfst hsplits, List.forall_mem_cons.2 ⟨⟨t, hi⟩, hvalid⟩, hrest⟩

/-- The values of a field are read from a list, with a rest that does not go on with a comma, if its pieces are items of
the field up to such a rest. -/
theorem exists_readValues_iff {Rest : List Char → Prop} (hrest : ∀ r, Rest r → r.head? ≠ some ',') (hne : ps ≠ [])
    (hps : ∀ p ∈ ps, IsPiece p) :
    (∃ vs r, readValues f any ([','].intercalate ps) = some (vs, r) ∧ Rest r) ↔ Divides f any Rest ps := by
  rw [← exists_splits_iff]
  obtain ⟨p, ps, rfl⟩ := List.exists_cons_of_ne_nil hne
  constructor
  · rintro ⟨vs, r, hread, hr⟩
    obtain ⟨⟨is, r'⟩, hfield, hread⟩ := Option.bind_eq_some_iff.1 hread
    obtain ⟨vs', hvs, heq⟩ := Option.bind_eq_some_iff.1 hread
    obtain ⟨rfl, rfl⟩ := Prod.mk.inj (Option.some.inj heq)
    exact ⟨is, r', (readField_pieces hps).1 ⟨hfield, hrest _ hr⟩, exists_values?_iff.1 ⟨vs', hvs⟩, hr⟩
  · rintro ⟨is, r, hsplits, hvalid, hr⟩
    obtain ⟨vs, hvs⟩ := exists_values?_iff.2 hvalid
    refine ⟨vs, r, ?_, hr⟩
    rw [readValues, ((readField_pieces hps).2 hsplits).1]
    simp only [Option.bind_eq_bind, Option.bind_some, hvs]

end Lists

end Rota.Cron
