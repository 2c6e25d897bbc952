import Rota.Proofs.Items

/-!
# Fields as they are written

A field is written as items between commas (`FieldText`).

- a field that is written is read as its items and up to the gap behind it, or reading breaks off at a dash, a slash or
  a comma (`FieldText.readField_append`);
- where it broke off, no field is read (`readField_eq_none`), so that a schedule is read from fields that were read to
  their ends (`FieldText.of_readValues`).
-/

namespace Rota.Cron

/-- A field as it is written: its items, each with its text. -/
structure FieldText (any : Bool) where
  parts : List (Item × List Char)
  ne_nil : parts ≠ []
  written : ∀ p ∈ parts, p.1.Written any p.2

/-- The items after the first one, each behind a comma. -/
def further (parts : List (Item × List Char)) : List Char := parts.flatMap fun p => ',' :: p.2

/-- A field ends here: no number, name or item goes on. -/
def Ends (r : List Char) : Prop := Stops r ∧ ∀ c ∈ (skipGap r).head?, c ∉ ['-', '/', ',']

section Fields

variable {any : Bool} {cs r : List Char} {ps : List (Item × List Char)}

theorem ends_nil : Ends [] := by
  constructor <;> intro c hc <;> cases hc

/-- No item begins where reading breaks off. -/
theorem not_begins_of_break {c : Char} (hc : c ∈ ['-', '/', ',']) : ¬ Begins c ∧ isGap c = false := by
  simp only [List.mem_cons, List.not_mem_nil, or_false] at hc
  rcases hc with rfl | rfl | rfl <;> decide

/-- A field ends at a blank before the next one. -/
theorem ends_blank (h : ∀ c ∈ cs.head?, Begins c) : Ends (' ' :: cs) ∧ skipGap (' ' :: cs) = cs := by
  have hskip : skipGap (' ' :: cs) = cs :=
    (List.dropWhile_cons_of_pos (by rfl)).trans (skipGap_of_head fun c hc => (h c hc).isGap)
  refine ⟨⟨stops_cons (by decide) cs, fun c hc => ?_⟩, hskip⟩
  rw [hskip] at hc
  exact fun hmem => (not_begins_of_break hmem).1 (h c hc)

theorem Ends.head? {c : Char} (h : Ends r) (hc : c ∈ ['-', '/', ',']) : (skipGap r).head? ≠ some c :=
  fun heq => h.2 c heq hc

theorem length_le_further : ps.length ≤ (further ps).length := by
  induction ps with
  | nil => exact Nat.le_refl _
  | cons p ps ih =>
    rw [further, List.flatMap_cons, List.length_append, ← further, List.length_cons, List.length_cons]
    omega

/-- An item ends in front of the further items. -/
theorem further_append (ps : List (Item × List Char)) (hr : Ends r) : Stops (further ps ++ r) ∧
    (skipGap (further ps ++ r)).head? ≠ some '-' ∧ (skipGap (further ps ++ r)).head? ≠ some '/' := by
  cases ps with
  | nil => exact ⟨hr.1, hr.head? (by decide), hr.head? (by decide)⟩
  | cons p ps =>
    refine ⟨stops_cons (c := ',') (by decide) _, ?_, ?_⟩ <;>
    · rw [further, List.flatMap_cons, List.cons_append, List.cons_append, skipGap_of_head (by simp [isGap])]
      simp

theorem readMore_of_head (h : cs.head? ≠ some ',') (n : Nat) : readMore any n cs = ([], cs) := by
  cases n with
  | zero => rfl
  | succ n => rw [readMore, readChar_eq_none h, Option.bind_none]

theorem readMore_of_break {c : Char} (hc : c ∈ ['-', '/']) (h : cs.head? = some c) (n : Nat) :
    readMore any n cs = ([], cs) := by
  refine readMore_of_head (fun heq => ?_) n
  rw [Option.some.inj (h.symm.trans heq)] at hc
  exact absurd hc (by decide)

theorem readMore_comma (n : Nat) : readMore any (n + 1) (',' :: cs) =
    match readItem any cs with
    | none => ([], ',' :: cs)
    | some (x, r) => (x :: (readMore any n r).1, (readMore any n r).2) := by
  rw [readMore, readChar, if_pos rfl]
  rfl

/-- The further items are read one after the other. -/
theorem readMore_append (hps : ∀ p ∈ ps, p.1.Written any p.2) (hr : Ends r) {n : Nat} (hn : ps.length ≤ n)
    (hcs : Behind (further ps ++ r) cs) :
    (∃ r', readMore any n cs = (ps.map Prod.fst, r') ∧ Behind r r') ∨
      BreaksAt ['-', '/', ','] (some (readMore any n cs)) := by
  induction ps generalizing n cs with
  | nil => exact .inl ⟨cs, readMore_of_head (hcs.head rfl (hr.head? (by decide))) n, hcs⟩
  | cons p ps ih =>
    obtain ⟨hp, hps⟩ := List.forall_mem_cons.1 hps
    obtain ⟨n, rfl⟩ : ∃ m, n = m + 1 := ⟨n - 1, by rw [List.length_cons] at hn; omega⟩
    have hcs : cs = ',' :: (p.2 ++ (further ps ++ r)) := by
      rw [hcs.eq_of_head (by simp [further, isGap]), further, List.flatMap_cons, List.cons_append, List.cons_append,
        List.append_assoc]
      rfl
    rw [hcs, readMore_comma]
    obtain ⟨hstops, hdash, hslash⟩ := further_append ps hr
    rcases readItem_append hp hstops hdash hslash with ⟨-, r', hitem, hbehind⟩ | ⟨-, hbreak⟩
    · rw [hitem]
      rcases ih hps (Nat.le_of_succ_le_succ hn) hbehind with ⟨r'', hmore, hbehind'⟩ | hbreak
      · refine .inl ⟨r'', ?_, hbehind'⟩
        simp only [hmore, List.map_cons]
      · obtain ⟨c, hc, hhead⟩ := hbreak _ _ rfl
        exact .inr (breaksAt_some hc hhead)
    · right
      cases hitem : readItem any (p.2 ++ (further ps ++ r)) with
      | none => exact breaksAt_some (c := ',') (by decide) rfl
      | some q =>
        obtain ⟨c, hc, hhead⟩ := hbreak q.1 q.2 hitem
        simp only [readMore_of_break hc hhead]
        exact breaksAt_some (List.mem_append_left [','] hc) hhead

theorem skipGap_of_break {c : Char} (hc : c ∈ ['-', '/', ',']) (hr : r.head? = some c) : skipGap r = r := by
  refine skipGap_of_head fun d hd => ?_
  obtain rfl := Option.some.inj (hr.symm.trans hd)
  exact (not_begins_of_break hc).2

/-- Where reading broke off, no field is read. -/
theorem readField_eq_none {c : Char} (hc : c ∈ ['-', '/', ',']) (hr : r.head? = some c) : readField any r = none := by
  rw [readField, skipGap_of_break hc hr, readItem_eq_none fun d hd => ?_]
  · rfl
  · obtain rfl := Option.some.inj (hr.symm.trans hd)
    exact not_begins_of_break hc

theorem readValues_eq_none {f : Field} (h : ∃ c ∈ ['-', '/', ','], r.head? = some c) : readValues f any r = none := by
  obtain ⟨c, hc, hr⟩ := h
  rw [readValues, readField_eq_none hc hr]
  rfl

end Fields

namespace FieldText

variable {any : Bool} {r : List Char} (w : FieldText any)

/-- A field of one item. -/
def one {i : Item} {cs : List Char} (h : i.Written any cs) : FieldText any where
  parts := [(i, cs)]
  ne_nil := List.cons_ne_nil _ _
  written p hp := by
    obtain rfl := List.mem_singleton.1 hp
    exact h

/-- The items of a field. -/
def items : List Item := w.parts.map Prod.fst

/-- The text of a field: its items between commas. -/
def text : List Char := [','].intercalate (w.parts.map Prod.snd)

theorem text_one {i : Item} {cs : List Char} (h : i.Written any cs) : (one h).text = cs := by
  simp [one, text]

theorem text_eq {p : Item × List Char} {ps : List (Item × List Char)} (h : w.parts = p :: ps) :
    w.text = p.2 ++ further ps := by
  rw [text, h]
  clear h
  induction ps generalizing p with
  | nil => simp [further, List.intercalate]
  | cons q ps ih =>
    rw [List.map_cons, List.map_cons, List.intercalate_cons_cons, ← List.map_cons, ih, further, further,
      List.flatMap_cons, List.append_assoc]
    rfl

/-- A field begins with an item. -/
theorem begins : ∀ c ∈ (w.text ++ r).head?, Begins c := by
  obtain ⟨p, ps, hparts⟩ := List.exists_cons_of_ne_nil w.ne_nil
  have hp := w.written p (hparts ▸ List.mem_cons_self)
  rw [w.text_eq hparts, List.append_assoc]
  exact hp.begins

/-- A field is read, if it ends. Where a number of it is too great, reading breaks off in front of a dash, a slash or a
comma. -/
theorem readField_append (hr : Ends r) :
    readField any (w.text ++ r) = some (w.items, skipGap r) ∨
      BreaksAt ['-', '/', ','] (readField any (w.text ++ r)) := by
  obtain ⟨p, ps, hparts⟩ := List.exists_cons_of_ne_nil w.ne_nil
  have hwritten := w.written
  rw [hparts] at hwritten
  obtain ⟨hp, hps⟩ := List.forall_mem_cons.1 hwritten
  rw [readField, skipGap_of_head fun c hc => (w.begins c hc).isGap, w.text_eq hparts, List.append_assoc, items, hparts]
  obtain ⟨hstops, hdash, hslash⟩ := further_append ps hr
  rcases readItem_append hp hstops hdash hslash with ⟨-, r', hitem, hbehind⟩ | ⟨-, hbreak⟩
  · have hfuel : ps.length ≤ r'.length := by
      cases ps with
      | nil => exact Nat.zero_le _
      | cons q ps =>
        rw [hbehind.eq_of_head (by simp [further, isGap]), List.length_append]
        exact Nat.le_add_right_of_le length_le_further
    rw [hitem, Option.map_some]
    rcases readMore_append hps hr hfuel hbehind with ⟨r'', hmore, hbehind'⟩ | hbreak
    · simp only [hmore, hbehind'.skipGap_eq]
      exact .inl rfl
    · obtain ⟨c, hc, hhead⟩ := hbreak _ _ rfl
      exact .inr (breaksAt_some hc ((skipGap_of_break hc hhead).symm ▸ hhead))
  · right
    cases hitem : readItem any (p.2 ++ (further ps ++ r)) with
    | none => exact breaksAt_none
    | some q =>
      obtain ⟨c, hc, hhead⟩ := hbreak q.1 q.2 hitem
      have hc' : c ∈ ['-', '/', ','] := List.mem_append_left [','] hc
      simp only [Option.map_some, readMore_of_break hc hhead]
      exact breaksAt_some hc' ((skipGap_of_break hc' hhead).symm ▸ hhead)

/-- A field at the front of a text from which a result is read has been read to its end, unless the result can be read
from a text that begins with a dash, a slash or a comma. -/
theorem of_readValues {β : Type} {f : Field} {k : List Nat × List Char → Option β} {b : β} (hr : Ends r)
    (hk : ∀ vs r', (∃ c ∈ ['-', '/', ','], r'.head? = some c) → k (vs, r') = none)
    (h : (readValues f any (w.text ++ r)).bind k = some b) :
    ∃ vs, values? f w.items = some vs ∧ k (vs, skipGap r) = some b := by
  obtain ⟨⟨vs, r'⟩, hvalues, hb⟩ := Option.bind_eq_some_iff.1 h
  obtain ⟨⟨items, r''⟩, hfield, hvalues⟩ := Option.bind_eq_some_iff.1 hvalues
  obtain ⟨vs', hvs, heq⟩ := Option.bind_eq_some_iff.1 hvalues
  obtain ⟨rfl, rfl⟩ := Prod.mk.inj (Option.some.inj heq)
  rcases w.readField_append hr with hread | hbreak
  · rw [hread] at hfield
    obtain ⟨rfl, rfl⟩ := Prod.mk.inj (Option.some.inj hfield)
    exact ⟨vs', hvs, hb⟩
  · rw [hk vs' r'' (hbreak _ _ hfield)] at hb
    cases hb

end FieldText

end Rota.Cron
