/-!
# Blanks, words and pieces

Text is read as a list of characters. A blank is a character with the Unicode property White_Space. `trim` takes the
blanks off both ends, `words` cuts a text at its blanks and `pieces` cuts it at every occurrence of one character.

- words hold no blank (`not_isBlank_of_mem_words`) and none is empty (`ne_nil_of_mem_words`);
- joining the pieces gives the text back (`intercalate_pieces`), and what was joined is cut into the same pieces
  (`pieces_intercalate`).
-/

namespace Rota.Text

/-! ## Blanks -/

/-- The characters with the Unicode property White_Space. -/
def isBlank (c : Char) : Bool :=
  let n := c.toNat
  (9 ≤ n && n ≤ 13) || n == 0x20 || n == 0x85 || n == 0xA0 || n == 0x1680 || (0x2000 ≤ n && n ≤ 0x200A) ||
    n == 0x2028 || n == 0x2029 || n == 0x202F || n == 0x205F || n == 0x3000

/-- The text without the blanks at its ends. -/
def trim (cs : List Char) : List Char := ((cs.dropWhile isBlank).reverse.dropWhile isBlank).reverse

/-! ## Words -/

/-- Puts a character in front of the first part of a cut text. -/
def extend (c : Char) : List (List Char) → List (List Char)
  | [] => [[c]]
  | p :: ps => (c :: p) :: ps

/-- The longest runs of characters that are not blank. -/
def words : List Char → List (List Char)
  | [] => []
  | [c] => if isBlank c then [] else [[c]]
  | c :: d :: cs =>
    if isBlank c then words (d :: cs) else if isBlank d then [c] :: words (d :: cs) else extend c (words (d :: cs))

theorem mem_extend {c : Char} {ps : List (List Char)} {w : List Char} (h : w ∈ extend c ps) :
    w ∈ ps ∨ w = [c] ∨ ∃ p ∈ ps, w = c :: p := by
  cases ps with
  | nil => exact Or.inr (Or.inl (List.mem_singleton.mp h))
  | cons p ps =>
    rcases List.mem_cons.mp h with h | h
    · exact Or.inr (Or.inr ⟨p, List.mem_cons_self, h⟩)
    · exact Or.inl (List.mem_cons_of_mem _ h)

/-- No word is empty. -/
theorem ne_nil_of_mem_words {cs w : List Char} (h : w ∈ words cs) : w ≠ [] := by
  fun_induction words cs with
  | case1 => cases h
  | case2 => cases h
  | case3 c hc => simp_all
  | case4 c d cs hc ih => exact ih h
  | case5 c d cs hc hd ih =>
    rcases List.mem_cons.mp h with rfl | h
    · exact List.cons_ne_nil _ _
    · exact ih h
  | case6 c d cs hc hd ih =>
    rcases mem_extend h with h | rfl | ⟨p, _, rfl⟩
    · exact ih h
    · exact List.cons_ne_nil _ _
    · exact List.cons_ne_nil _ _

/-- No word holds a blank. -/
theorem not_isBlank_of_mem_words {cs w : List Char} (h : w ∈ words cs) : ∀ c ∈ w, isBlank c = false := by
  fun_induction words cs generalizing w with
  | case1 => cases h
  | case2 => cases h
  | case3 c hc => simp_all
  | case4 c d cs hc ih => exact ih h
  | case5 c d cs hc hd ih =>
    rcases List.mem_cons.mp h with rfl | h
    · simpa using hc
    · exact ih h
  | case6 c d cs hc hd ih =>
    rcases mem_extend h with h | rfl | ⟨p, hp, rfl⟩
    · exact ih h
    · simpa using hc
    · intro x hx
      rcases List.mem_cons.mp hx with rfl | hx
      · simpa using hc
      · exact ih hp x hx

/-! ## Pieces -/

/-- The parts of a text between the occurrences of a character; a text without it is one piece. -/
def pieces (sep : Char) : List Char → List (List Char)
  | [] => [[]]
  | c :: cs => if c = sep then [] :: pieces sep cs else extend c (pieces sep cs)

theorem pieces_ne_nil (sep : Char) : ∀ cs, pieces sep cs ≠ []
  | [] => by simp [pieces]
  | c :: cs => by
    rw [pieces]
    split
    · exact List.cons_ne_nil _ _
    · cases h : pieces sep cs with
      | nil => exact absurd h (pieces_ne_nil sep cs)
      | cons p ps => exact List.cons_ne_nil _ _

/-- Joining the pieces gives the text back. -/
theorem intercalate_pieces (sep : Char) : ∀ cs, [sep].intercalate (pieces sep cs) = cs
  | [] => rfl
  | c :: cs => by
    have ih := intercalate_pieces sep cs
    rw [pieces]
    cases hp : pieces sep cs with
    | nil => exact absurd hp (pieces_ne_nil sep cs)
    | cons p ps =>
      rw [hp] at ih
      split
      · rename_i h
        subst h
        simpa [List.intercalate] using ih
      · cases ps with
        | nil => simpa [extend, List.intercalate] using ih
        | cons q qs => simpa [extend, List.intercalate] using ih

/-- No piece holds the character at which the text is cut. -/
theorem sep_not_mem_of_mem_pieces {sep : Char} {cs p : List Char} (h : p ∈ pieces sep cs) : sep ∉ p := by
  induction cs generalizing p with
  | nil =>
    rw [List.mem_singleton.1 h]
    exact List.not_mem_nil
  | cons d cs ih =>
    rw [pieces] at h
    split at h
    next =>
      rcases List.mem_cons.1 h with rfl | h
      · exact List.not_mem_nil
      · exact ih h
    next hne =>
      have hd : sep ∉ [d] := fun hmem => hne (List.mem_singleton.1 hmem).symm
      rcases mem_extend h with h | rfl | ⟨q, hq, rfl⟩
      · exact ih h
      · exact hd
      · exact fun hmem => (List.mem_cons.1 hmem).elim (fun heq => hne heq.symm) (ih hq)

theorem mem_of_mem_pieces {sep c : Char} {cs p : List Char} (h : p ∈ pieces sep cs) (hc : c ∈ p) : c ∈ cs := by
  induction cs generalizing p with
  | nil =>
    rw [List.mem_singleton.1 h] at hc
    exact hc
  | cons d cs ih =>
    rw [pieces] at h
    split at h
    next =>
      rcases List.mem_cons.1 h with rfl | h
      · cases hc
      · exact List.mem_cons_of_mem d (ih h hc)
    next =>
      rcases mem_extend h with h | rfl | ⟨q, hq, rfl⟩
      · exact List.mem_cons_of_mem d (ih h hc)
      · exact List.mem_cons.2 (.inl (List.mem_singleton.1 hc))
      · rcases List.mem_cons.1 hc with rfl | hc
        · exact List.mem_cons_self
        · exact List.mem_cons_of_mem d (ih hq hc)

theorem pieces_of_not_mem {sep : Char} {cs : List Char} (h : sep ∉ cs) : pieces sep cs = [cs] := by
  induction cs with
  | nil => rfl
  | cons c cs ih =>
    rw [List.mem_cons, not_or] at h
    rw [pieces, if_neg (Ne.symm h.1), ih h.2, extend]

theorem pieces_append {sep : Char} {a : List Char} (h : sep ∉ a) (cs : List Char) :
    pieces sep (a ++ sep :: cs) = a :: pieces sep cs := by
  induction a with
  | nil => exact if_pos rfl
  | cons c a ih =>
    rw [List.mem_cons, not_or] at h
    rw [List.cons_append, pieces, if_neg (Ne.symm h.1), ih h.2, extend]

/-- Texts that were joined are the pieces of what they were joined to. -/
theorem pieces_intercalate {sep : Char} {ps : List (List Char)} (hne : ps ≠ []) (h : ∀ p ∈ ps, sep ∉ p) :
    pieces sep ([sep].intercalate ps) = ps := by
  induction ps with
  | nil => exact absurd rfl hne
  | cons p ps ih =>
    obtain ⟨hp, hps⟩ := List.forall_mem_cons.1 h
    cases ps with
    | nil => simpa using pieces_of_not_mem hp
    | cons q ps =>
      rw [List.intercalate_cons_cons, List.append_assoc, List.singleton_append, pieces_append hp,
        ih (List.cons_ne_nil _ _) hps]

/-- The text before and after the first occurrence of a character. -/
def splitFirst (sep : Char) : List Char → Option (List Char × List Char)
  | [] => none
  | c :: cs => if c = sep then some ([], cs) else (splitFirst sep cs).map fun (a, b) => (c :: a, b)

/-- The two parts around the first occurrence of a character, which the first part does not hold. -/
theorem splitFirst_eq_some_iff {sep : Char} {cs a b : List Char} :
    splitFirst sep cs = some (a, b) ↔ cs = a ++ sep :: b ∧ sep ∉ a := by
  induction cs generalizing a with
  | nil => simp [splitFirst]
  | cons c cs ih =>
    rw [splitFirst]
    by_cases h : c = sep
    · rw [if_pos h, Option.some.injEq, Prod.mk.injEq]
      constructor
      · rintro ⟨rfl, rfl⟩
        exact ⟨by rw [h]; rfl, List.not_mem_nil⟩
      · rintro ⟨he, hn⟩
        cases a with
        | nil => exact ⟨rfl, (List.cons.inj he).2⟩
        | cons x a =>
          obtain ⟨rfl, _⟩ := List.cons.inj he
          exact absurd (h ▸ List.mem_cons_self) hn
    · rw [if_neg h, Option.map_eq_some_iff]
      constructor
      · rintro ⟨⟨x, y⟩, hxy, he⟩
        obtain ⟨rfl, rfl⟩ := Prod.mk.inj he
        obtain ⟨rfl, hn⟩ := ih.mp hxy
        exact ⟨rfl, fun hm => (List.mem_cons.mp hm).elim (fun e => h e.symm) hn⟩
      · rintro ⟨he, hn⟩
        cases a with
        | nil => exact absurd (List.cons.inj he).1 h
        | cons x a =>
          obtain ⟨rfl, rfl⟩ := List.cons.inj he
          exact ⟨(a, b), ih.mpr ⟨rfl, fun hm => hn (List.mem_cons_of_mem _ hm)⟩, rfl⟩

theorem splitFirst_append {sep : Char} {a : List Char} (h : sep ∉ a) (b : List Char) :
    splitFirst sep (a ++ sep :: b) = some (a, b) := splitFirst_eq_some_iff.2 ⟨rfl, h⟩

theorem splitFirst_eq_none {sep : Char} {cs : List Char} (h : sep ∉ cs) : splitFirst sep cs = none := by
  cases hsplit : splitFirst sep cs with
  | none => rfl
  | some p =>
    rw [(splitFirst_eq_some_iff.1 hsplit).1] at h
    exact absurd (List.mem_append_right _ List.mem_cons_self) h

end Rota.Text
