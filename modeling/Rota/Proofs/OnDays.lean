import Rota.Proofs.Reading
import Rota.Proofs.Validation
import Rota.Proofs.Weekdays

/-!
# Six fields with a list of days

Of six fields that are stars but for the days of the week, acceptance is a matter of the items of the list of days: they
are accepted if the grammar takes each of them, or if years follow at once (`Cron.read_onDays_iff`).
-/

namespace Rota

namespace Cron

theorem isBlank_of_isGap {c : Char} (h : isGap c = true) : Text.isBlank c = true := by
  simp only [isGap, Bool.or_eq_true, beq_iff_eq] at h
  rcases h with ((rfl | rfl) | rfl) | rfl <;> decide

theorem gapless_of_mem_words {cs w : List Char} (h : w ∈ Text.words cs) : Gapless w := by
  intro c hc
  rw [Bool.eq_false_iff]
  intro hgap
  have hblank := Text.not_isBlank_of_mem_words h c hc
  rw [isBlank_of_isGap hgap] at hblank
  cases hblank

theorem isPiece_of_mem_pieces {w p : List Char} (hw : Gapless w) (hp : p ∈ Text.pieces ',' w) : IsPiece p :=
  ⟨fun c hc => hw c (Text.mem_of_mem_pieces hp hc), Text.sep_not_mem_of_mem_pieces hp⟩

/-! ## Six fields -/

/-- The six fields that allow each minute on some days of the week. -/
def onDays (days : List Char) : List Char := ['0', ' ', '*', ' ', '*', ' ', '*', ' ', '*', ' '] ++ days

/-- Behind the items of days a list goes on at once with years. -/
def YearsFollow (ps : List (List Char)) : Prop :=
  ∃ before p after i t q, ps = before ++ p :: after ∧ (∀ a ∈ before, Takes .weekday true a) ∧
    readItem true p = some (i, q) ∧ i.stride? .weekday = some t ∧ ∀ y ∈ q :: after, Takes .year false y

theorem readField_star (any : Bool) (r : List Char) :
    readField any ('*' :: ' ' :: r) = some ([.range .all], skipGap r) := rfl

theorem readValues_star (f : Field) (any : Bool) (r : List Char) :
    readValues f any ('*' :: ' ' :: r) = (values? f [.range .all]).map fun vs => (vs, skipGap r) := by
  rw [readValues, readField_star, Option.map_eq_bind]
  rfl

theorem exists_finish_iff {make : List Nat → Schedule} {r : List Char} : (∃ s, Schedule.finish make r = some s) ↔
    r = [] ∨ ∃ ys, readValues .year false r = some (ys, []) := by
  cases h : readValues .year false r with
  | none => simp [Schedule.finish, h]
  | some y =>
    obtain ⟨ys, r'⟩ := y
    cases r' with
    | nil => simp [Schedule.finish, h]
    | cons c r' =>
      have hne : r ≠ [] := by
        rintro rfl
        cases h
      simp [Schedule.finish, h, hne]

theorem read_onDays {days : List Char} (hdays : Gapless days) : (∃ s, Schedule.read (onDays days) = some s) ↔
    ∃ vs r, readValues .weekday true days = some (vs, r) ∧
      (r = [] ∨ ∃ ys, readValues .year false r = some (ys, [])) := by
  have hzero : ∀ r, readValues .second false ('0' :: ' ' :: '*' :: r) = some ([0], '*' :: r) := fun r => rfl
  have hstar : ∀ (f : Field) (any : Bool), ∃ vs, ∀ r, readValues f any ('*' :: ' ' :: r) = some (vs, skipGap r) := by
    intro f any
    obtain ⟨vs, hvs⟩ : ∃ vs, values? f [.range .all] = some vs := exists_values?_iff.2 fun i hi => by
      rw [List.mem_singleton.1 hi]
      exact ⟨_, rfl⟩
    exact ⟨vs, fun r => by rw [readValues_star, hvs]; rfl⟩
  have hskip : ∀ r, skipGap ('*' :: r) = '*' :: r := fun r => rfl
  obtain ⟨minutes, hminutes⟩ := hstar .minute false
  obtain ⟨hours, hhours⟩ := hstar .hour false
  obtain ⟨monthDays, hmonthDays⟩ := hstar .day true
  obtain ⟨months, hmonths⟩ := hstar .month false
  have hread : Schedule.read (onDays days) = (readValues .weekday true days).bind fun y =>
      Schedule.finish (.mk [0] minutes hours monthDays months y.1) y.2 := by
    rw [onDays, List.cons_append, Schedule.read_of_digit rfl, Schedule.readFields_eq]
    simp only [List.cons_append, List.nil_append, hzero, hminutes, hhours, hmonthDays, hmonths, hskip, hdays.skipGap,
      Option.bind_some]
  rw [hread]
  constructor
  · rintro ⟨s, hs⟩
    obtain ⟨⟨vs, r⟩, hvs, hs⟩ := Option.bind_eq_some_iff.1 hs
    exact ⟨vs, r, hvs, exists_finish_iff.1 ⟨s, hs⟩⟩
  · rintro ⟨vs, r, hvs, hr⟩
    rw [hvs]
    exact exists_finish_iff.2 hr

/-- A list of days is accepted if all of its pieces are taken, or if years follow. -/
theorem read_onDays_iff {ps : List (List Char)} (hne : ps ≠ []) (hps : ∀ p ∈ ps, IsPiece p) :
    (∃ s, Schedule.read (onDays ([','].intercalate ps)) = some s) ↔
      (∀ p ∈ ps, Takes .weekday true p) ∨ YearsFollow ps := by
  have hgapless : Gapless ([','].intercalate ps) := by
    obtain ⟨p, ps, rfl⟩ := List.exists_cons_of_ne_nil hne
    obtain ⟨hp, hps⟩ := List.forall_mem_cons.1 hps
    rw [intercalate_cons]
    exact fun c hc => (List.mem_append.1 hc).elim (hp.1 c) (gapless_followers hps c)
  have hyears : ∀ qs : List (List Char), qs ≠ [] → (∀ q ∈ qs, IsPiece q) →
      ((∃ ys, readValues .year false ([','].intercalate qs) = some (ys, [])) ↔ ∀ q ∈ qs, Takes .year false q) := by
    intro qs hne hqs
    have hiff : (∃ ys r, readValues .year false ([','].intercalate qs) = some (ys, r) ∧ r = []) ↔
        Divides .year false (· = []) qs :=
      exists_readValues_iff (fun r hr => by simp [hr]) hne hqs
    constructor
    · rintro ⟨ys, hread⟩
      rcases hiff.1 ⟨ys, [], hread, rfl⟩ with ⟨hall, -⟩ | ⟨_, p, after, _, _, q, _, _, _, _, hq, hnil⟩
      · exact hall
      · rw [intercalate_cons, List.append_eq_nil_iff] at hnil
        exact absurd hnil.1 hq
    · intro hall
      obtain ⟨ys, r, hread, rfl⟩ := hiff.2 (.inl ⟨hall, rfl⟩)
      exact ⟨ys, hread⟩
  -- What is left of a piece, with the pieces behind it, is where the years are read.
  have hleft : ∀ {before p after : _} {i : Item} {q : List Char}, ps = before ++ p :: after →
      readItem true p = some (i, q) → ∀ y ∈ q :: after, IsPiece y := by
    rintro before p after i q rfl hread
    refine List.forall_mem_cons.2 ⟨(hps p (List.mem_append_right _ List.mem_cons_self)).rest hread, fun a ha => ?_⟩
    exact hps a (List.mem_append_right _ (List.mem_cons_of_mem p ha))
  rw [read_onDays hgapless, exists_readValues_iff ?_ hne hps]
  · constructor
    · rintro (⟨hall, -⟩ | ⟨before, p, after, i, t, q, heq, hbefore, hread, ht, hq, hrest⟩)
      · exact .inl hall
      · rcases hrest with hnil | hrest
        · rw [intercalate_cons, List.append_eq_nil_iff] at hnil
          exact absurd hnil.1 hq
        · exact .inr ⟨before, p, after, i, t, q, heq, hbefore, hread, ht,
            (hyears _ (List.cons_ne_nil _ _) (hleft heq hread)).1 hrest⟩
    · rintro (hall | ⟨before, p, after, i, t, q, heq, hbefore, hread, ht, hafter⟩)
      · exact .inl ⟨hall, .inl rfl⟩
      · refine .inr ⟨before, p, after, i, t, q, heq, hbefore, hread, ht, ?_,
          .inr ((hyears _ (List.cons_ne_nil _ _) (hleft heq hread)).2 hafter)⟩
        rintro rfl
        obtain ⟨j, u, hnil, -⟩ := hafter [] List.mem_cons_self
        cases hnil
  · rintro r (rfl | ⟨ys, hread⟩) hhead
    · cases hhead
    · rw [readValues_eq_none ⟨',', by decide, hhead⟩] at hread
      cases hread

/-- One item of days is accepted if it is taken, or if years follow. -/
theorem read_onDays_piece {p : List Char} (hp : IsPiece p) : (∃ s, Schedule.read (onDays p) = some s) ↔
    Takes .weekday true p ∨ YearsFollow [p] := by
  have hlist := read_onDays_iff (List.cons_ne_nil p []) (by simpa using hp)
  rwa [List.forall_mem_singleton, intercalate_cons, followers, List.flatMap_nil, List.append_nil] at hlist

end Cron

end Rota
