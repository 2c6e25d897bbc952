import Rota.Proofs.DayItems

/-!
# Which days of the week are accepted

In an expression of five fields the items of the last one are renumbered or passed on to the grammar of six fields. Of
an expression whose other fields are stars, acceptance is a matter of these items.

- renumbering adds days that are taken, so a field is accepted if each of its items is (`Cron.read_onDays_renumber`,
  `Recurring.acceptanceLaw`);
- a step of more than 8 bits from Sunday is refused, though well formed, and a plus sign is accepted, though malformed
  (`Recurring.acceptance_strays`).
-/

namespace Rota

namespace Cron

/-! ## Expressions -/

/-- The days from 1 to 7 to which the numeric items of a field are renumbered. -/
def renumberedDays (w : List Char) : List Nat :=
  (List.range' 1 7).filter fun d => ((Text.pieces ',' w).filterMap Weekday.stride?).any (Weekday.meets · d)

/-- The items of a field that are not renumbered. -/
def passedOn (w : List Char) : List (List Char) := (Text.pieces ',' w).filter fun p => (Weekday.stride? p).isNone

section Fields

variable {w : List Char}

theorem renumber_eq (hstar : w ≠ ['*']) (hmark : w ≠ ['?']) :
    Weekday.renumber w = [','].intercalate ((renumberedDays w).map (fun d => (toString d).toList) ++ passedOn w) :=
  if_neg (not_or.2 ⟨hstar, hmark⟩)

theorem renumbered_ne_nil : (renumberedDays w).map (fun d => (toString d).toList) ++ passedOn w ≠ [] := by
  obtain ⟨p, hp⟩ := List.exists_mem_of_ne_nil _ (Text.pieces_ne_nil ',' w)
  cases hstride : Weekday.stride? p with
  | none =>
    exact List.ne_nil_of_mem (List.mem_append_right _ (List.mem_filter.2 ⟨hp, by rw [hstride]; rfl⟩))
  | some t =>
    obtain ⟨-, -, -, hle, hlast, -⟩ := stride?_eq_some hstride
    have hmeets : Weekday.meets t (t.first % 7 + 1) = true :=
      (Weekday.meets_iff hlast).2 ⟨t.first, Nat.le_refl _, hle, by simp, rfl⟩
    have hday : t.first % 7 + 1 ∈ renumberedDays w := by
      refine List.mem_filter.2 ⟨List.mem_range'_1.2 (by omega), List.any_eq_true.2 ⟨t, ?_, hmeets⟩⟩
      exact List.mem_filterMap.2 ⟨p, hp, hstride⟩
    exact List.ne_nil_of_mem (List.mem_append_left _ (List.mem_map_of_mem hday))

theorem readItem_day (d : Nat) (hd : d < UInt32.size) :
    readItem true (toString d).toList = some (.range (.point d), []) :=
  readItem_written (.range (.point (isNumber_decimal d))) hd

theorem isPiece_decimal (d : Nat) : IsPiece (toString d).toList :=
  ⟨fun _ hc => isGap_eq_false_of_isDigit (Text.isDigit_of_mem_decimal hc),
    fun hmem => absurd (Text.isDigit_of_mem_decimal hmem) (by decide)⟩

/-- Days that are read to their ends may stand in front. -/
theorem yearsFollow_append {days others : List (List Char)} (hdays : ∀ p ∈ days, Takes .weekday true p) :
    YearsFollow (days ++ others) ↔ YearsFollow others := by
  constructor
  · rintro ⟨before, p, after, i, t, q, heq, hbefore, hread, ht, hyears⟩
    have hrest : p ∉ days := fun hp => by
      obtain ⟨j, u, hj, -⟩ := hdays p hp
      obtain ⟨-, rfl⟩ := Prod.mk.inj (Option.some.inj (hread.symm.trans hj))
      obtain ⟨k, v, hk, -⟩ := hyears [] List.mem_cons_self
      cases hk
    rcases List.append_eq_append_iff.1 heq with ⟨before', rfl, hothers⟩ | ⟨days', rfl, hothers⟩
    · exact ⟨before', p, after, i, t, q, hothers, fun a ha => hbefore a (List.mem_append_right _ ha), hread, ht, hyears⟩
    · cases days' with
      | nil => exact ⟨[], p, after, i, t, q, hothers.symm, List.forall_mem_nil _, hread, ht, hyears⟩
      | cons d days' =>
        obtain ⟨rfl, -⟩ := List.cons.inj hothers
        exact absurd (List.mem_append_right _ List.mem_cons_self) hrest
  · rintro ⟨before, p, after, i, t, q, rfl, hbefore, hlast⟩
    exact ⟨days ++ before, p, after, i, t, q, (List.append_assoc _ _ _).symm,
      fun a ha => (List.mem_append.1 ha).elim (hdays a) (hbefore a), hlast⟩

/-- A star or a question mark alone is a list of one item. -/
theorem takes_of_alone (h : w = ['*'] ∨ w = ['?']) :
    Text.pieces ',' w = [w] ∧ IsPiece w ∧ Takes .weekday true w := by
  rcases h with rfl | rfl
  · exact ⟨rfl, ⟨by simp [Gapless, isGap], by decide⟩, .range .all, _, readItem_written (.range .star) trivial, rfl⟩
  · exact ⟨rfl, ⟨by simp [Gapless, isGap], by decide⟩, .range .all, _, readItem_written (.range (.mark rfl)) trivial,
      rfl⟩

/-- A renumbered field is accepted if each of its items is, or if years follow those that are passed on. -/
theorem read_onDays_renumber (hw : Gapless w) :
    (∃ s, Schedule.read (onDays (Weekday.renumber w)) = some s) ↔
      (∀ p ∈ Text.pieces ',' w, Passes p) ∨ YearsFollow (passedOn w) := by
  have hpiece : ∀ p ∈ Text.pieces ',' w, IsPiece p := fun p hp => isPiece_of_mem_pieces hw hp
  by_cases halone : w = ['*'] ∨ w = ['?']
  · obtain ⟨hpieces, hp, htakes⟩ := takes_of_alone halone
    rw [Weekday.renumber, if_pos halone, hpieces, List.forall_mem_singleton]
    exact iff_of_true ((read_onDays_piece hp).2 (.inl htakes)) (.inl ((passes_iff hp).1 (.inr htakes)))
  · obtain ⟨hstar, hmark⟩ := not_or.1 halone
    have hdays : ∀ p ∈ (renumberedDays w).map fun d => (toString d).toList, IsPiece p ∧ Takes .weekday true p := by
      intro p hp
      obtain ⟨d, hd, rfl⟩ := List.mem_map.1 hp
      obtain ⟨hlo, hhi⟩ := List.mem_range'_1.1 (List.mem_filter.1 hd).1
      have hlimits : Field.weekday.lo ≤ d ∧ d ≤ Field.weekday.hi := ⟨hlo, Nat.le_of_lt_succ hhi⟩
      refine ⟨isPiece_decimal d, .range (.point d), ⟨d, d, 1⟩, readItem_day d (Nat.lt_trans hhi (by decide)), ?_⟩
      rw [Item.stride?, Range.ends?, Field.within?, if_pos hlimits]
      rfl
    have hpassed : ∀ p ∈ passedOn w, IsPiece p := fun p hp => hpiece p (List.mem_filter.1 hp).1
    rw [renumber_eq hstar hmark, read_onDays_iff renumbered_ne_nil fun p hp =>
      (List.mem_append.1 hp).elim (fun hp => (hdays p hp).1) (hpassed p), yearsFollow_append fun p hp => (hdays p hp).2]
    refine or_congr_left ?_
    rw [List.forall_mem_append]
    constructor
    · rintro ⟨-, htakes⟩ p hp
      refine (passes_iff (hpiece p hp)).1 ?_
      cases hstride : Weekday.stride? p with
      | some t => exact .inl ⟨t, rfl⟩
      | none => exact .inr (htakes p (List.mem_filter.2 ⟨hp, by rw [hstride]; rfl⟩))
    · intro hall
      refine ⟨fun p hp => (hdays p hp).2, fun p hp => ?_⟩
      obtain ⟨hp, hnone⟩ := List.mem_filter.1 hp
      refine ((passes_iff (hpiece p hp)).2 (hall p hp)).resolve_left ?_
      rintro ⟨t, ht⟩
      rw [ht] at hnone
      cases hnone

end Fields

end Cron

namespace Recurring

open Cron (IsNumeric IsNamed IsOverlong IsSigned Passes YearsFollow passedOn)

/-- A well-formed field of days of the week: a star or a question mark, or a list of numeric items and items without
numbers of days. -/
def StandardDays (w : List Char) : Prop :=
  w = ['*'] ∨ w = ['?'] ∨ ∀ p ∈ Text.pieces ',' w, IsNumeric p ∨ IsNamed p

/-- Which fields of days of the week are accepted in an expression whose other fields are stars. -/
structure AcceptanceLaw (w : List Char) (e : String) : Prop where
  /-- The well-formed lists are accepted whose steps are read, and those with signs, and those that go on with years. -/
  accepts : Accepts e ↔ (∀ p ∈ Text.pieces ',' w, Passes p) ∨ YearsFollow (passedOn w)
  /-- Without such steps, signs and years exactly the well-formed fields are accepted. -/
  standard : (∀ p ∈ Text.pieces ',' w, ¬ IsOverlong p ∧ ¬ IsSigned p) → ¬ YearsFollow (passedOn w) →
    (Accepts e ↔ StandardDays w)

/-- Every field of days of the week obeys the law. -/
theorem acceptanceLaw {w : List Char} {e : String} (hw : Text.words e.toList = [['*'], ['*'], ['*'], ['*'], w]) :
    AcceptanceLaw w e := by
  have hmem : w ∈ Text.words e.toList := by
    rw [hw]
    simp
  have hgapless := Cron.gapless_of_mem_words hmem
  have htext : Cron.normalize e.toList = Cron.onDays (Cron.Weekday.renumber w) := by
    rw [Cron.normalize, hw]
    simp [List.intercalate, Cron.onDays]
  have haccepts : Accepts e ↔ (∀ p ∈ Text.pieces ',' w, Passes p) ∨ YearsFollow (passedOn w) := by
    rw [accepts_iff_isSome, Option.isSome_iff_exists, Cron.Schedule.ofExpression?, htext]
    exact Cron.read_onDays_renumber hgapless
  refine ⟨haccepts, fun hplain hyears => ?_⟩
  rw [haccepts, or_iff_left hyears]
  have hpasses : ∀ p ∈ Text.pieces ',' w, Passes p ↔ IsNumeric p ∨ IsNamed p := fun p hp =>
    ⟨fun h => (h.resolve_right (hplain p hp).2).1, fun h => .inl ⟨h, (hplain p hp).1⟩⟩
  constructor
  · exact fun h => .inr (.inr fun p hp => (hpasses p hp).1 (h p hp))
  · intro hdays p hp
    rcases or_assoc.2 hdays with halone | hall
    · obtain ⟨hpieces, hpiece, htakes⟩ := Cron.takes_of_alone halone
      rw [hpieces, List.mem_singleton] at hp
      rw [hp]
      exact (Cron.passes_iff hpiece).1 (.inr htakes)
    · exact (hpasses p hp).2 (hall p hp)

/-- A step of more than 8 bits over days from 1 is read by the grammar. -/
theorem acceptanceLaw_slow :
    Text.words "* * * * 1-5/300,sat".toList = [['*'], ['*'], ['*'], ['*'], "1-5/300,sat".toList] ∧
      ((∀ p ∈ Text.pieces ',' "1-5/300,sat".toList, Passes p) ∨ YearsFollow (passedOn "1-5/300,sat".toList)) := by
  have hw : Text.words "* * * * 1-5/300,sat".toList = [['*'], ['*'], ['*'], ['*'], "1-5/300,sat".toList] := by
    decide +kernel
  exact ⟨hw, (acceptanceLaw hw).accepts.1 (accepts_iff_isSome.2 (by decide +kernel))⟩

/-- Every 300th day from Sunday is well formed but refused, and a day with a sign is malformed but accepted. -/
theorem acceptance_strays :
    StandardDays "0/300".toList ∧ ¬ Accepts "* * * * 0/300" ∧ ¬ StandardDays "+1".toList ∧ Accepts "* * * * +1" ∧
      ¬ ∀ (e : String) (w : List Char), Text.words e.toList = [['*'], ['*'], ['*'], ['*'], w] →
        (Accepts e ↔ StandardDays w) := by
  have hslow : StandardDays "0/300".toList := by
    have hitem : IsNumeric ['0', '/', '3', '0', '0'] :=
      ⟨.every (.point 0) 300, .every (.point (Cron.isNumber_decimal 0)) (Cron.isNumber_decimal 300), Nat.zero_le 7,
        by decide⟩
    refine .inr (.inr fun p hp => .inl ?_)
    obtain rfl := List.mem_singleton.1 hp
    exact hitem
  have hrefused : parse "* * * * 0/300" = .error (.invalidCron "* * * * 0/300" malformed) := by decide +kernel
  have hsigned : ¬ StandardDays "+1".toList := by
    rintro (h | h | h)
    · cases h
    · cases h
    · exact Cron.not_standard_of_isSigned ⟨by decide, ⟨1, 1, 1⟩, by decide⟩ (h ['+', '1'] (by decide))
  have haccepted : Accepts "* * * * +1" := accepts_iff_isSome.2 (by decide +kernel)
  refine ⟨hslow, not_accepts_of_error hrefused, hsigned, haccepted, fun h => ?_⟩
  exact hsigned ((h "* * * * +1" "+1".toList (by decide +kernel)).1 haccepted)

end Recurring

end Rota
