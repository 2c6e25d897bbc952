import Rota.Proofs.OnDays

/-!
# Items of days

In an expression of five fields an item of days is renumbered or passed on to the grammar of six fields. It is taken one
way or the other if it is numeric or without numbers of days and its step is read, or if it is numeric but for a plus
sign (`Cron.passes_iff`).
-/

namespace Rota

namespace Cron

/-! ## Numeric items and names -/

/-- The days of a range are numbers from 0 to 7, in order. -/
def Range.Numbered : Range → Prop
  | .all => True
  | .point n => n ≤ 7
  | .span a b => a ≤ b ∧ b ≤ 7
  | .names _ _ => False

/-- The days of an item are numbers from 0 to 7, in order and with a positive step. -/
def Item.Numbered : Item → Prop
  | .range x => x.Numbered
  | .every x s => x.Numbered ∧ 1 ≤ s
  | .name _ => False

/-- A range without numbers of days. -/
def Range.Unnumbered : Range → Prop
  | .point _ => False
  | .span _ _ => False
  | _ => True

/-- An item without numbers of days. -/
def Item.Unnumbered : Item → Prop
  | .range x => x.Unnumbered
  | .every x _ => x.Unnumbered
  | .name _ => True

/-- A range that begins with the day 0. -/
def Range.FromZero : Range → Prop
  | .point n => n = 0
  | .span a _ => a = 0
  | _ => False

/-- A step that is read neither for renumbering, where it has 8 bits, nor in a range from 1, where it has 32. -/
def Item.Overlong : Item → Prop
  | .every x s => UInt32.size ≤ s ∨ 255 < s ∧ x.FromZero
  | _ => False

/-- A numeric item: every day, a day or a range of days, with or without a step. -/
def IsNumeric (p : List Char) : Prop := ∃ i : Item, i.Written false p ∧ i.Numbered

/-- An item without numbers of days that the grammar of six fields accepts. -/
def IsNamed (p : List Char) : Prop :=
  ∃ i : Item, i.Written true p ∧ i.Unnumbered ∧ ∃ s, Schedule.read (onDays p) = some s

/-- A numeric item whose step is not read. -/
def IsOverlong (p : List Char) : Prop := ∃ i : Item, i.Written false p ∧ i.Overlong

/-- An item with a plus sign that is taken for a numeric one. -/
def IsSigned (p : List Char) : Prop := '+' ∈ p ∧ ∃ t, Weekday.stride? p = some t

/-- An item that is accepted, alone or in a list. -/
def Passes (p : List Char) : Prop := (IsNumeric p ∨ IsNamed p) ∧ ¬ IsOverlong p ∨ IsSigned p

section Items

variable {p cs ds : List Char} {i j : Item} {x : Range} {t : Stride} {a b n : Nat} {stepped : Bool}

theorem Range.Written.of_false (h : x.Written false cs) : x.Written true cs := by
  cases h with
  | star => exact .star
  | mark hany => cases hany
  | point hn => exact .point hn
  | span ha hb => exact .span ha hb
  | names ha hb => exact .names ha hb

theorem Item.Written.of_false (h : i.Written false p) : i.Written true p := by
  cases h with
  | range hx => exact .range hx.of_false
  | every hx hs => exact .every hx.of_false hs
  | name hcs => exact .name hcs

theorem takes_iff {f : Field} {any : Bool} (hp : Gapless p) :
    Takes f any p ↔ ∃ (i : Item) (t : Stride), i.Written any p ∧ i.Fits ∧ i.stride? f = some t := by
  constructor
  · rintro ⟨i, t, hread, ht⟩
    obtain ⟨q, hq, hwritten, hfits⟩ := (reads_readItem any).written hp hread
    rw [List.append_nil] at hq
    exact ⟨i, t, hq ▸ hwritten, hfits, ht⟩
  · rintro ⟨i, t, hi, hfits, ht⟩
    exact ⟨i, t, readItem_written hi hfits, ht⟩

theorem isNumber_of_byte? (h : Text.byte? ds = some n) (hplus : '+' ∉ ds) : IsNumber ds n ∧ n ≤ 255 := by
  rw [Text.byte?_of_head fun r hr => hplus (by rw [hr]; exact List.mem_cons_self)] at h
  obtain ⟨hdigits, hle⟩ := Option.filter_eq_some_iff.1 h
  obtain ⟨⟨hne, hall⟩, heq⟩ := Option.ite_none_right_eq_some.1 hdigits
  exact ⟨⟨⟨hne, List.all_eq_true.1 hall⟩, Option.some.inj heq⟩, of_decide_eq_true hle⟩

/-- What is taken for the days of a numeric item is written as a range, if it has no sign. -/
theorem written_of_base? (h : Weekday.base? stepped cs = some (a, b)) (hplus : '+' ∉ cs) :
    ∃ x : Range, x.Written false cs ∧ x.numericDays? stepped = some (a, b) := by
  rw [Weekday.base?] at h
  split at h
  next as bs hsplit =>
    obtain ⟨rfl, -⟩ := Text.splitFirst_eq_some_iff.1 hsplit
    obtain ⟨a', ha, h⟩ := Option.bind_eq_some_iff.1 h
    obtain ⟨b', hb, h⟩ := Option.bind_eq_some_iff.1 h
    cases h
    simp only [List.mem_append, List.mem_cons, not_or] at hplus
    obtain ⟨ha, hale⟩ := isNumber_of_byte? ha hplus.1
    obtain ⟨hb, hble⟩ := isNumber_of_byte? hb hplus.2.2
    exact ⟨.span a b, .span ha hb, if_pos ⟨hale, hble⟩⟩
  next =>
    split at h
    next hstar =>
      cases h
      exact ⟨.all, hstar ▸ .star, rfl⟩
    next =>
      obtain ⟨n, hn, heq⟩ := Option.map_eq_some_iff.1 h
      cases heq
      obtain ⟨hn, hle⟩ := isNumber_of_byte? hn hplus
      exact ⟨.point a, .point hn, if_pos hle⟩

theorem numbered_of_numericDays? (h : x.numericDays? stepped = some (a, b)) (hle : a ≤ b ∧ b ≤ 7) : x.Numbered := by
  cases x with
  | all => trivial
  | point n =>
    cases (Option.ite_none_right_eq_some.1 h).2
    exact Nat.le_trans hle.1 hle.2
  | span a b =>
    cases (Option.ite_none_right_eq_some.1 h).2
    exact hle
  | names as bs => cases h

/-- What is renumbered: days in order, with a step of 8 bits behind a slash or without one. -/
theorem stride?_eq_some (h : Weekday.stride? p = some t) : ∃ base stepped,
    Weekday.base? stepped base = some (t.first, t.last) ∧ t.first ≤ t.last ∧ t.last ≤ 7 ∧
      ((∃ ds, p = base ++ '/' :: ds ∧ Text.byte? ds = some t.step ∧ 0 < t.step) ∨ p = base) := by
  have hlast : ∀ {stepped base step}, (Weekday.base? stepped base).bind (fun y =>
      if y.1 ≤ y.2 ∧ y.2 ≤ 7 then some (⟨y.1, y.2, step⟩ : Stride) else none) = some t →
      Weekday.base? stepped base = some (t.first, t.last) ∧ t.first ≤ t.last ∧ t.last ≤ 7 ∧ t.step = step := by
    intro stepped base step h
    obtain ⟨⟨a, b⟩, hbase, h⟩ := Option.bind_eq_some_iff.1 h
    obtain ⟨hle, heq⟩ := Option.ite_none_right_eq_some.1 h
    obtain rfl := Option.some.inj heq
    exact ⟨hbase, hle.1, hle.2, rfl⟩
  unfold Weekday.stride? at h
  split at h
  next base ds hsplit =>
    obtain ⟨rfl, -⟩ := Text.splitFirst_eq_some_iff.1 hsplit
    obtain ⟨y, hy, h⟩ := Option.bind_eq_some_iff.1 h
    obtain ⟨step, hstep, rfl⟩ := Option.map_eq_some_iff.1 hy
    obtain ⟨hbase, hle, hle', rfl⟩ := hlast h
    obtain ⟨hbyte, hpos⟩ := Option.filter_eq_some_iff.1 hstep
    exact ⟨base, _, hbase, hle, hle', .inl ⟨ds, rfl, hbyte, of_decide_eq_true hpos⟩⟩
  next =>
    obtain ⟨hbase, hle, hle', -⟩ := hlast h
    exact ⟨p, _, hbase, hle, hle', .inr rfl⟩

/-- What is renumbered is numeric, if it has no sign. -/
theorem isNumeric_of_stride? (h : Weekday.stride? p = some t) (hplus : '+' ∉ p) : IsNumeric p := by
  obtain ⟨base, stepped, hbase, hle, hle', ⟨ds, rfl, hstep, hpos⟩ | rfl⟩ := stride?_eq_some h
  · simp only [List.mem_append, List.mem_cons, not_or] at hplus
    obtain ⟨x, hx, hdays⟩ := written_of_base? hbase hplus.1
    exact ⟨.every x t.step, .every hx (isNumber_of_byte? hstep hplus.2.2).1,
      numbered_of_numericDays? hdays ⟨hle, hle'⟩, hpos⟩
  · obtain ⟨x, hx, hdays⟩ := written_of_base? hbase hplus
    exact ⟨.range x, .range hx, numbered_of_numericDays? hdays ⟨hle, hle'⟩⟩

theorem not_isOverlong_of_stride? (h : Weekday.stride? p = some t) : ¬ IsOverlong p := by
  rintro ⟨i, hi, hover⟩
  cases hi with
  | range hx => cases hover
  | @every x s _ _ hx hs =>
    have hbyte : ¬ (0 < s ∧ s ≤ 255) := by
      rintro ⟨-, hle⟩
      rcases hover with hsize | ⟨hlong, -⟩
      · exact absurd (Nat.le_trans hsize hle) (by decide)
      · omega
    rw [stride?_of_every hx hs, if_neg hbyte] at h
    cases h
  | name hcs => cases hover

theorem base?_of_false (hx : x.Written false cs) : Weekday.base? stepped cs = x.numericDays? stepped := by
  have hbase : Weekday.base? stepped cs = x.numericDays? stepped ∨ x = .all ∧ Weekday.base? stepped cs = none :=
    base?_eq hx
  rcases hbase with h | ⟨rfl, hnone⟩
  · exact h
  · cases hx with
    | star => cases hnone
    | mark hany => cases hany

theorem exists_withStep? (hx : x.Written false cs) {s : Nat} (hdays : x.numericDays? stepped = some (a, b))
    (hle : a ≤ b ∧ b ≤ 7) : ∃ t, (Weekday.base? stepped cs).bind (withStep? s) = some t :=
  ⟨⟨a, b, s⟩, by rw [base?_of_false hx, hdays, Option.bind_some, withStep?, if_pos hle]⟩

theorem Range.Numbered.fits (hx : x.Numbered) : x.Fits := by
  cases x with
  | point n => exact Nat.lt_of_le_of_lt hx (by decide)
  | span a b => exact ⟨Nat.lt_of_le_of_lt (Nat.le_trans hx.1 hx.2) (by decide), Nat.lt_of_le_of_lt hx.2 (by decide)⟩
  | _ => trivial

/-- Days from 1 are those of the field. -/
theorem Range.Numbered.exists_ends? (hx : x.Numbered) (hzero : ¬ x.FromZero) : ∃ q, x.ends? .weekday = some q := by
  have hwithin : ∀ {n : Nat}, n ≠ 0 → n ≤ 7 → Field.weekday.within? n = some n := fun hne hle =>
    if_pos ⟨Nat.one_le_iff_ne_zero.2 hne, hle⟩
  cases x with
  | all => exact ⟨_, rfl⟩
  | point n => exact ⟨_, by rw [Range.ends?, hwithin hzero hx]; rfl⟩
  | span a b =>
    have hb : b ≠ 0 := fun hb => hzero (Nat.eq_zero_of_le_zero (hb ▸ hx.1))
    refine ⟨(a, b), ?_⟩
    simp only [Range.ends?, hwithin hzero (Nat.le_trans hx.1 hx.2), hwithin hb hx.2, Option.bind_eq_bind,
      Option.bind_some, if_pos hx.1]
  | names as bs => cases hx

/-- A numeric item that is not renumbered is taken by the grammar, unless its step is too great. -/
theorem stride?_or_takes (hi : i.Written false p) (hnumbered : i.Numbered) (hover : ¬ i.Overlong) :
    (∃ t, Weekday.stride? p = some t) ∨ Takes .weekday true p := by
  cases hi with
  | @range x _ hx =>
    rw [stride?_of_range hx]
    left
    cases x with
    | all => exact exists_withStep? hx rfl (by decide)
    | point n => exact exists_withStep? hx (if_pos (Nat.le_trans hnumbered (by decide))) ⟨Nat.le_refl n, hnumbered⟩
    | span a b =>
      exact exists_withStep? hx (if_pos ⟨Nat.le_trans (Nat.le_trans hnumbered.1 hnumbered.2) (by decide),
        Nat.le_trans hnumbered.2 (by decide)⟩) hnumbered
    | names as bs => cases hnumbered
  | @every x s cs ds hx hs =>
    obtain ⟨hrange, hpos⟩ := hnumbered
    obtain ⟨hsize, hzero⟩ := not_or.1 hover
    -- What the grammar takes, whatever the step is.
    have htakes : ¬ x.FromZero → Takes .weekday true (cs ++ '/' :: ds) := by
      intro hzero
      obtain ⟨q, hq⟩ := hrange.exists_ends? hzero
      have hstride : ∃ t, (Item.every x s).stride? .weekday = some t :=
        ⟨_, by rw [Item.stride?, if_neg (by omega), hq, Option.map_some]⟩
      obtain ⟨t, ht⟩ := hstride
      exact ⟨.every x s, t, readItem_written (.every hx.of_false hs) ⟨hrange.fits, Nat.lt_of_not_le hsize⟩, ht⟩
    by_cases hstep : s ≤ 255
    · rw [stride?_of_every hx hs, if_pos ⟨hpos, hstep⟩]
      cases x with
      | all => exact .inl (exists_withStep? hx rfl (by decide))
      | point n =>
        by_cases hsix : n ≤ 6
        · exact .inl (exists_withStep? hx (if_pos (Nat.le_trans hsix (by decide)))
            (show n ≤ 6 ∧ 6 ≤ 7 from ⟨hsix, by decide⟩))
        · exact .inr (htakes fun heq => hsix (heq ▸ Nat.zero_le 6))
      | span a b =>
        exact .inl (exists_withStep? hx (if_pos ⟨Nat.le_trans (Nat.le_trans hrange.1 hrange.2) (by decide),
          Nat.le_trans hrange.2 (by decide)⟩) hrange)
      | names as bs => cases hrange
    · exact .inr (htakes fun hfrom => hzero ⟨Nat.lt_of_not_le hstep, hfrom⟩)
  | name hcs => cases hnumbered

theorem Range.Written.cases_of_ends? (hx : x.Written true cs) {q : Nat × Nat} (hq : x.ends? .weekday = some q) :
    x.Unnumbered ∨ x.Written false cs ∧ x.Numbered := by
  cases hx with
  | star => exact .inl trivial
  | mark _ => exact .inl trivial
  | point hn => exact .inr ⟨.point hn, (ends?_point hq).2.2⟩
  | span ha hb => exact .inr ⟨.span ha hb, (ends?_span hq).2.2⟩
  | names _ _ => exact .inl trivial

theorem not_fromZero_of_ends? {q : Nat × Nat} (hq : x.ends? .weekday = some q) : ¬ x.FromZero := by
  intro hzero
  cases x with
  | point n =>
    obtain ⟨-, hlo : 1 ≤ n, -⟩ := ends?_point hq
    rw [hzero] at hlo
    cases hlo
  | span a b =>
    obtain ⟨-, hlo : 1 ≤ a, -⟩ := ends?_span hq
    rw [hzero] at hlo
    cases hlo
  | _ => cases hzero

/-- What the grammar takes is numeric or has no numbers of days, and its step is read. -/
theorem standard_of_takes (hp : IsPiece p) (h : Takes .weekday true p) :
    (IsNumeric p ∨ IsNamed p) ∧ ¬ IsOverlong p := by
  have hsix : ∃ s, Schedule.read (onDays p) = some s := (read_onDays_piece hp).2 (.inl h)
  obtain ⟨i, t, hread, ht⟩ := h
  obtain ⟨i', t', hi, hfits, -⟩ := (takes_iff hp.1).1 ⟨i, t, hread, ht⟩
  obtain rfl := eq_of_readItem hread hi
  constructor
  · cases hi with
    | range hx =>
      obtain ⟨q, hq, -⟩ := Option.map_eq_some_iff.1 ht
      rcases hx.cases_of_ends? hq with hx' | ⟨hx', hnumbered⟩
      · exact .inr ⟨_, .range hx, hx', hsix⟩
      · exact .inl ⟨_, .range hx', hnumbered⟩
    | every hx hs =>
      obtain ⟨hpos, ht⟩ := Option.ite_none_left_eq_some.1 ht
      obtain ⟨q, hq, -⟩ := Option.map_eq_some_iff.1 ht
      rcases hx.cases_of_ends? hq with hx' | ⟨hx', hnumbered⟩
      · exact .inr ⟨_, .every hx hs, hx', hsix⟩
      · exact .inl ⟨_, .every hx' hs, hnumbered, Nat.one_le_iff_ne_zero.2 hpos⟩
    | name hcs => exact .inr ⟨_, .name hcs, trivial, hsix⟩
  · rintro ⟨j, hj, hover⟩
    obtain rfl := eq_of_readItem hread hj.of_false
    cases j with
    | every x s =>
      obtain ⟨-, ht⟩ := Option.ite_none_left_eq_some.1 ht
      obtain ⟨q, hq, -⟩ := Option.map_eq_some_iff.1 ht
      rcases hover with hsize | ⟨-, hzero⟩
      · exact absurd hfits.2 (Nat.not_lt.2 hsize)
      · exact not_fromZero_of_ends? hq hzero
    | range x => cases hover
    | name cs => cases hover

/-- No years follow an item that is written. -/
theorem not_yearsFollow_of_written (hi : i.Written true p) : ¬ YearsFollow [p] := by
  rintro ⟨before, p', after, j, t, q, heq, -, hread, -, hyears⟩
  obtain ⟨rfl, rfl⟩ : before = [] ∧ p' = p := by
    cases before with
    | nil => exact ⟨rfl, (List.cons.inj heq).1.symm⟩
    | cons a before => cases before <;> cases heq
  obtain ⟨y, u, hyear, -⟩ := hyears q List.mem_cons_self
  have hnone : readItem false q = none := by
    rcases readItem_self hi with ⟨-, h⟩ | ⟨-, hbreak⟩
    · obtain ⟨-, rfl⟩ := Prod.mk.inj (Option.some.inj (hread.symm.trans h))
      rfl
    · obtain ⟨c, hc, hhead⟩ := hbreak _ _ hread
      refine readItem_eq_none fun d hd => ?_
      obtain rfl := Option.some.inj (hhead.symm.trans hd)
      exact not_begins_of_break (List.mem_append_left [','] hc)
  rw [hnone] at hyear
  cases hyear

/-- The items that are renumbered or taken by the grammar. -/
theorem passes_iff (hp : IsPiece p) : (∃ t, Weekday.stride? p = some t) ∨ Takes .weekday true p ↔ Passes p := by
  constructor
  · rintro (⟨t, ht⟩ | htakes)
    · by_cases hplus : '+' ∈ p
      · exact .inr ⟨hplus, t, ht⟩
      · exact .inl ⟨.inl (isNumeric_of_stride? ht hplus), not_isOverlong_of_stride? ht⟩
    · exact .inl (standard_of_takes hp htakes)
  · rintro (⟨⟨i, hi, hnumbered⟩ | ⟨i, hi, -, hsix⟩, hover⟩ | ⟨-, hstride⟩)
    · exact stride?_or_takes hi hnumbered fun h => hover ⟨i, hi, h⟩
    · exact .inr (((read_onDays_piece hp).1 hsix).resolve_right (not_yearsFollow_of_written hi))
    · exact .inl hstride

theorem Range.Written.plus_not_mem {any : Bool} (hx : x.Written any cs) : '+' ∉ cs := by
  have hdigit : ∀ {ds : List Char} {n : Nat}, IsNumber ds n → '+' ∉ ds := fun hn => hn.1.not_mem (by decide)
  have halpha : ∀ {as : List Char}, Token Char.isAlpha as → '+' ∉ as := fun has => has.not_mem (by decide)
  cases hx with
  | star => decide
  | mark _ => decide
  | point hn => exact hdigit hn
  | span ha hb => simp [hdigit ha, hdigit hb]
  | names ha hb => simp [halpha ha, halpha hb]

theorem Item.Written.plus_not_mem {any : Bool} (hi : i.Written any p) : '+' ∉ p := by
  cases hi with
  | range hx => exact hx.plus_not_mem
  | every hx hs => simp [hx.plus_not_mem, hs.1.not_mem (c := '+') (by decide)]
  | name hcs => exact hcs.not_mem (by decide)

/-- A sign makes an item malformed. -/
theorem not_standard_of_isSigned (h : IsSigned p) : ¬ (IsNumeric p ∨ IsNamed p) := by
  rintro (⟨i, hi, -⟩ | ⟨i, hi, -⟩) <;> exact hi.plus_not_mem h.1

end Items

end Cron

end Rota
