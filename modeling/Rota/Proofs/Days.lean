import Rota.Cron.Weekday
import Rota.Proofs.Items

/-!
# Days of the week

With five fields the days of the week are counted from 0 on Sunday to 6 on Saturday, and 7 is Sunday, too
(`Item.Denotes`). A numeric item is renumbered; an item that is not taken for one follows unchanged and is read with
Sunday as 1. Of the items with numbers that are accepted, those are single days and ranges with a step of more than 8
bits, and the day 7 with any step (`Item.astray?`): they are read as their first number alone.

- what is renumbered keeps its days (`Item.fires_iff_meets`), and what is passed on keeps them or is read astray
  (`Item.fires_iff_of_passed`);
- an item that is read astray fires on a day that it does not denote (`Item.not_denotes_of_astray`).
-/

namespace Rota.Cron

/-! ## The standard numbering -/

/-- The day that a name stands for, from 0 on Sunday. -/
def day? (name : List Char) : Option Nat := (Field.weekday.named? name).map (· - 1)

/-- The first and the last day of a range. -/
def Range.days? : Range → Option (Nat × Nat)
  | .all => some (0, 6)
  | .point n => some (n, n)
  | .span a b => some (a, b)
  | .names a b => do
    let a ← day? a
    let b ← day? b
    some (a, b)

/-- The days of an item. A single day with a step runs on to Saturday. -/
def Item.days? : Item → Option Stride
  | .range x => x.days?.map fun (a, b) => ⟨a, b, 1⟩
  | .every x s => x.days?.map fun (a, b) => ⟨a, match x with | .point _ => max a 6 | _ => b, s⟩
  | .name n => (day? n).map fun d => ⟨d, d, 1⟩

/-- A stride over the days from 0 to 7 passes a day of the week, with 7 for 0. -/
def Stride.Passes (t : Stride) (d : Nat) : Prop := ∃ k, t.first ≤ k ∧ k ≤ t.last ∧ t.step ∣ k - t.first ∧ k % 7 = d

/-- An item denotes a day of the week, from 0 on Sunday to 6 on Saturday. -/
def Item.Denotes (i : Item) (d : Nat) : Prop := ∃ t ∈ i.days?, t.Passes d

/-- The number that is left of an item that is read astray. -/
def Item.astray? : Item → Option Nat
  | .every (.point n) s => if n = 7 ∨ 255 < s then some n else none
  | .every (.span a _) s => if 255 < s then some a else none
  | _ => none

/-- An item fires on the days that it denotes, or else, if it is read astray, on the one whose number with Sunday as 1
is left of it. -/
def Item.Fires (i : Item) (d : Nat) : Prop :=
  match i.astray? with
  | some n => n = d + 1
  | none => i.Denotes d

section Strides

variable {t : Stride} {v d : Nat}

theorem Stride.meets_iff : t.meets v = true ↔ t.first ≤ v ∧ v ≤ t.last ∧ t.step ∣ v - t.first := by
  simp only [Stride.meets, Bool.and_eq_true, decide_eq_true_eq, beq_iff_eq, and_assoc, Nat.dvd_iff_mod_eq_zero]

theorem Weekday.meets_iff (ht : t.last ≤ 7) : Weekday.meets t (d + 1) = true ↔ t.Passes d := by
  simp only [Weekday.meets, List.any_eq_true, List.mem_range, Bool.and_eq_true, beq_iff_eq, Stride.meets_iff]
  constructor
  · rintro ⟨k, -, ⟨hfirst, hlast, hstep⟩, hk⟩
    exact ⟨k, hfirst, hlast, hstep, Nat.succ.inj hk⟩
  · rintro ⟨k, hfirst, hlast, hstep, hk⟩
    exact ⟨k, by omega, ⟨hfirst, hlast, hstep⟩, congrArg (· + 1) hk⟩

/-- A step of more than the distance leaves the first value. -/
theorem eq_of_dvd_sub {a s : Nat} (ha : a ≤ v) (hs : v < a + s) (h : s ∣ v - a) : v = a := by
  have := Nat.eq_zero_of_dvd_of_lt h (by omega)
  omega

theorem named?_limits {cs : List Char} (h : Field.weekday.named? cs = some v) : 1 ≤ v ∧ v ≤ 7 := by
  have hall : ∀ p ∈ Field.weekday.names, 1 ≤ p.2 ∧ p.2 ≤ 7 := by decide
  obtain ⟨l, l', hnames, -⟩ := List.lookup_eq_some_iff.1 h
  exact hall (_, v) (hnames ▸ List.mem_append_right l List.mem_cons_self)

end Strides

/-! ## Items that are renumbered -/

section Renumbered

variable {any stepped : Bool} {cs ds es : List Char} {x : Range} {i : Item} {a b n s : Nat}

theorem Token.not_mem {p : Char → Bool} (h : Token p cs) {c : Char} (hc : p c = false) : c ∉ cs :=
  fun hmem => absurd (h.2 c hmem) (by simp [hc])

/-- A range holds neither a slash nor a comma. -/
theorem Range.Written.not_mem (h : x.Written any cs) {c : Char} (hc : c ∈ ['/', ',']) : c ∉ cs := by
  have hcases : c.isDigit = false ∧ c.isAlpha = false ∧ c ≠ '*' ∧ c ≠ '?' ∧ c ≠ '-' := by
    simp only [List.mem_cons, List.not_mem_nil, or_false] at hc
    rcases hc with rfl | rfl <;> decide
  obtain ⟨hdigit, halpha, hstar, hmark, hdash⟩ := hcases
  cases h with
  | star => simpa using hstar
  | mark _ => simpa using hmark
  | point hn => exact hn.1.not_mem hdigit
  | span ha hb => simp [ha.1.not_mem hdigit, hb.1.not_mem hdigit, hdash]
  | names ha hb => simp [ha.not_mem halpha, hb.not_mem halpha, hdash]

/-- An item holds no comma. -/
theorem Item.Written.comma_not_mem (h : i.Written any cs) : ',' ∉ cs := by
  cases h with
  | range hx => exact hx.not_mem (by decide)
  | every hx hs => simp [hx.not_mem (c := ',') (by decide), hs.1.not_mem (c := ',') (by decide)]
  | name hcs => exact hcs.not_mem (by decide)

/-- Every day is the one item of a single star or question mark. -/
theorem Item.Written.eq_all {c : Char} (hc : c = '*' ∨ c = '?') (h : i.Written any [c]) : i = .range .all := by
  have hnone : ∀ {p : Char → Bool}, p '*' = false → p '?' = false → ¬ Token p [c] := fun hstar hmark h => by
    have := h.2 c List.mem_cons_self
    rcases hc with rfl | rfl <;> simp_all
  have hother : ∀ {d : Char}, d ∈ ['-', '/'] → d ∉ [c] := fun hd hmem => by
    rw [List.mem_singleton.1 hmem] at hd
    rcases hc with rfl | rfl <;> exact absurd hd (by decide)
  generalize hcs : [c] = cs at h
  cases h with
  | range hx =>
    cases hx with
    | star => rfl
    | mark _ => rfl
    | point hn => exact absurd (hcs ▸ hn.1) (hnone rfl rfl)
    | span ha hb => exact absurd (hcs ▸ List.mem_append_right _ List.mem_cons_self) (hother (d := '-') (by decide))
    | names ha hb => exact absurd (hcs ▸ List.mem_append_right _ List.mem_cons_self) (hother (d := '-') (by decide))
  | every hx hs => exact absurd (hcs ▸ List.mem_append_right _ List.mem_cons_self) (hother (d := '/') (by decide))
  | name h => exact absurd (hcs ▸ h) (hnone rfl rfl)

theorem byte?_of_isNumber (h : IsNumber ds n) : Text.byte? ds = if n ≤ 255 then some n else none := by
  obtain ⟨⟨hne, hdigits⟩, rfl⟩ := h
  exact Text.byte?_of_digits hne hdigits

theorem byte?_of_alpha (h : Token Char.isAlpha cs) : Text.byte? cs = none := by
  rw [Text.byte?_of_head]
  · obtain ⟨c, cs, rfl⟩ := List.exists_cons_of_ne_nil h.1
    have hc := isDigit_eq_false_of_isAlpha (h.2 c List.mem_cons_self)
    simp [Text.digits?, hc]
  · rintro r rfl
    exact absurd (h.2 '+' List.mem_cons_self) (by decide)

/-- The days of a range of numbers of 8 bits, as they are renumbered. -/
def Range.numericDays? (stepped : Bool) : Range → Option (Nat × Nat)
  | .all => some (0, 6)
  | .point n => if n ≤ 255 then some (n, if stepped then 6 else n) else none
  | .span a b => if a ≤ 255 ∧ b ≤ 255 then some (a, b) else none
  | .names _ _ => none

/-- A question mark is not renumbered, any other range is by its numbers. -/
theorem base?_eq (hx : x.Written any cs) :
    Weekday.base? stepped cs = x.numericDays? stepped ∨ x = .all ∧ Weekday.base? stepped cs = none := by
  cases hx with
  | star => exact .inl rfl
  | mark _ => exact .inr ⟨rfl, rfl⟩
  | @point n _ hn =>
    have hstar : cs ≠ ['*'] := by
      rintro rfl
      exact absurd (hn.1.2 '*' List.mem_cons_self) (by decide)
    left
    rw [Weekday.base?, Text.splitFirst_eq_none (hn.1.not_mem (by decide)), byte?_of_isNumber hn]
    simp only [hstar, if_false, Range.numericDays?]
    by_cases hle : n ≤ 255 <;> simp [hle]
  | @span a b ds es ha hb =>
    left
    rw [Weekday.base?, Text.splitFirst_append (ha.1.not_mem (by decide))]
    simp only [byte?_of_isNumber ha, byte?_of_isNumber hb, Range.numericDays?]
    by_cases hle : a ≤ 255 <;> by_cases hle' : b ≤ 255 <;> simp [hle, hle']
  | @names as bs ha hb =>
    left
    rw [Weekday.base?, Text.splitFirst_append (ha.not_mem (by decide))]
    simp only [byte?_of_alpha ha, Range.numericDays?]
    rfl

/-- The stride over a range of the days from 0 to 7. -/
def withStep? (step : Nat) (p : Nat × Nat) : Option Stride :=
  if p.1 ≤ p.2 ∧ p.2 ≤ 7 then some ⟨p.1, p.2, step⟩ else none

theorem stride?_of_range (hx : x.Written any cs) :
    Weekday.stride? cs = (Weekday.base? false cs).bind (withStep? 1) := by
  have hslash : '/' ∉ cs := hx.not_mem (by decide)
  rw [Weekday.stride?, Text.splitFirst_eq_none hslash]
  simp only [List.contains_eq_mem, hslash, decide_false]
  rfl

theorem stride?_of_every (hx : x.Written any cs) (hs : IsNumber ds s) : Weekday.stride? (cs ++ '/' :: ds) =
    if 0 < s ∧ s ≤ 255 then (Weekday.base? true cs).bind (withStep? s) else none := by
  rw [Weekday.stride?, Text.splitFirst_append (hx.not_mem (by decide))]
  have hslash : (cs ++ '/' :: ds).contains '/' = true := by simp
  simp only [byte?_of_isNumber hs, hslash]
  by_cases hle : s ≤ 255 <;> by_cases hpos : 0 < s <;> simp [hle, hpos, Option.filter_some]
  rfl

theorem stride?_of_name (hcs : Token Char.isAlpha cs) : Weekday.stride? cs = none := by
  have hslash : '/' ∉ cs := hcs.not_mem (by decide)
  have hstar : cs ≠ ['*'] := by
    rintro rfl
    exact absurd (hcs.2 '*' List.mem_cons_self) (by decide)
  have hbase : Weekday.base? false cs = none := by
    rw [Weekday.base?, Text.splitFirst_eq_none (hcs.not_mem (by decide)), byte?_of_alpha hcs]
    exact if_neg hstar
  rw [Weekday.stride?, Text.splitFirst_eq_none hslash]
  simp only [List.contains_eq_mem, hslash, decide_false, Option.bind_eq_bind, Option.bind_some, hbase, Option.bind_none]

theorem numericDays?_of_base? (hx : x.Written any cs) {p : Nat × Nat} (h : Weekday.base? stepped cs = some p) :
    x.numericDays? stepped = some p := by
  have hnone : ¬ (x = .all ∧ Weekday.base? stepped cs = none) := by simp [h]
  exact (base?_eq hx).resolve_right hnone ▸ h

/-- What is renumbered is not read astray, and its days are those of the item. -/
theorem days?_of_stride? (hi : i.Written any cs) {t : Stride} (h : Weekday.stride? cs = some t) :
    i.astray? = none ∧ i.days? = some t ∧ t.first ≤ t.last ∧ t.last ≤ 7 := by
  cases hi with
  | @range x _ hx =>
    rw [stride?_of_range hx] at h
    obtain ⟨⟨a, b⟩, hbase, ht⟩ := Option.bind_eq_some_iff.1 h
    obtain ⟨hle, heq⟩ := Option.ite_none_right_eq_some.1 ht
    obtain rfl := Option.some.inj heq
    have hdays := numericDays?_of_base? hx hbase
    refine ⟨rfl, ?_, hle⟩
    cases x with
    | all => cases hdays; rfl
    | point n => cases (Option.ite_none_right_eq_some.1 hdays).2; rfl
    | span a b => cases (Option.ite_none_right_eq_some.1 hdays).2; rfl
    | names a b => cases hdays
  | @every x s _ _ hx hs =>
    rw [stride?_of_every hx hs] at h
    obtain ⟨⟨hpos, hstep⟩, h⟩ := Option.ite_none_right_eq_some.1 h
    obtain ⟨⟨a, b⟩, hbase, ht⟩ := Option.bind_eq_some_iff.1 h
    obtain ⟨hle, heq⟩ := Option.ite_none_right_eq_some.1 ht
    obtain rfl := Option.some.inj heq
    have hdays := numericDays?_of_base? hx hbase
    cases x with
    | all => cases hdays; exact ⟨rfl, rfl, hle⟩
    | point n =>
      cases (Option.ite_none_right_eq_some.1 hdays).2
      have hmax : max a 6 = 6 := Nat.max_eq_right hle.1
      have ha : ¬(a = 7 ∨ 255 < s) := by
        have : a ≤ 6 := hle.1
        omega
      exact ⟨if_neg ha, by simp [Item.days?, Range.days?, hmax], hle⟩
    | span a b =>
      cases (Option.ite_none_right_eq_some.1 hdays).2
      exact ⟨if_neg (by omega), rfl, hle⟩
    | names a b => cases hdays
  | name hcs =>
    rw [stride?_of_name hcs] at h
    cases h

/-- The stride of the same days counted from 0. -/
def Stride.fromZero (t : Stride) : Stride := ⟨t.first - 1, t.last - 1, t.step⟩

theorem within?_eq_some {f : Field} {v : Nat} (h : f.within? n = some v) : v = n ∧ f.lo ≤ n ∧ n ≤ f.hi := by
  obtain ⟨hlimits, heq⟩ := Option.ite_none_right_eq_some.1 h
  exact ⟨(Option.some.inj heq).symm, hlimits⟩

theorem ends?_point {f : Field} {p : Nat × Nat} (h : (Range.point n).ends? f = some p) :
    p = (n, n) ∧ f.lo ≤ n ∧ n ≤ f.hi := by
  obtain ⟨v, hv, rfl⟩ := Option.map_eq_some_iff.1 h
  obtain ⟨rfl, hlimits⟩ := within?_eq_some hv
  exact ⟨rfl, hlimits⟩

theorem ends?_span {f : Field} {p : Nat × Nat} (h : (Range.span a b).ends? f = some p) :
    p = (a, b) ∧ f.lo ≤ a ∧ a ≤ b ∧ b ≤ f.hi := by
  obtain ⟨a', ha, h⟩ := Option.bind_eq_some_iff.1 h
  obtain ⟨b', hb, h⟩ := Option.bind_eq_some_iff.1 h
  obtain ⟨hle, heq⟩ := Option.ite_none_right_eq_some.1 h
  obtain ⟨rfl, halimits⟩ := within?_eq_some ha
  obtain ⟨rfl, hblimits⟩ := within?_eq_some hb
  exact ⟨(Option.some.inj heq).symm, halimits.1, hle, hblimits.2⟩

theorem ends?_names {f : Field} {as bs : List Char} {p : Nat × Nat} (h : (Range.names as bs).ends? f = some p) :
    f.named? as = some p.1 ∧ f.named? bs = some p.2 ∧ p.1 ≤ p.2 := by
  obtain ⟨a, ha, h⟩ := Option.bind_eq_some_iff.1 h
  obtain ⟨b, hb, h⟩ := Option.bind_eq_some_iff.1 h
  obtain ⟨hle, heq⟩ := Option.ite_none_right_eq_some.1 h
  obtain rfl := Option.some.inj heq
  exact ⟨ha, hb, hle⟩

/-- The ends of a range of days, counted from 1. -/
theorem ends?_limits {p : Nat × Nat} (h : x.ends? .weekday = some p) : 1 ≤ p.1 ∧ p.1 ≤ p.2 ∧ p.2 ≤ 7 := by
  cases x with
  | all => cases h; decide
  | point n =>
    obtain ⟨rfl, hlo, hhi⟩ := ends?_point h
    exact ⟨hlo, Nat.le_refl n, hhi⟩
  | span a b =>
    obtain ⟨rfl, hlimits⟩ := ends?_span h
    exact hlimits
  | names as bs =>
    obtain ⟨ha, hb, hle⟩ := ends?_names h
    exact ⟨(named?_limits ha).1, hle, (named?_limits hb).2⟩

theorem stride?_limits {t : Stride} (ht : i.stride? .weekday = some t) :
    1 ≤ t.first ∧ t.first ≤ t.last ∧ t.last ≤ 7 := by
  cases i with
  | range x =>
    obtain ⟨p, hp, rfl⟩ := Option.map_eq_some_iff.1 ht
    exact ends?_limits hp
  | every x s =>
    obtain ⟨-, ht⟩ := Option.ite_none_left_eq_some.1 ht
    obtain ⟨p, hp, rfl⟩ := Option.map_eq_some_iff.1 ht
    obtain ⟨hfirst, hle, hlast⟩ := ends?_limits hp
    cases x with
    | point n => exact ⟨hfirst, Nat.le_trans hle hlast, Nat.le_refl 7⟩
    | _ => exact ⟨hfirst, hle, hlast⟩
  | name n =>
    obtain ⟨v, hv, rfl⟩ := Option.map_eq_some_iff.1 ht
    exact ⟨(named?_limits hv).1, Nat.le_refl v, (named?_limits hv).2⟩

theorem days?_of_names {as bs : List Char} {p : Nat × Nat} (h : (Range.names as bs).ends? .weekday = some p) :
    (Range.names as bs).days? = some (p.1 - 1, p.2 - 1) := by
  obtain ⟨ha, hb, -⟩ := ends?_names h
  simp [Range.days?, day?, ha, hb]

/-- A range of numbers is renumbered, if it lies in the days from 0 to 7 and does not run backwards. -/
theorem bind_withStep?_ne_none (hx : x.Written any cs) {p : Nat × Nat} (hp : x.numericDays? stepped = some p)
    (hall : x ≠ .all) (hle : p.1 ≤ p.2 ∧ p.2 ≤ 7) : (Weekday.base? stepped cs).bind (withStep? s) ≠ none := by
  rw [(base?_eq hx).resolve_right fun h => hall h.1, hp, Option.bind_some, withStep?, if_pos hle]
  exact Option.some_ne_none _

/-- What is not renumbered but accepted has its days from 1, or it is read astray as its first number. -/
theorem cases_of_passed (hi : i.Written any cs) (h : Weekday.stride? cs = none) {t : Stride}
    (ht : i.stride? .weekday = some t) : i.astray? = none ∧ i.days? = some t.fromZero ∨
      i.astray? = some t.first ∧ (t.first = 7 ∨ 255 < t.step) := by
  cases hi with
  | @range x _ hx =>
    rw [stride?_of_range hx] at h
    obtain ⟨p, hp, rfl⟩ := Option.map_eq_some_iff.1 ht
    cases x with
    | all => cases hp; exact .inl ⟨rfl, rfl⟩
    | point n =>
      obtain ⟨rfl, -, hhi : n ≤ 7⟩ := ends?_point hp
      have hdays : (Range.point n).numericDays? false = some (n, n) := if_pos (by omega)
      exact absurd h (bind_withStep?_ne_none hx hdays (by simp) ⟨Nat.le_refl n, hhi⟩)
    | span a b =>
      obtain ⟨rfl, -, hle, hhi : b ≤ 7⟩ := ends?_span hp
      have hdays : (Range.span a b).numericDays? false = some (a, b) := if_pos (by omega)
      exact absurd h (bind_withStep?_ne_none hx hdays (by simp) ⟨hle, hhi⟩)
    | names as bs => exact .inl ⟨rfl, congrArg (Option.map _) (days?_of_names hp)⟩
  | @every x s _ _ hx hs =>
    rw [stride?_of_every hx hs] at h
    obtain ⟨hpos, ht⟩ := Option.ite_none_left_eq_some.1 ht
    obtain ⟨p, hp, rfl⟩ := Option.map_eq_some_iff.1 ht
    cases x with
    | all => cases hp; exact .inl ⟨rfl, rfl⟩
    | point n =>
      obtain ⟨rfl, -, hhi : n ≤ 7⟩ := ends?_point hp
      have hastray : n = 7 ∨ 255 < s := by
        by_contra hnot
        rw [if_pos (by omega)] at h
        have hdays : (Range.point n).numericDays? true = some (n, 6) := if_pos (by omega)
        exact absurd h (bind_withStep?_ne_none hx hdays (by simp) (show n ≤ 6 ∧ 6 ≤ 7 by omega))
      exact .inr ⟨if_pos hastray, hastray⟩
    | span a b =>
      obtain ⟨rfl, -, hle, hhi : b ≤ 7⟩ := ends?_span hp
      have hastray : 255 < s := by
        by_contra hnot
        rw [if_pos (by omega)] at h
        have hdays : (Range.span a b).numericDays? true = some (a, b) := if_pos (by omega)
        exact absurd h (bind_withStep?_ne_none hx hdays (by simp) ⟨hle, hhi⟩)
      exact .inr ⟨if_pos hastray, .inr hastray⟩
    | names as bs => exact .inl ⟨rfl, congrArg (Option.map _) (days?_of_names hp)⟩
  | name hcs =>
    obtain ⟨v, hv, rfl⟩ := Option.map_eq_some_iff.1 ht
    exact .inl ⟨rfl, by simp [Item.days?, day?, hv, Stride.fromZero]⟩

/-! ## The days on which an item fires -/

theorem passes_fromZero {t : Stride} {d : Nat} (ht : 1 ≤ t.first ∧ t.first ≤ t.last ∧ t.last ≤ 7) (hd : d < 7) :
    t.fromZero.Passes d ↔ t.meets (d + 1) = true := by
  rw [Stride.meets_iff]
  constructor
  · rintro ⟨k, hk, hk', hstep, hmod⟩
    simp only [Stride.fromZero] at hk hk' hstep
    obtain rfl : k = d := by omega
    refine ⟨by omega, by omega, ?_⟩
    rwa [show k + 1 - t.first = k - (t.first - 1) by omega]
  · rintro ⟨hge, hle, hstep⟩
    refine ⟨d, show t.first - 1 ≤ d by omega, show d ≤ t.last - 1 by omega, ?_, Nat.mod_eq_of_lt hd⟩
    rwa [show d - t.fromZero.first = d + 1 - t.first by simp only [Stride.fromZero]; omega]

theorem fires_of_none {d : Nat} (h : i.astray? = none) : i.Fires d ↔ i.Denotes d := by
  rw [Item.Fires, h]

theorem fires_of_some {d : Nat} (h : i.astray? = some n) : i.Fires d ↔ n = d + 1 := by
  rw [Item.Fires, h]

theorem denotes_of_days {t : Stride} {d : Nat} (h : i.days? = some t) : i.Denotes d ↔ t.Passes d := by
  simp [Item.Denotes, h]

/-- An item that is renumbered fires on the days that it is renumbered to. -/
theorem Item.fires_iff_meets (hi : i.Written any cs) {t : Stride} {d : Nat} (h : Weekday.stride? cs = some t) :
    i.Fires d ↔ Weekday.meets t (d + 1) = true := by
  obtain ⟨hastray, hdays, -, hlast⟩ := days?_of_stride? hi h
  rw [fires_of_none hastray, denotes_of_days hdays, Weekday.meets_iff hlast]

/-- An item that is passed on fires on the days whose numbers from 1 it denotes. -/
theorem Item.fires_iff_of_passed (hi : i.Written any cs) (h : Weekday.stride? cs = none) {t : Stride} {d : Nat}
    (ht : i.stride? .weekday = some t) (hd : d < 7) : i.Fires d ↔ t.meets (d + 1) = true := by
  obtain ⟨hfirst, hle, hlast⟩ := stride?_limits ht
  rcases cases_of_passed hi h ht with ⟨hastray, hdays⟩ | ⟨hastray, hcut⟩
  · rw [fires_of_none hastray, denotes_of_days hdays, passes_fromZero ⟨hfirst, hle, hlast⟩ hd]
  · rw [fires_of_some hastray, Stride.meets_iff]
    constructor
    · intro heq
      rw [← heq]
      exact ⟨Nat.le_refl _, hle, by simp⟩
    · rintro ⟨hge, hle', hstep⟩
      rcases hcut with hseven | hgreat
      · omega
      · exact (eq_of_dvd_sub hge (by omega) hstep).symm

/-- A stride that is cut down to its first day does not pass the day before it. -/
theorem not_passes_pred {t : Stride} (hlo : 1 ≤ t.first) (hhi : t.first ≤ 7) (hlast : t.last ≤ 7)
    (hcut : t.first = 7 ∨ 255 < t.step) : ¬ t.Passes (t.first - 1) := by
  rintro ⟨k, hge, hle, hstep, hmod⟩
  have hk : k = t.first := by
    rcases hcut with hseven | hgreat
    · omega
    · exact eq_of_dvd_sub hge (by omega) hstep
  omega

/-- An item read astray fires on a day that it does not denote. -/
theorem Item.not_denotes_of_astray {t : Stride} (ht : i.stride? .weekday = some t) (h : i.astray? = some n) :
    1 ≤ n ∧ n ≤ 7 ∧ ¬ i.Denotes (n - 1) := by
  cases i with
  | range x => cases h
  | name cs => cases h
  | every x s =>
    obtain ⟨-, ht⟩ := Option.ite_none_left_eq_some.1 ht
    obtain ⟨p, hp, rfl⟩ := Option.map_eq_some_iff.1 ht
    cases x with
    | all => cases h
    | names as bs => cases h
    | point m =>
      obtain ⟨hcut, heq⟩ := Option.ite_none_right_eq_some.1 h
      obtain rfl := Option.some.inj heq
      obtain ⟨rfl, hlo : 1 ≤ m, hhi : m ≤ 7⟩ := ends?_point hp
      have hdays : (Item.every (.point m) s).days? = some ⟨m, max m 6, s⟩ := rfl
      exact ⟨hlo, hhi, (denotes_of_days hdays).not.2 (not_passes_pred hlo hhi (show max m 6 ≤ 7 by omega) hcut)⟩
    | span a b =>
      obtain ⟨hcut, heq⟩ := Option.ite_none_right_eq_some.1 h
      obtain rfl := Option.some.inj heq
      obtain ⟨rfl, hlo : 1 ≤ a, hle, hhi : b ≤ 7⟩ := ends?_span hp
      have hdays : (Item.every (.span a b) s).days? = some ⟨a, b, s⟩ := rfl
      have ha : a ≤ 7 := Nat.le_trans hle hhi
      exact ⟨hlo, ha, (denotes_of_days hdays).not.2 (not_passes_pred hlo ha hhi (.inr hcut))⟩

end Renumbered

end Rota.Cron
