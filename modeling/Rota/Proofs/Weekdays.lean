import Rota.Proofs.Renumber
import Rota.Proofs.Stream

/-!
# Days of the week in expressions of five fields

An expression whose words are fields is read field by field, each to its end, and the schedule allows the values of the
fields (`Schedule.of_fiveFields`). A trigger fires at every occurrence of its schedule (`Recurring.exists_next_iff`).

- so the days of the week on which it fires are those of the items of the last field, in the standard numbering but for
  the items that are read astray (`Recurring.weekdayLaw`);
- the day 7 with a step is read astray (`Recurring.sundays_astray`).
-/

namespace Rota

namespace Cron

/-- The five fields of an expression as they are written. -/
structure FiveFields where
  minute : FieldText false
  hour : FieldText false
  day : FieldText true
  month : FieldText false
  weekday : FieldText true

/-- The words of an expression are five fields. -/
def FiveFields.Spell (f : FiveFields) (e : String) : Prop :=
  Text.words e.toList = [f.minute.text, f.hour.text, f.day.text, f.month.text, f.weekday.text]

instance (f : FiveFields) (e : String) : Decidable (f.Spell e) := inferInstanceAs (Decidable (_ = _))

/-! ## Reading field by field -/

/-- A field in front of another one has been read to its end if the other one is read. -/
theorem FieldText.of_readValues_blank {any any' : Bool} {f f' : Field} (w : FieldText any) (w' : FieldText any')
    {r : List Char} {β : Type} {k : List Nat × List Char → List Nat × List Char → Option β} {b : β}
    (h : ((readValues f any (w.text ++ ' ' :: (w'.text ++ r))).bind fun p =>
      (readValues f' any' p.2).bind (k p)) = some b) :
    ∃ vs, values? f w.items = some vs ∧ (readValues f' any' (w'.text ++ r)).bind (k (vs, w'.text ++ r)) = some b := by
  obtain ⟨hends, hskip⟩ := ends_blank (w'.begins (r := r))
  obtain ⟨vs, hvs, hb⟩ := w.of_readValues hends (fun vs r' hbreak => by
    simp only [readValues_eq_none hbreak, Option.bind_none]) h
  rw [hskip] at hb
  exact ⟨vs, hvs, hb⟩

namespace Schedule

/-- The end of an expression: the year, which may be left out. -/
def finish (make : List Nat → Schedule) (r : List Char) : Option Schedule :=
  match readValues .year false r with
  | some (years, []) => some (make years)
  | some (_, _ :: _) => none
  | none => if r = [] then some (make Field.year.all) else none

theorem readFields_eq (cs : List Char) : readFields cs =
    (readValues .second false cs).bind fun seconds => (readValues .minute false seconds.2).bind fun minutes =>
      (readValues .hour false minutes.2).bind fun hours => (readValues .day true hours.2).bind fun days =>
        (readValues .month false days.2).bind fun months => (readValues .weekday true months.2).bind fun weekdays =>
          finish (.mk seconds.1 minutes.1 hours.1 days.1 months.1 weekdays.1) weekdays.2 := rfl

theorem finish_nil (make : List Nat → Schedule) : finish make [] = some (make Field.year.all) := rfl

theorem finish_eq_none {make : List Nat → Schedule} {r : List Char} (h : ∃ c ∈ ['-', '/', ','], r.head? = some c) :
    finish make r = none := by
  rw [finish, readValues_eq_none h]
  refine if_neg ?_
  rintro rfl
  obtain ⟨c, -, hc⟩ := h
  cases hc

/-- The fields of a text with a field for the seconds and five more are read one after the other. -/
theorem of_sixFields {s : Schedule} (seconds : FieldText false) (f : FiveFields) (weekday : FieldText true)
    (h : readFields (seconds.text ++ ' ' :: (f.minute.text ++ ' ' :: (f.hour.text ++ ' ' :: (f.day.text ++ ' ' ::
      (f.month.text ++ ' ' :: (weekday.text ++ [])))))) = some s) :
    values? .second seconds.items = some s.seconds ∧ values? .minute f.minute.items = some s.minutes ∧
      values? .hour f.hour.items = some s.hours ∧ values? .day f.day.items = some s.days ∧
      values? .month f.month.items = some s.months ∧ values? .weekday weekday.items = some s.weekdays ∧
      s.years = Field.year.all := by
  rw [readFields_eq] at h
  obtain ⟨ss, hss, h⟩ := seconds.of_readValues_blank f.minute h
  obtain ⟨ms, hms, h⟩ := f.minute.of_readValues_blank f.hour h
  obtain ⟨hs, hhs, h⟩ := f.hour.of_readValues_blank f.day h
  obtain ⟨ds, hds, h⟩ := f.day.of_readValues_blank f.month h
  obtain ⟨mons, hmons, h⟩ := f.month.of_readValues_blank weekday h
  obtain ⟨ws, hws, h⟩ := weekday.of_readValues ends_nil (fun vs r hbreak => finish_eq_none hbreak) h
  change finish _ [] = some s at h
  rw [finish_nil] at h
  obtain rfl := Option.some.inj h
  exact ⟨hss, hms, hhs, hds, hmons, hws, rfl⟩

/-- A text that begins with a digit is no shorthand. -/
theorem read_of_digit {cs : List Char} {c : Char} (hc : c.isDigit = true) : read (c :: cs) = readFields (c :: cs) := by
  have hskip : skipGap (c :: cs) = c :: cs := skipGap_of_head fun d hd =>
    Option.some.inj hd ▸ isGap_eq_false_of_isDigit hc
  have hlookup : ∀ l : List Char, l <+: c :: cs → shorthands.lookup (String.ofList l) = none := by
    intro l hl
    refine List.lookup_eq_none_iff.2 fun p hp => ?_
    have hat : ∀ p ∈ shorthands, p.1.toList.head? = some '@' := by decide
    rw [bne_iff_ne]
    intro heq
    have hhead := hat p hp
    rw [← heq, String.toList_ofList] at hhead
    obtain ⟨r, hr⟩ := hl
    cases l with
    | nil => cases hhead
    | cons d l =>
      obtain rfl := Option.some.inj hhead
      obtain ⟨rfl, -⟩ := List.cons.inj hr
      exact absurd hc (by decide)
  rw [read, hlookup _ ?_]
  rw [hskip]
  obtain ⟨r, hr⟩ := List.dropWhile_suffix isGap (l := (c :: cs).reverse)
  exact ⟨r.reverse, by rw [← List.reverse_append, hr, List.reverse_reverse]⟩

/-- The second zero, as it is written. -/
def secondZero : FieldText false := .one (.range (.point (isNumber_decimal 0)))

/-- An expression of five fields allows the values of its fields in each second zero and every year. The days of the
week are those of any field with the text to which the fifth one is renumbered. -/
theorem of_fiveFields {s : Schedule} {e : String} {f : FiveFields} (hf : f.Spell e) (h : ofExpression? e = some s)
    {weekday : FieldText true} (hweekday : weekday.text = Weekday.renumber f.weekday.text) :
    s.seconds = [0] ∧ values? .minute f.minute.items = some s.minutes ∧ values? .hour f.hour.items = some s.hours ∧
      values? .day f.day.items = some s.days ∧ values? .month f.month.items = some s.months ∧
      values? .weekday weekday.items = some s.weekdays ∧ s.years = Field.year.all := by
  have htext : normalize e.toList = secondZero.text ++ ' ' :: (f.minute.text ++ ' ' :: (f.hour.text ++ ' ' ::
      (f.day.text ++ ' ' :: (f.month.text ++ ' ' :: (weekday.text ++ []))))) := by
    rw [normalize, hf]
    change [' '].intercalate [['0'], f.minute.text, f.hour.text, f.day.text, f.month.text,
      Weekday.renumber f.weekday.text] = _
    have hzero : secondZero.text = ['0'] := FieldText.text_one _
    rw [← hweekday, hzero]
    simp [List.intercalate]
  rw [ofExpression?, htext] at h
  obtain ⟨hseconds, hfields⟩ := of_sixFields secondZero f weekday ((read_of_digit rfl).symm.trans h)
  have hzero : values? .second secondZero.items = some [0] := by decide
  exact ⟨Option.some.inj (hseconds.symm.trans hzero), hfields⟩

-- The words have to be fields: here the fourth one is read as the months and the days of the week.
example : (ofExpression? "0 0 * *1 *").map (·.weekdays) = some [1] := by decide +kernel

end Schedule

end Cron

namespace Recurring

open Cron (Item FiveFields)

variable {c : Recurring} {e : String} {f : FiveFields}

/-- How the days of the week of an expression of five fields are read from the items of the last one. -/
structure WeekdayLaw (items : List Item) (c : Recurring) : Prop where
  /-- The days of the week are those on which the items fire. -/
  weekdays : ∀ d < 7, d + 1 ∈ c.schedule.weekdays ↔ ∃ i ∈ items, i.Fires d
  /-- If no item is read astray, the days of the week are those that the items denote. -/
  standard : (∀ i ∈ items, i.astray? = none) → ∀ d < 7, d + 1 ∈ c.schedule.weekdays ↔ ∃ i ∈ items, i.Denotes d
  /-- An item that is read astray fires on a day that it does not denote. -/
  astray : ∀ i ∈ items, ∀ n, i.astray? = some n →
    1 ≤ n ∧ n ≤ 7 ∧ n ∈ c.schedule.weekdays ∧ ¬ i.Denotes (n - 1)
  /-- There are no other days of the week. -/
  limits : ∀ v ∈ c.schedule.weekdays, 1 ≤ v ∧ v ≤ 7
  /-- The trigger fires exactly when all fields have allowed values. -/
  fires : ∀ o, (∃ t, c.next t = .due o) ↔ c.schedule.Occurs o

/-- A trigger that is read from an expression fires at every occurrence of its schedule. -/
theorem exists_next_iff (hc : parse e = .ok c) {o : Instant} : (∃ t, c.next t = .due o) ↔ c.schedule.Occurs o := by
  have hs := proper_of_parse hc
  constructor
  · rintro ⟨t, ht⟩
    exact Cron.Schedule.occurs_of_after? hs (next_eq_due_iff_after?.1 ht).2
  · intro ho
    -- One second before the occurrence the search starts in its year.
    have hsecond : (Instant.ofSecond (o.second - 1)).second + 1 = o.second := by
      rw [Instant.second_ofSecond]
      omega
    have hcourse : c.schedule.OnCourse (.ofSecond (o.second - 1)) := by
      left
      rw [hsecond]
      exact ho.2.2.1
    have hahead : Instant.ofSecond (o.second - 1) < .ofSecond o.second := Instant.lt_ofSecond.2 (by omega)
    rw [← ho.1] at hahead
    refine ⟨_, (next_eq_due_iff (Cron.Schedule.exact_of_onCourse hs hcourse)).2 ⟨ho, hahead, ?_⟩⟩
    intro o' ho' hlt
    rw [ho'.1] at hlt
    have hle : o.second ≤ o'.second := by
      have := Instant.lt_ofSecond.1 hlt
      omega
    have h := Instant.ofSecond_le.2 hle
    rwa [← ho.1, ← ho'.1] at h

/-- The days of the week of every expression of five fields that is read are those of the items of its last field. -/
theorem weekdayLaw (hf : f.Spell e) (hc : parse e = .ok c) : WeekdayLaw f.weekday.items c := by
  obtain ⟨w, hw, hvalues⟩ := f.weekday.exists_renumbered
  obtain ⟨-, -, -, -, -, hweekdays, -⟩ := Cron.Schedule.of_fiveFields hf (ofExpression?_of_parse hc) hw
  obtain ⟨hfires, hpassed⟩ := hvalues _ hweekdays
  refine ⟨hfires, fun hnone d hd => ?_, fun i hi n hn => ?_, fun v hv => ?_, fun o => exists_next_iff hc⟩
  · rw [hfires d hd]
    exact exists_congr fun i => and_congr_right fun hi => Cron.fires_of_none (hnone i hi)
  · obtain ⟨t, ht⟩ := Cron.exists_stride? hweekdays (hpassed i hi n hn)
    obtain ⟨hlo, hhi, hnot⟩ := Item.not_denotes_of_astray ht hn
    have hday : n - 1 + 1 = n := by omega
    have hmem := (hfires (n - 1) (by omega)).2 ⟨i, hi, (Cron.fires_of_some hn).2 hday.symm⟩
    exact ⟨hlo, hhi, hday ▸ hmem, hnot⟩
  · exact (proper_of_parse hc).limits (f := .weekday) hv

/-- Fires at two o'clock on Mondays, Wednesdays, Fridays and at the weekend. -/
def collections : Recurring where
  expression := "0 2 * * 1-5/2,7,sat"
  schedule := ⟨[0], [0], [2], Cron.Field.day.all, Cron.Field.month.all, [1, 2, 4, 6, 7], Cron.Field.year.all⟩

/-- The fields of that expression. -/
def collectionFields : FiveFields where
  minute := .one (.range (.point (Cron.isNumber_decimal 0)))
  hour := .one (.range (.point (Cron.isNumber_decimal 2)))
  day := .one (.range .star)
  month := .one (.range .star)
  weekday :=
    { parts := [(.every (.span 1 5) 2, ['1', '-', '5', '/', '2']), (.range (.point 7), ['7']),
        (.name ['s', 'a', 't'], ['s', 'a', 't'])]
      ne_nil := List.cons_ne_nil _ _
      written := by
        have hspan : Cron.Range.Written true (.span 1 5) ['1', '-', '5'] :=
          .span (Cron.isNumber_decimal 1) (Cron.isNumber_decimal 5)
        have hname : Cron.Token Char.isAlpha ['s', 'a', 't'] := ⟨List.cons_ne_nil _ _, List.all_eq_true.1 rfl⟩
        simp only [List.forall_mem_cons]
        exact ⟨.every hspan (Cron.isNumber_decimal 2), .range (.point (Cron.isNumber_decimal 7)), .name hname,
          List.forall_mem_nil _⟩ }

/-- None of the items is read astray. -/
theorem collections_weekdayLaw :
    parse "0 2 * * 1-5/2,7,sat" = .ok collections ∧ collectionFields.Spell "0 2 * * 1-5/2,7,sat" ∧
      ∀ d < 7, d + 1 ∈ collections.schedule.weekdays ↔ ∃ i ∈ collectionFields.weekday.items, i.Denotes d := by
  have hc : parse "0 2 * * 1-5/2,7,sat" = .ok collections := by decide +kernel
  have hf : collectionFields.Spell "0 2 * * 1-5/2,7,sat" := by decide +kernel
  exact ⟨hc, hf, (weekdayLaw hf hc).standard (by decide)⟩

/-- Fires on Saturdays, though its expression says on Sundays. -/
def sundays : Recurring where
  expression := "0 0 * * 7/2"
  schedule := ⟨[0], [0], [0], Cron.Field.day.all, Cron.Field.month.all, [7], Cron.Field.year.all⟩

/-- The fields of that expression. -/
def sundayFields : FiveFields where
  minute := .one (.range (.point (Cron.isNumber_decimal 0)))
  hour := .one (.range (.point (Cron.isNumber_decimal 0)))
  day := .one (.range .star)
  month := .one (.range .star)
  weekday := .one (.every (.point (Cron.isNumber_decimal 7)) (Cron.isNumber_decimal 2))

/-- The day 7 with a step denotes Sunday alone, but it is read with Sunday as 1: asked on a Wednesday, the trigger fires
on the Saturday after it. -/
theorem sundays_astray :
    let i : Item := .every (.point 7) 2
    parse "0 0 * * 7/2" = .ok sundays ∧ sundayFields.Spell "0 0 * * 7/2" ∧ sundayFields.weekday.items = [i] ∧
      (∀ d, i.Denotes d ↔ d = 0) ∧ sundays.next (.ofSecond 1709726400) = .due (.ofSecond 1709942400) ∧
      (Moment.ofSecond 1709942400).date.weekday = 6 + 1 ∧
      ¬ ∀ d < 7, d + 1 ∈ sundays.schedule.weekdays ↔ ∃ i ∈ sundayFields.weekday.items, i.Denotes d := by
  intro i
  have hitems : sundayFields.weekday.items = [i] := rfl
  have hdenotes : ∀ d, i.Denotes d ↔ d = 0 := by
    intro d
    rw [Cron.denotes_of_days (show i.days? = some ⟨7, 7, 2⟩ from rfl)]
    constructor
    · rintro ⟨k, hge : 7 ≤ k, hle : k ≤ 7, -, hk⟩
      omega
    · rintro rfl
      exact ⟨7, Nat.le_refl 7, Nat.le_refl 7, by decide, rfl⟩
  refine ⟨by decide +kernel, by decide +kernel, hitems, hdenotes, by decide +kernel, by decide +kernel, fun h => ?_⟩
  obtain ⟨j, hj, hj'⟩ := (h 6 (by decide)).1 (by decide)
  rw [hitems, List.mem_singleton] at hj
  rw [hj, hdenotes] at hj'
  cases hj'

end Recurring

end Rota
