import Rota.Proofs.Days
import Rota.Proofs.Grammar

/-!
# Days of the week that are renumbered

The numeric items of a field become one list of days, and every other item follows unchanged. A renumbered field is a
field, and its values are the days on which the items of the field fire (`FieldText.exists_renumbered`).
-/

namespace Rota.Cron

section Values

variable {f : Field} {items : List Item} {vs : List Nat}

theorem map_eq_of_mapM {α β : Type} {g : α → Option β} {l : List α} {ys : List β} (h : l.mapM g = some ys) :
    l.map g = ys.map some := by
  induction l generalizing ys with
  | nil =>
    obtain rfl := Option.some.inj h
    rfl
  | cons x xs ih =>
    rw [List.mapM_cons] at h
    obtain ⟨y, hy, h⟩ := Option.bind_eq_some_iff.1 h
    obtain ⟨ys', hys, h⟩ := Option.bind_eq_some_iff.1 h
    obtain rfl := Option.some.inj h
    rw [List.map_cons, List.map_cons, hy, ih hys]

theorem exists_stride? (h : values? f items = some vs) {i : Item} (hi : i ∈ items) : ∃ t, i.stride? f = some t := by
  obtain ⟨ss, hss, -⟩ := Option.map_eq_some_iff.1 h
  obtain ⟨t, -, ht⟩ := List.mem_map.1 (map_eq_of_mapM hss ▸ List.mem_map_of_mem hi)
  exact ⟨t, ht.symm⟩

/-- The values of a field are those that its items denote. -/
theorem mem_values? (h : values? f items = some vs) {v : Nat} :
    v ∈ vs ↔ v ∈ f.all ∧ ∃ i ∈ items, ∃ t, i.stride? f = some t ∧ t.meets v = true := by
  obtain ⟨ss, hss, rfl⟩ := Option.map_eq_some_iff.1 h
  have hmap := map_eq_of_mapM hss
  rw [List.mem_filter, List.any_eq_true]
  refine and_congr_right fun _ => ⟨fun ⟨t, ht, hv⟩ => ?_, fun ⟨i, hi, t, ht, hv⟩ => ⟨t, ?_, hv⟩⟩
  · obtain ⟨i, hi, hit⟩ := List.mem_map.1 (hmap ▸ List.mem_map_of_mem ht)
    exact ⟨i, hi, t, hit, hv⟩
  · obtain ⟨t', ht', heq⟩ := List.mem_map.1 (hmap ▸ List.mem_map_of_mem hi)
    obtain rfl := Option.some.inj (heq.trans ht)
    exact ht'

end Values

namespace FieldText

variable (w : FieldText true) {vs : List Nat}

/-- The days from 1 to 7 to which the numeric items of a field are renumbered. -/
def numericDays : List Nat :=
  (List.range' 1 7).filter fun d => (w.parts.filterMap fun p => Weekday.stride? p.2).any (Weekday.meets · d)

/-- The items of the renumbered field: a day each for the numeric ones, and the others. -/
def renumberedParts : List (Item × List Char) :=
  w.numericDays.map (fun d => (.range (.point d), (toString d).toList)) ++
    w.parts.filter fun p => (Weekday.stride? p.2).isNone

theorem mem_numericDays {d : Nat} : d ∈ w.numericDays ↔
    (1 ≤ d ∧ d ≤ 7) ∧ ∃ p ∈ w.parts, ∃ t, Weekday.stride? p.2 = some t ∧ Weekday.meets t d = true := by
  rw [numericDays, List.mem_filter, List.mem_range'_1, List.any_eq_true]
  refine and_congr (by omega) ⟨fun ⟨t, ht, hd⟩ => ?_, fun ⟨p, hp, t, ht, hd⟩ => ?_⟩
  · obtain ⟨p, hp, ht⟩ := List.mem_filterMap.1 ht
    exact ⟨p, hp, t, ht, hd⟩
  · exact ⟨t, List.mem_filterMap.2 ⟨p, hp, ht⟩, hd⟩

/-- A field is cut into its items. -/
theorem pieces_text : Text.pieces ',' w.text = w.parts.map Prod.snd := by
  refine Text.pieces_intercalate (by simpa using w.ne_nil) fun cs hcs => ?_
  obtain ⟨p, hp, rfl⟩ := List.mem_map.1 hcs
  exact (w.written p hp).comma_not_mem

theorem renumber_text (hstar : w.text ≠ ['*']) (hmark : w.text ≠ ['?']) :
    Weekday.renumber w.text = [','].intercalate (w.renumberedParts.map Prod.snd) := by
  rw [Weekday.renumber, if_neg (not_or.2 ⟨hstar, hmark⟩), w.pieces_text, renumberedParts, numericDays]
  simp only [List.map_append, List.map_map, List.filterMap_map, List.filter_map]
  rfl

/-- An item that is renumbered has a day. -/
theorem renumberedParts_ne_nil : w.renumberedParts ≠ [] := by
  obtain ⟨p, hp⟩ := List.exists_mem_of_ne_nil _ w.ne_nil
  cases hstride : Weekday.stride? p.2 with
  | none =>
    refine List.ne_nil_of_mem (a := p) (List.mem_append_right _ (List.mem_filter.2 ⟨hp, ?_⟩))
    simp [hstride]
  | some t =>
    obtain ⟨-, -, hle, hlast⟩ := days?_of_stride? (w.written p hp) hstride
    have hmeets : Weekday.meets t (t.first % 7 + 1) = true :=
      (Weekday.meets_iff hlast).2 ⟨t.first, Nat.le_refl _, hle, by simp, rfl⟩
    have hday := w.mem_numericDays.2 ⟨by omega, p, hp, t, hstride, hmeets⟩
    exact List.ne_nil_of_mem (List.mem_append_left _ (List.mem_map_of_mem hday))

/-- The renumbered field. -/
def renumbered : FieldText true where
  parts := w.renumberedParts
  ne_nil := w.renumberedParts_ne_nil
  written p hp := by
    rcases List.mem_append.1 hp with hp | hp
    · obtain ⟨d, -, rfl⟩ := List.mem_map.1 hp
      exact .range (.point (isNumber_decimal d))
    · exact w.written p (List.mem_filter.1 hp).1

theorem mem_renumbered_of_day {d : Nat} (hd : d ∈ w.numericDays) : Item.range (.point d) ∈ w.renumbered.items :=
  List.mem_map.2 ⟨_, List.mem_append_left _ (List.mem_map_of_mem hd), rfl⟩

theorem mem_renumbered_of_passed {p : Item × List Char} (hp : p ∈ w.parts) (h : Weekday.stride? p.2 = none) :
    p.1 ∈ w.renumbered.items :=
  List.mem_map_of_mem (List.mem_append_right _ (List.mem_filter.2 ⟨hp, Option.isNone_iff_eq_none.2 h⟩))

/-- The values of the renumbered field are the days on which its items fire. -/
theorem mem_values_renumbered (h : values? .weekday w.renumbered.items = some vs) {d : Nat} (hd : d < 7) :
    d + 1 ∈ vs ↔ ∃ i ∈ w.items, i.Fires d := by
  rw [mem_values? h]
  constructor
  · rintro ⟨-, i, hi, t, ht, hmeets⟩
    obtain ⟨p, hp, rfl⟩ := List.mem_map.1 hi
    rcases List.mem_append.1 hp with hp | hp
    · obtain ⟨k, hk, rfl⟩ := List.mem_map.1 hp
      obtain ⟨q, hq, rfl⟩ := Option.map_eq_some_iff.1 ht
      obtain ⟨rfl, -⟩ := ends?_point hq
      obtain ⟨hge, hle, -⟩ := Stride.meets_iff.1 hmeets
      obtain rfl : k = d + 1 := Nat.le_antisymm hge hle
      obtain ⟨-, p, hp, t, hstride, ht⟩ := w.mem_numericDays.1 hk
      exact ⟨p.1, List.mem_map_of_mem hp, (Item.fires_iff_meets (w.written p hp) hstride).2 ht⟩
    · obtain ⟨hp, hnone⟩ := List.mem_filter.1 hp
      have hstride := Option.isNone_iff_eq_none.1 hnone
      exact ⟨p.1, List.mem_map_of_mem hp, (Item.fires_iff_of_passed (w.written p hp) hstride ht hd).2 hmeets⟩
  · rintro ⟨i, hi, hfires⟩
    obtain ⟨p, hp, rfl⟩ := List.mem_map.1 hi
    refine ⟨Field.mem_all.2 ⟨Nat.le_add_left 1 d, Nat.succ_le_of_lt hd⟩, ?_⟩
    cases hstride : Weekday.stride? p.2 with
    | some t =>
      have hmeets := (Item.fires_iff_meets (w.written p hp) hstride).1 hfires
      have hday := w.mem_numericDays.2 ⟨by omega, p, hp, t, hstride, hmeets⟩
      refine ⟨_, w.mem_renumbered_of_day hday, ⟨d + 1, d + 1, 1⟩, ?_,
        Stride.meets_iff.2 ⟨Nat.le_refl _, Nat.le_refl _, Nat.one_dvd _⟩⟩
      have hlimits : Field.weekday.lo ≤ d + 1 ∧ d + 1 ≤ Field.weekday.hi := ⟨Nat.le_add_left 1 d, Nat.succ_le_of_lt hd⟩
      simp only [Item.stride?, Range.ends?, Field.within?, if_pos hlimits, Option.map_some]
    | none =>
      have hmem := w.mem_renumbered_of_passed hp hstride
      obtain ⟨t, ht⟩ := exists_stride? h hmem
      exact ⟨p.1, hmem, t, ht, (Item.fires_iff_of_passed (w.written p hp) hstride ht hd).1 hfires⟩

/-- An item that is read astray is passed on. -/
theorem mem_renumbered_of_astray {i : Item} {n : Nat} (hi : i ∈ w.items) (h : i.astray? = some n) :
    i ∈ w.renumbered.items := by
  obtain ⟨p, hp, rfl⟩ := List.mem_map.1 hi
  cases hstride : Weekday.stride? p.2 with
  | none => exact w.mem_renumbered_of_passed hp hstride
  | some t =>
    rw [(days?_of_stride? (w.written p hp) hstride).1] at h
    cases h

/-- A star or a question mark alone is the item of every day. -/
theorem items_of_text {c : Char} (hc : c = '*' ∨ c = '?') (h : w.text = [c]) : w.items = [.range .all] := by
  have hpieces := w.pieces_text
  rw [h, Text.pieces_of_not_mem (by rcases hc with rfl | rfl <;> decide)] at hpieces
  obtain ⟨p, hparts, hp⟩ := List.map_eq_singleton_iff.1 hpieces.symm
  have hwritten := w.written p (hparts ▸ List.mem_singleton_self p)
  rw [hp] at hwritten
  rw [items, hparts, List.map_singleton, hwritten.eq_all hc]

/-- Renumbering a field gives a field, whose values are the days on which the items of the former fire. -/
theorem exists_renumbered : ∃ w' : FieldText true, w'.text = Weekday.renumber w.text ∧
    ∀ vs, values? .weekday w'.items = some vs →
      (∀ d < 7, d + 1 ∈ vs ↔ ∃ i ∈ w.items, i.Fires d) ∧ ∀ i ∈ w.items, ∀ n, i.astray? = some n → i ∈ w'.items := by
  by_cases halone : w.text = ['*'] ∨ w.text = ['?']
  · refine ⟨w, (if_pos halone).symm, fun vs h => ⟨fun d hd => ?_, fun i hi _ _ => hi⟩⟩
    have hitems : w.items = [.range .all] := by
      rcases halone with h | h
      · exact w.items_of_text (.inl rfl) h
      · exact w.items_of_text (.inr rfl) h
    have hmeets : Stride.meets ⟨1, 7, 1⟩ (d + 1) = true :=
      Stride.meets_iff.2 ⟨Nat.le_add_left 1 d, Nat.succ_le_of_lt hd, Nat.one_dvd _⟩
    -- The days of a star are those of a question mark, which is passed on.
    have hwritten : Item.Written true (.range .all) ['?'] := .range (.mark rfl)
    have hfires := (Item.fires_iff_of_passed hwritten (by decide) rfl hd).2 hmeets
    rw [mem_values? h, hitems]
    exact ⟨fun _ => ⟨_, List.mem_singleton_self _, hfires⟩, fun _ => ⟨Field.mem_all.2 ⟨Nat.le_add_left 1 d,
      Nat.succ_le_of_lt hd⟩, _, List.mem_singleton_self _, _, rfl, hmeets⟩⟩
  · rw [not_or] at halone
    exact ⟨w.renumbered, (w.renumber_text halone.1 halone.2).symm, fun vs h =>
      ⟨fun d hd => w.mem_values_renumbered h hd, fun i hi n hn => w.mem_renumbered_of_astray hi hn⟩⟩

end FieldText

end Rota.Cron
