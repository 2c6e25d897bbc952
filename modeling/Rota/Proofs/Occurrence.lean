import Mathlib.Data.Nat.Find
import Rota.Trigger.Recurring

/-!
# The next occurrence of a schedule

`IsNext s t o` says that `o` is the first occurrence of the schedule `s` after the instant `t`. The search after an
instant is exact if what it finds is that occurrence (`Exact`).

- after an instant with any occurrence there is a first one (`exists_isNext`);
- where the search is exact, the next fire time of a trigger is the first occurrence (`next_eq_due_iff`);
- a trigger is asked beyond the end of the calendar from the last second on (`next_eq_overrun_iff`).
-/

namespace Rota

namespace Instant

theorem lt_of_le_of_lt {a b c : Instant} (hab : a ≤ b) (hbc : b < c) : a < c :=
  lt_def.2 (Int.lt_of_le_of_lt (le_def.1 hab) (lt_def.1 hbc))

theorem not_lt {a b : Instant} : ¬ a < b ↔ b ≤ a := by
  rw [lt_def, le_def]
  omega

theorem le_antisymm {a b : Instant} (hab : a ≤ b) (hba : b ≤ a) : a = b := by
  have h : a.nanos = b.nanos := Int.le_antisymm (le_def.1 hab) (le_def.1 hba)
  obtain ⟨a⟩ := a
  obtain ⟨b⟩ := b
  exact congrArg mk h

theorem lt_of_le_of_ne {a b : Instant} (hab : a ≤ b) (hne : a ≠ b) : a < b := by
  by_contra h
  exact hne (le_antisymm hab (not_lt.1 h))

@[simp] theorem second_ofSecond (s : Int) : (ofSecond s).second = s := by
  simp only [second, ofSecond, nanosPerSecond]
  omega

theorem ofSecond_le {a b : Int} : ofSecond a ≤ ofSecond b ↔ a ≤ b := by
  simp only [le_def, ofSecond, nanosPerSecond]
  omega

/-- An instant lies before the start of the seconds after its own. -/
theorem lt_ofSecond {t : Instant} {s : Int} : t < ofSecond s ↔ t.second < s := by
  simp only [lt_def, ofSecond, second, nanosPerSecond]
  omega

/-- The seconds whose start lies in the calendar. -/
theorem ofSecond_le_latest {s : Int} : ofSecond s ≤ latest ↔ s ≤ lastSecond := by
  simp only [le_def, ofSecond, latest, lastSecond, nanosPerSecond]
  omega

end Instant

namespace Cron.Schedule

variable {s : Schedule} {t o : Instant}

/-- An occurrence is the first one after an instant. -/
structure IsNext (s : Schedule) (t o : Instant) : Prop where
  occurs : s.Occurs o
  after : t < o
  least : ∀ o', s.Occurs o' → t < o' → o ≤ o'

/-- The search after an instant finds the first occurrence, if there is one. -/
def Exact (s : Schedule) (t : Instant) : Prop := ∀ o, s.after? t = some o ↔ s.IsNext t o

theorem IsNext.unique {o' : Instant} (h : s.IsNext t o) (h' : s.IsNext t o') : o = o' :=
  Instant.le_antisymm (h.least o' h'.occurs h'.after) (h'.least o h.occurs h.after)

/-- Occurrences are starts of seconds. -/
theorem Occurs.exists_second (ho : s.Occurs o) (hto : t < o) : ∃ n : Nat, o = .ofSecond (t.second + 1 + n) := by
  have hlt : t.second < o.second := Instant.lt_ofSecond.1 (ho.1 ▸ hto)
  have hsecond : t.second + 1 + (o.second - t.second - 1).toNat = o.second := by omega
  exact ⟨(o.second - t.second - 1).toNat, by rw [hsecond]; exact ho.1⟩

/-- After an instant that is followed by an occurrence there is a first one. -/
theorem exists_isNext (ho : s.Occurs o) (hto : t < o) : ∃ n, s.IsNext t n := by
  classical
  have hex : ∃ n : Nat, s.Occurs (.ofSecond (t.second + 1 + n)) := by
    obtain ⟨n, hn⟩ := ho.exists_second hto
    exact ⟨n, hn ▸ ho⟩
  refine ⟨.ofSecond (t.second + 1 + Nat.find hex), Nat.find_spec hex, Instant.lt_ofSecond.2 (by omega), ?_⟩
  intro o' ho' hto'
  obtain ⟨n, rfl⟩ := ho'.exists_second hto'
  have hmin : Nat.find hex ≤ n := Nat.find_min' hex ho'
  exact Instant.ofSecond_le.2 (by omega)

/-- A search is exact if it finds an occurrence and skips no allowed second. -/
theorem exact_of_skipped {n : Nat} (h : s.after? t = some (.ofSecond (t.second + 1 + n)))
    (ho : s.Occurs (.ofSecond (t.second + 1 + n)))
    (hskip : ∀ i < n, ¬ s.Allows (.ofSecond (t.second + 1 + i))) : s.Exact t := by
  have hnext : s.IsNext t (.ofSecond (t.second + 1 + n)) := by
    refine ⟨ho, Instant.lt_ofSecond.2 (by omega), fun o' ho' hto' => ?_⟩
    obtain ⟨i, rfl⟩ := ho'.exists_second hto'
    have hallows := ho'.2.2
    rw [Instant.second_ofSecond] at hallows
    have hi : n ≤ i := Nat.not_lt.1 fun hlt => hskip i hlt hallows
    exact Instant.ofSecond_le.2 (by omega)
  intro o
  rw [h]
  constructor
  · rintro ⟨⟩
    exact hnext
  · intro ho
    rw [hnext.unique ho]

end Cron.Schedule

namespace Recurring

/-- A trigger is asked beyond the end of the calendar exactly from the last second on. -/
theorem next_eq_overrun_iff {c : Recurring} {t : Instant} : c.next t = .overrun ↔ Instant.lastSecond ≤ t.second := by
  unfold next
  by_cases hlast : Instant.lastSecond ≤ t.second
  · simp [hlast]
  · rw [if_neg hlast]
    cases c.schedule.after? t <;> simp [hlast]

/-- Where the search is exact, a trigger fires next at the first occurrence. -/
theorem next_eq_due_iff {c : Recurring} {t o : Instant} (hexact : c.schedule.Exact t) :
    c.next t = .due o ↔ c.schedule.IsNext t o := by
  unfold next
  by_cases hlast : Instant.lastSecond ≤ t.second
  · rw [if_pos hlast]
    refine ⟨by rintro ⟨⟩, fun h => ?_⟩
    -- An occurrence is the start of a second of the calendar, and none is left.
    have hafter : t.second < o.second := Instant.lt_ofSecond.1 (h.occurs.1 ▸ h.after)
    have hlatest : o.second ≤ Instant.lastSecond := Instant.ofSecond_le_latest.1 (h.occurs.1 ▸ h.occurs.2.1)
    omega
  · rw [if_neg hlast, ← hexact o]
    cases c.schedule.after? t <;> simp

end Recurring

end Rota
