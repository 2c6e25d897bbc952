import Mathlib.Data.Bool.Basic
import Rota.Job.Guard

/-!
# Permits of a guard

The flag of a guard does not say who set it. Over any history of attempts, drops, forgotten permits and panics the flag
counts: it is the number of the permits held and of those forgotten (`Permits.taken_run`).

- what an attempt does to a guard that is free and to one that is taken (`Permits.step_of_free`,
  `Permits.step_of_taken`); a panic leaves everything as it was (`Permits.step_panic`);
- each step keeps the count (`Permits.taken_step`), as the permit that is dropped or forgotten is the only one;
- so one permit at a time is held, an attempt succeeds exactly while the flag is not set, and none ever does once a
  permit was forgotten (`Permits.guardLaw`).
-/

namespace Rota

/-- A step that tries to acquire the guard. -/
def GuardStep.IsAttempt (x : GuardStep) : Prop := x = .acquire ∨ x = .panic

namespace Permits

variable {p : Permits} {n : Nat} {x : GuardStep}

/-! ## Histories -/

/-- A guard and its permits after steps in a row. -/
def run (p : Permits) (xs : List GuardStep) : Permits := xs.foldl (fun p x => (p.step x).1) p

/-- The number of permits that a step forgets: the newest one, if any is held. -/
def forgets (p : Permits) : GuardStep → Nat
  | .leak => min p.held 1
  | _ => 0

/-- The number of permits that are forgotten in a history. -/
def forgotten : Permits → List GuardStep → Nat
  | _, [] => 0
  | p, x :: xs => p.forgets x + forgotten (p.step x).1 xs

theorem forgotten_append (p : Permits) (xs ys : List GuardStep) :
    forgotten p (xs ++ ys) = forgotten p xs + forgotten (p.run xs) ys := by
  induction xs generalizing p with
  | nil => exact (Nat.zero_add _).symm
  | cons x xs ih => exact (congrArg (p.forgets x + ·) (ih _)).trans (Nat.add_assoc _ _ _).symm

/-! ## Attempts -/

/-- An attempt on a guard that is free succeeds. -/
theorem step_of_free (hfree : p.guard.taken = false) :
    p.step .acquire = (⟨⟨true⟩, p.held + 1⟩, true) ∧ p.step .panic = (p, true) := by
  obtain ⟨⟨taken⟩, held⟩ := p
  obtain rfl : taken = false := hfree
  exact ⟨rfl, rfl⟩

/-- An attempt on a guard that is taken loses, and changes nothing. -/
theorem step_of_taken (htaken : p.guard.taken = true) (hx : x.IsAttempt) : p.step x = (p, false) := by
  have hnone : p.guard.acquire? = none := Guard.acquire?_eq_none_iff.2 htaken
  rcases hx with rfl | rfl <;> rw [step, hnone]

/-- A permit that a panic drops is as if it had never been held. -/
theorem step_panic (p : Permits) : (p.step .panic).1 = p := by
  cases htaken : p.guard.taken with
  | false => rw [(step_of_free htaken).2]
  | true => rw [step_of_taken htaken (.inr rfl)]

/-- An attempt succeeds exactly while the guard is free. -/
theorem step_snd_iff (hx : x.IsAttempt) : (p.step x).2 = true ↔ p.guard.taken = false := by
  cases htaken : p.guard.taken with
  | false =>
    obtain ⟨hacquire, hpanic⟩ := step_of_free htaken
    rcases hx with rfl | rfl
    · simp [hacquire]
    · simp [hpanic]
  | true => simp [step_of_taken htaken hx]

/-! ## Drops -/

/-- A permit that is held is dropped, which frees the guard, or forgotten, which does not. -/
theorem step_of_held (hheld : 0 < p.held) :
    p.step .release = (⟨⟨false⟩, p.held - 1⟩, true) ∧ p.step .leak = (⟨p.guard, p.held - 1⟩, true) :=
  ⟨if_pos hheld, if_pos hheld⟩

/-- Without a permit there is nothing to drop or to forget. -/
theorem step_of_none (hnone : p.held = 0) : p.step .release = (p, false) ∧ p.step .leak = (p, false) :=
  ⟨if_neg (Nat.not_lt_of_le (Nat.le_of_eq hnone)), if_neg (Nat.not_lt_of_le (Nat.le_of_eq hnone))⟩

/-! ## The count -/

/-- If the flag counts the permits held and forgotten, it does so after a step. -/
theorem taken_step (h : p.guard.taken.toNat = p.held + n) (x : GuardStep) :
    (p.step x).1.guard.taken.toNat = (p.step x).1.held + (n + p.forgets x) := by
  cases x with
  | acquire =>
    cases htaken : p.guard.taken with
    | false =>
      rw [htaken, Bool.toNat_false] at h
      rw [(step_of_free htaken).1]
      show 1 = p.held + 1 + (n + 0)
      omega
    | true =>
      rw [step_of_taken htaken (.inl rfl)]
      exact h
  | release =>
    rcases Nat.eq_zero_or_pos p.held with hnone | hheld
    · rw [(step_of_none hnone).1]
      exact h
    · -- The permit that is dropped is the only one, and none was forgotten.
      have hone : p.held + n ≤ 1 := h ▸ Bool.toNat_le _
      rw [(step_of_held hheld).1]
      show 0 = p.held - 1 + (n + 0)
      omega
  | leak =>
    rcases Nat.eq_zero_or_pos p.held with hnone | hheld
    · rw [(step_of_none hnone).2]
      show p.guard.taken.toNat = p.held + (n + min p.held 1)
      omega
    · rw [(step_of_held hheld).2]
      show p.guard.taken.toNat = p.held - 1 + (n + min p.held 1)
      omega
  | panic =>
    rw [step_panic]
    exact h

/-- Over any history the flag counts the permits held and forgotten. -/
theorem taken_run (h : p.guard.taken.toNat = p.held + n) (xs : List GuardStep) :
    (p.run xs).guard.taken.toNat = (p.run xs).held + (n + forgotten p xs) := by
  induction xs generalizing p n with
  | nil => exact h
  | cons x xs ih =>
    rw [forgotten, ← Nat.add_assoc n]
    exact ih (taken_step h x)

/-- The flag of a new guard counts the permits held and forgotten since. -/
theorem taken_run_new (xs : List GuardStep) :
    (run {} xs).guard.taken.toNat = (run {} xs).held + forgotten {} xs := by
  have h := taken_run (p := {}) (n := 0) rfl xs
  rwa [Nat.zero_add] at h

theorem taken_run_new_iff (xs : List GuardStep) :
    (run {} xs).guard.taken = true ↔ 0 < (run {} xs).held ∨ 0 < forgotten {} xs := by
  have h := taken_run_new xs
  cases htaken : (run {} xs).guard.taken with
  | false =>
    rw [htaken, Bool.toNat_false] at h
    simp only [Bool.false_eq_true, false_iff]
    omega
  | true =>
    rw [htaken, Bool.toNat_true] at h
    simp only [true_iff]
    omega

/-- Once a permit was forgotten, the guard is taken for good. -/
theorem taken_of_forgotten {xs : List GuardStep} (h : 0 < forgotten {} xs) (ys : List GuardStep) :
    (run {} (xs ++ ys)).guard.taken = true := by
  rw [taken_run_new_iff, forgotten_append]
  omega

/-! ## The law -/

/-- What holds of a guard and its permits after a history. -/
structure GuardLaw (xs : List GuardStep) : Prop where
  /-- At most one permit is held. -/
  atMostOne : (run {} xs).held ≤ 1
  /-- The guard is taken exactly if a permit is held or one was ever forgotten. -/
  taken_iff : (run {} xs).guard.taken = true ↔ 0 < (run {} xs).held ∨ 0 < forgotten {} xs
  /-- An attempt succeeds exactly if the guard is not taken. -/
  succeeds_iff : ∀ x : GuardStep, x.IsAttempt →
    (((run {} xs).step x).2 = true ↔ (run {} xs).guard.taken = false)
  /-- An attempt that succeeds holds the only permit, unless a panic drops it. -/
  wins : ((run {} xs).step .acquire).2 = true → ((run {} xs).step .acquire).1 = ⟨⟨true⟩, 1⟩
  /-- An attempt that loses changes nothing. -/
  loses : ∀ x : GuardStep, x.IsAttempt → ((run {} xs).step x).2 = false → ((run {} xs).step x).1 = run {} xs
  /-- A panic changes nothing, whether the attempt succeeds or loses. -/
  panics : ((run {} xs).step .panic).1 = run {} xs
  /-- Once a permit was forgotten, no attempt ever succeeds again. -/
  spent : 0 < forgotten {} xs → ∀ (ys : List GuardStep) (x : GuardStep), x.IsAttempt →
    ((run {} (xs ++ ys)).step x).2 = false

/-- Guards obey the law after any history. -/
theorem guardLaw (xs : List GuardStep) : GuardLaw xs where
  atMostOne := by
    have hone : (run {} xs).held + forgotten {} xs ≤ 1 := taken_run_new xs ▸ Bool.toNat_le _
    omega
  taken_iff := taken_run_new_iff xs
  succeeds_iff x hx := step_snd_iff hx
  wins hwins := by
    have hfree := (step_snd_iff (.inl rfl)).1 hwins
    have hnone : (run {} xs).held = 0 := by
      have h := taken_run_new xs
      rw [hfree, Bool.toNat_false] at h
      omega
    rw [(step_of_free hfree).1, hnone]
  loses x hx hloses := by
    have htaken : (run {} xs).guard.taken = true := by
      by_contra hfree
      rw [(step_snd_iff hx).2 (Bool.eq_false_iff.2 hfree)] at hloses
      cases hloses
    rw [step_of_taken htaken hx]
  panics := step_panic _
  spent hforgotten ys x hx := by rw [step_of_taken (taken_of_forgotten hforgotten ys) hx]

/-- The second permit is forgotten, and neither a drop nor a panic makes up for it. -/
theorem guardLaw_forgotten :
    0 < forgotten {} [.acquire, .release, .acquire, .leak] ∧
      ((run {} ([.acquire, .release, .acquire, .leak] ++ [.release, .panic])).step .acquire).2 = false :=
  ⟨by decide, (guardLaw _).spent (by decide) _ _ (.inl rfl)⟩

end Permits

end Rota
