/-!
# Run guards

A guard lets one run at a time through. Whoever acquires it holds a permit until the permit is dropped; a permit that
is forgotten is never given back. `Permits` follows a guard together with the permits that are still held.

- `Guard.acquire?_eq_none_iff`: an attempt fails exactly while the guard is taken.
-/

namespace Rota

/-- Whether a run is in progress. -/
structure Guard where
  taken : Bool := false
deriving DecidableEq, Inhabited

namespace Guard

def acquire? (g : Guard) : Option Guard := if g.taken then none else some ⟨true⟩

def release (_ : Guard) : Guard := ⟨false⟩

/-- An attempt fails exactly while the guard is taken. -/
theorem acquire?_eq_none_iff {g : Guard} : g.acquire? = none ↔ g.taken = true := by
  simp [acquire?]

/-- An attempt that succeeds finds the guard free and leaves it taken. -/
theorem acquire?_eq_some_iff {g h : Guard} : g.acquire? = some h ↔ g.taken = false ∧ h.taken = true := by
  obtain ⟨a⟩ := g
  obtain ⟨b⟩ := h
  cases a <;> cases b <;> simp [acquire?]

end Guard

/-! ## Histories -/

/-- What can happen to a guard and the permits for it. -/
inductive GuardStep
  /-- An attempt; its permit is kept if it succeeds. -/
  | acquire
  /-- The newest permit is dropped. -/
  | release
  /-- The newest permit is forgotten. -/
  | leak
  /-- An attempt whose permit, if any, is dropped by a panic. -/
  | panic
deriving DecidableEq

/-- A guard and the number of permits held for it. -/
structure Permits where
  guard : Guard := {}
  held : Nat := 0
deriving DecidableEq, Inhabited

namespace Permits

/-- The state after a step, and whether the attempt succeeded or there was a permit. -/
def step (p : Permits) : GuardStep → Permits × Bool
  | .acquire =>
    match p.guard.acquire? with
    | some g => (⟨g, p.held + 1⟩, true)
    | none => (p, false)
  | .release => if 0 < p.held then (⟨p.guard.release, p.held - 1⟩, true) else (p, false)
  | .leak => if 0 < p.held then (⟨p.guard, p.held - 1⟩, true) else (p, false)
  | .panic =>
    match p.guard.acquire? with
    | some g => (⟨g.release, p.held⟩, true)
    | none => (p, false)

end Permits

end Rota
