/-!
# Spans and instants

A `Span` is a length of time and an `Instant` a point of the time line, both counted in whole nanoseconds, so adding
and comparing them is exact integer arithmetic. The calendar reaches from `Instant.earliest` to `Instant.latest`.

- a span moves an instant forward, never back (`Instant.le_add`);
- the second an instant lies in starts no later than the instant (`Instant.second_le`) and ends after it
  (`Instant.lt_second_succ`).
-/

namespace Rota

abbrev nanosPerSecond : Nat := 1000000000

/-! ## Spans -/

/-- A length of time in nanoseconds. -/
structure Span where
  nanos : Nat
deriving DecidableEq, Inhabited

namespace Span

def zero : Span := ⟨0⟩

/-- A number of whole seconds and nanoseconds. -/
def ofSeconds (seconds nanos : Nat) : Span := ⟨seconds * nanosPerSecond + nanos⟩

def micros (s : Span) : Nat := s.nanos / 1000

def millis (s : Span) : Nat := s.nanos / 1000000

/-- The longest span that a calendar delay can have: the milliseconds of a signed 64-bit count. -/
def longestDelay : Span := ⟨9223372036854775807 * 1000000⟩

end Span

/-! ## Instants -/

/-- A point in time in nanoseconds since the start of 1970 in UTC; earlier points are negative. -/
structure Instant where
  nanos : Int
deriving DecidableEq, Inhabited

namespace Instant

instance : LE Instant := ⟨fun a b => a.nanos ≤ b.nanos⟩

instance : LT Instant := ⟨fun a b => a.nanos < b.nanos⟩

instance (a b : Instant) : Decidable (a ≤ b) := inferInstanceAs (Decidable (a.nanos ≤ b.nanos))

instance (a b : Instant) : Decidable (a < b) := inferInstanceAs (Decidable (a.nanos < b.nanos))

instance : HAdd Instant Span Instant := ⟨fun t d => ⟨t.nanos + d.nanos⟩⟩

/-- The start of a second, counted from the start of 1970. -/
def ofSecond (s : Int) : Instant := ⟨s * nanosPerSecond⟩

/-- The second an instant lies in, counted from the start of 1970. -/
def second (t : Instant) : Int := t.nanos / nanosPerSecond

/-- The nanoseconds passed since the start of the second. -/
def subsecond (t : Instant) : Nat := (t.nanos % nanosPerSecond).toNat

/-- The millisecond an instant lies in, counted from the start of 1970. -/
def millis (t : Instant) : Int := t.nanos / 1000000

/-- The second in which the calendar ends, in the year 262142. -/
def lastSecond : Int := 8210266876799

/-- The first instant of the calendar, at the start of the year -262143. -/
def earliest : Instant := ofSecond (-8334601228800)

/-- The last instant of the calendar. -/
def latest : Instant := ⟨lastSecond * nanosPerSecond + 999999999⟩

theorem le_def {a b : Instant} : a ≤ b ↔ a.nanos ≤ b.nanos := Iff.rfl

theorem lt_def {a b : Instant} : a < b ↔ a.nanos < b.nanos := Iff.rfl

@[simp] theorem nanos_add (t : Instant) (d : Span) : (t + d).nanos = t.nanos + d.nanos := rfl

@[simp] theorem add_zero (t : Instant) : t + Span.zero = t := by
  show Instant.mk (t.nanos + (0 : Nat)) = t
  simp

/-- A span moves an instant forward. -/
theorem le_add (t : Instant) (d : Span) : t ≤ t + d := by
  rw [le_def, nanos_add]
  omega

/-- The second of an instant starts no later than it. -/
theorem second_le (t : Instant) : ofSecond t.second ≤ t := by
  simp only [le_def, ofSecond, second, nanosPerSecond]
  omega

/-- The second after that of an instant starts later than it. -/
theorem lt_second_succ (t : Instant) : t < ofSecond (t.second + 1) := by
  simp only [lt_def, ofSecond, second, nanosPerSecond]
  omega

end Instant

end Rota
