import Rota.Job.Key
import Rota.Time.Instant

/-!
# Metrics

The counters of a scheduler are words of 64 bits and wrap. A `Histogram` keeps the number and the sum of the durations
recorded in it, in whole microseconds; `Metrics` holds the counters, two gauges and the histogram of execution times.

- recording adds one to the count and the capped microseconds to the sum (`Histogram.record_toNat`);
- a skip counts for its own kind only (`Metrics.skipped_skip`).
-/

namespace Rota

/-! ## Histograms -/

/-- The number and the sum of durations in microseconds. -/
structure Histogram where
  count : UInt64 := 0
  sum : UInt64 := 0
deriving DecidableEq, Inhabited

namespace Histogram

/-- The microseconds that are recorded for a duration: at most the greatest word. -/
def observed (d : Span) : Nat := min d.micros (UInt64.size - 1)

def record (h : Histogram) (d : Span) : Histogram :=
  { count := h.count + 1, sum := h.sum + UInt64.ofNat (observed d) }

/-- The mean of the recorded durations in whole microseconds, if there are any. -/
def mean? (h : Histogram) : Option UInt64 := if h.count = 0 then none else some (h.sum / h.count)

/-- Recording adds to the count and to the sum, modulo the size of a word. -/
theorem record_toNat (h : Histogram) (d : Span) :
    (h.record d).count.toNat = (h.count.toNat + 1) % UInt64.size ∧
      (h.record d).sum.toNat = (h.sum.toNat + observed d) % UInt64.size := by
  have ho : observed d < UInt64.size := Nat.lt_of_le_of_lt (Nat.min_le_right _ _) (by decide)
  constructor
  · simp [record, UInt64.toNat_add, UInt64.size]
  · rw [record, UInt64.toNat_add, UInt64.toNat_ofNat_of_lt' ho]

end Histogram

/-! ## Metrics -/

/-- What a scheduler counts. -/
structure Metrics where
  /-- Registrations accepted. -/
  scheduled : UInt64 := 0
  /-- Jobs handed over to run. -/
  fired : UInt64 := 0
  /-- Runs that ended in a panic. -/
  panicked : UInt64 := 0
  /-- Clear commands carried out. -/
  clears : UInt64 := 0
  /-- Full backups skipped because one was in progress. -/
  skippedFull : UInt64 := 0
  /-- Incremental backups skipped because one was in progress. -/
  skippedIncremental : UInt64 := 0
  /-- Jobs registered, as the dispatch loop last saw it. -/
  registered : UInt64 := 0
  /-- Runs handed over and not yet joined. -/
  running : UInt64 := 0
  /-- Execution times of runs that returned. -/
  durations : Histogram := {}
deriving DecidableEq, Inhabited

namespace Metrics

/-- Counts a skipped backup of a kind. -/
def skip (m : Metrics) : Kind → Metrics
  | .full => { m with skippedFull := m.skippedFull + 1 }
  | .incremental => { m with skippedIncremental := m.skippedIncremental + 1 }

def skipped (m : Metrics) : Kind → UInt64
  | .full => m.skippedFull
  | .incremental => m.skippedIncremental

/-- A skip counts for its own kind only. -/
theorem skipped_skip (m : Metrics) (k j : Kind) :
    (m.skip k).skipped j = if k = j then m.skipped j + 1 else m.skipped j := by
  cases k <;> cases j <;> rfl

/-- The mean execution time in whole microseconds, if a run returned. -/
def mean? (m : Metrics) : Option UInt64 := m.durations.mean?

end Metrics

end Rota
