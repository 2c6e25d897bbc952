import Mathlib.Algebra.Order.BigOperators.Group.List
import Mathlib.Algebra.Order.Ring.Nat
import Rota.Proofs.Balance

/-!
# Execution times and their mean

A histogram keeps the number and the sum of the durations recorded in it, both as words, and their mean is the sum over
the number.

- what durations in a row add to a histogram (`Histogram.foldl_record`);
- a mean that is rounded down lies between the least and the greatest value (`exists_bounds`);
- the number, the sum and the mean of any durations in any order (`Metrics.meanLaw`); once the number has wrapped the
  mean is not that of the durations any more (`Metrics.mean?_brief`);
- the durations in the histogram of a scheduler are the execution times of its runs that returned, one after the other
  (`Scheduler.durations_moves`).
-/

namespace Rota

/-! ## Histograms -/

namespace Histogram

/-- The whole microseconds of durations, each as far as a word can tell. -/
def observations (ds : List Span) : List Nat := ds.map fun d => min (d.nanos / 1000) (2 ^ 64 - 1)

/-- The histogram of durations that are recorded one after the other. -/
def ofDurations (ds : List Span) : Histogram := ds.foldl record {}

theorem observations_eq_nil_iff {ds : List Span} : observations ds = [] ↔ ds = [] := List.map_eq_nil_iff

theorem length_observations (ds : List Span) : (observations ds).length = ds.length := List.length_map _

/-- Durations in a row add their number to the count and their microseconds to the sum. -/
theorem foldl_record (h : Histogram) (ds : List Span) :
    ds.foldl record h = ⟨h.count + .ofNat ds.length, h.sum + .ofNat (observations ds).sum⟩ := by
  induction ds generalizing h with
  | nil => simp [observations]
  | cons d ds ih =>
    have hcount : h.count + 1 + UInt64.ofNat ds.length = h.count + UInt64.ofNat (ds.length + 1) := by
      rw [Nat.add_comm, UInt64.ofNat_add, UInt64.add_assoc]
      rfl
    have hsum : h.sum + UInt64.ofNat (observed d) + UInt64.ofNat (observations ds).sum =
        h.sum + UInt64.ofNat (observations (d :: ds)).sum := by
      rw [UInt64.add_assoc, ← UInt64.ofNat_add]
      rfl
    rw [List.foldl_cons, ih, List.length_cons, ← hcount, ← hsum]
    rfl

theorem ofDurations_eq (ds : List Span) : ofDurations ds = ⟨.ofNat ds.length, .ofNat (observations ds).sum⟩ := by
  rw [ofDurations, foldl_record, UInt64.zero_add, UInt64.zero_add]

/-- The order of the durations does not matter. -/
theorem ofDurations_perm {ds es : List Span} (h : es.Perm ds) : ofDurations es = ofDurations ds := by
  have hperm : (observations es).Perm (observations ds) := h.map _
  rw [ofDurations_eq, ofDurations_eq, h.length_eq, hperm.sum_nat]

/-- The mean of durations, whether or not their number and their sum fit into words. -/
theorem mean?_ofDurations (ds : List Span) : (ofDurations ds).mean?.map UInt64.toNat =
    if 2 ^ 64 ∣ ds.length then none else some ((observations ds).sum % 2 ^ 64 / (ds.length % 2 ^ 64)) := by
  have hzero : UInt64.ofNat ds.length = 0 ↔ 2 ^ 64 ∣ ds.length := by
    rw [← UInt64.toNat_inj, UInt64.toNat_ofNat', Nat.dvd_iff_mod_eq_zero]
    rfl
  rw [ofDurations_eq, mean?]
  simp only [hzero]
  split
  · rfl
  · rw [Option.map_some, UInt64.toNat_div, UInt64.toNat_ofNat', UInt64.toNat_ofNat']

end Histogram

/-- A mean that is rounded down lies between the least and the greatest value. -/
theorem exists_bounds {l : List Nat} (hl : l ≠ []) :
    ∃ lo hi, l.min? = some lo ∧ l.max? = some hi ∧ lo ≤ l.sum / l.length ∧ l.sum / l.length ≤ hi := by
  have hpos : 0 < l.length := List.length_pos_iff.2 hl
  obtain ⟨lo, hlo⟩ := Option.isSome_iff_exists.1 (List.isSome_min?_iff.2 hl)
  obtain ⟨hi, hhi⟩ := Option.isSome_iff_exists.1 (List.isSome_max?_iff.2 hl)
  have hleast : l.length * lo ≤ l.sum := List.card_nsmul_le_sum l lo (List.min?_eq_some_iff.1 hlo).2
  have hgreatest : l.sum ≤ l.length * hi := List.sum_le_card_nsmul l hi (List.max?_eq_some_iff.1 hhi).2
  refine ⟨lo, hi, hlo, hhi, ?_, Nat.div_le_of_le_mul hgreatest⟩
  rw [Nat.le_div_iff_mul_le hpos, Nat.mul_comm]
  exact hleast

/-! ## The law -/

namespace Metrics

open Histogram

/-- What metrics tell of durations. -/
structure MeanLaw (m : Metrics) (ds : List Span) : Prop where
  /-- The count is the number of the durations and the sum what they add up to in whole microseconds, both as words. -/
  count : m.durations.count.toNat = ds.length % 2 ^ 64
  sum : m.durations.sum.toNat = (observations ds).sum % 2 ^ 64
  /-- The order of the durations does not matter. -/
  order : ∀ es : List Span, es.Perm ds → ofDurations es = m.durations
  /-- The mean is the one over the other, rounded down; there is none exactly if the count is zero as a word. -/
  words : m.mean?.map UInt64.toNat =
    if 2 ^ 64 ∣ ds.length then none else some ((observations ds).sum % 2 ^ 64 / (ds.length % 2 ^ 64))
  /-- As long as the count does not wrap, there is no mean exactly if nothing was recorded. -/
  none_iff : ds.length < 2 ^ 64 → (m.mean? = none ↔ ds = [])
  /-- As long as the sum does not wrap either, the mean is that of what was recorded, rounded down, and lies between the
  least and the greatest of it. -/
  mean : ds.length < 2 ^ 64 → (observations ds).sum < 2 ^ 64 → ds ≠ [] →
    ∃ mean, m.mean? = some mean ∧ mean.toNat = (observations ds).sum / ds.length ∧
      ∃ least greatest, (observations ds).min? = some least ∧ (observations ds).max? = some greatest ∧
        least ≤ mean.toNat ∧ mean.toNat ≤ greatest

/-- Metrics obey the law for any durations that were recorded, whatever else they count. -/
theorem meanLaw (m : Metrics) (ds : List Span) : ({ m with durations := ofDurations ds } : Metrics).MeanLaw ds := by
  have hwords := mean?_ofDurations ds
  have hdvd : ds.length < 2 ^ 64 → (2 ^ 64 ∣ ds.length ↔ ds = []) := by
    intro hlength
    rw [← List.length_eq_zero_iff]
    exact ⟨fun h => Nat.eq_zero_of_dvd_of_lt h hlength, fun h => h ▸ Nat.dvd_zero _⟩
  refine ⟨?_, ?_, fun es => ofDurations_perm, hwords, fun hlength => ?_, fun hlength hsum hne => ?_⟩
  · rw [ofDurations_eq, UInt64.toNat_ofNat']
  · rw [ofDurations_eq, UInt64.toNat_ofNat']
  · show (ofDurations ds).mean? = none ↔ ds = []
    rw [← Option.map_eq_none_iff, hwords, ← hdvd hlength]
    split
    · exact iff_of_true rfl ‹_›
    · exact iff_of_false (Option.some_ne_none _) ‹_›
  · rw [if_neg (mt (hdvd hlength).1 hne), Nat.mod_eq_of_lt hsum, Nat.mod_eq_of_lt hlength] at hwords
    obtain ⟨mean, hmean, hfloor⟩ := Option.map_eq_some_iff.1 hwords
    obtain ⟨least, greatest, hleast, hgreatest, hle, hge⟩ := exists_bounds (mt observations_eq_nil_iff.1 hne)
    rw [length_observations, ← hfloor] at hle hge
    exact ⟨mean, hmean, hfloor, least, greatest, hleast, hgreatest, hle, hge⟩

/-- Nearly two microseconds, ten milliseconds, and ten milliseconds again. -/
def uneven : List Span := [⟨1999⟩, .ofSeconds 0 10000000, .ofSeconds 0 10000000]

/-- Of nearly two microseconds one is recorded, and the mean is rounded down. -/
theorem meanLaw_uneven :
    observations uneven = [1, 10000, 10000] ∧ ({ durations := ofDurations uneven } : Metrics).mean? = some 6667 ∧
      ∃ mean, ({ durations := ofDurations uneven } : Metrics).mean? = some mean ∧
        mean.toNat = (observations uneven).sum / uneven.length ∧
        ∃ least greatest, (observations uneven).min? = some least ∧ (observations uneven).max? = some greatest ∧
          least ≤ mean.toNat ∧ mean.toNat ≤ greatest :=
  ⟨by decide, by decide, (meanLaw {} uneven).mean (by decide) (by decide) (by decide)⟩

/-! ### A count that wraps -/

/-- As many durations as there are words: some of one microsecond, the others empty. -/
def brief (n : Nat) : List Span := List.replicate n ⟨1000⟩ ++ List.replicate (2 ^ 64 - n) .zero

theorem length_brief {n : Nat} (hn : n ≤ 2 ^ 64) : (brief n).length = 2 ^ 64 := by
  rw [brief, List.length_append, List.length_replicate, List.length_replicate, Nat.add_sub_cancel' hn]

theorem sum_brief (n : Nat) : (observations (brief n)).sum = n := by
  have hone : min ((⟨1000⟩ : Span).nanos / 1000) (2 ^ 64 - 1) = 1 := by decide
  have hzero : min (Span.zero.nanos / 1000) (2 ^ 64 - 1) = 0 := by decide
  rw [observations, brief, List.map_append, List.map_replicate, List.map_replicate, hone, hzero, List.sum_append,
    List.sum_replicate_nat, List.sum_replicate_nat, Nat.mul_one, Nat.mul_zero, Nat.add_zero]

theorem ofDurations_brief {n : Nat} (hn : n ≤ 2 ^ 64) : ofDurations (brief n) = ⟨0, .ofNat n⟩ := by
  rw [ofDurations_eq, length_brief hn, sum_brief]
  rfl

theorem brief_ne_nil {n : Nat} (hn : n ≤ 2 ^ 64) : brief n ≠ [] := by
  intro h
  have hlength := length_brief hn
  rw [h] at hlength
  cases hlength

/-- Of as many durations as there are words none is counted and there is no mean, though their sum is far below the
size of a word: so it is if all are empty, and if five of them last a microsecond. -/
theorem mean?_brief :
    ((ofDurations (brief 0)).count.toNat ≠ (brief 0).length ∧ (observations (brief 0)).sum < 2 ^ 64 ∧ brief 0 ≠ [] ∧
      ({ durations := ofDurations (brief 0) } : Metrics).mean? = none) ∧
    (ofDurations (brief 5) = ⟨0, 5⟩ ∧ (observations (brief 5)).sum = 5 ∧ brief 5 ≠ [] ∧
      ({ durations := ofDurations (brief 5) } : Metrics).mean? = none) := by
  have hnone : (0 : Nat) ≤ 2 ^ 64 := Nat.zero_le _
  have hfive : 5 ≤ 2 ^ 64 := by decide
  rw [ofDurations_brief hnone, ofDurations_brief hfive, length_brief hnone, sum_brief, sum_brief]
  exact ⟨⟨by decide, by decide, brief_ne_nil hnone, rfl⟩, rfl, rfl, brief_ne_nil hfive, rfl⟩

end Metrics

/-! ## The histogram of a scheduler -/

namespace Scheduler

variable {s : Scheduler} {m : Move} {ms : List Move}

/-- The execution time that a move records: the one of a run that returns. -/
def recorded (s : Scheduler) : Move → List Span
  | .finishRun id panicked took => match (s.run? id).map Run.status with
    | some .inside => if panicked then [] else [took]
    | some .skipping => [took]
    | _ => []
  | _ => []

theorem durations_finishRun (s : Scheduler) (id : Nat) (panicked : Bool) (took : Span) :
    (s.finishRun id panicked took).metrics.durations =
      (s.recorded (.finishRun id panicked took)).foldl Histogram.record s.metrics.durations := by
  cases hr : s.run? id with
  | none => simp only [finishRun, recorded, hr, Option.map_none, List.foldl_nil]
  | some r =>
    obtain ⟨i, ⟨key, job⟩, fireTime, status⟩ := r
    simp only [finishRun, recorded, hr, Option.map_some]
    cases status with
    | inside => cases job <;> cases panicked <;> rfl
    | _ => rfl

/-- The loop records no execution time. -/
theorem durations_turn (hs : s.Ordered) (now : Instant) : (s.turn now).1.metrics.durations = s.metrics.durations := by
  cases hdeed : s.deed? with
  | none =>
    rcases turn_of_idle hdeed now with ⟨-, ht⟩ | ⟨id, panicked, -, ⟨-, ht⟩ | ⟨-, ht⟩⟩ | ⟨-, -, ht⟩ | ⟨-, ht⟩ <;>
      rw [ht] <;> rfl
  | some x =>
    cases x with
    | command c =>
      rcases turn_of_command hdeed now with ⟨ticket, inbox, d, reply, -, hd, ht⟩ | ⟨-, ht, -⟩ <;> rw [ht]
      · rcases Dispatcher.handle_cases hd with ⟨rfl, -⟩ | ⟨r, t, -, -, -, rfl, -⟩ | ⟨k, -, -, rfl, -⟩ | ⟨-, rfl, -⟩ <;>
          rfl
      · rfl
    | pass =>
      have hphase : s.phase ≠ .broken := by simp [(running_of_deed hdeed).1]
      obtain ⟨noted, hdispatcher, -⟩ := dispatcher_takePass s now
      rw [turn_of_pass hdeed, metrics, hdispatcher]
      have hcounted := congrArg Metrics.durations (s.dispatcher.metrics_pass now (hs.tidy hphase))
      exact hcounted

/-- A move records the execution time of the run that returns, and nothing else. -/
theorem durations_move (hs : s.Ordered) (m : Move) :
    (s.move m).metrics.durations = (s.recorded m).foldl Histogram.record s.metrics.durations := by
  cases m with
  | turn now => exact durations_turn hs now
  | finishRun id panicked took => exact durations_finishRun s id panicked took
  | start => rcases move_start_cases s with h | ⟨-, h⟩ <;> rw [h] <;> rfl
  | shutdown => rcases move_shutdown_cases s with h | h <;> rw [h] <;> rfl
  | submit c => rcases move_submit_cases s c with ⟨-, h⟩ | ⟨-, h⟩ <;> rw [h] <;> rfl
  | beginRun id =>
    rcases beginRun_cases s id with h | ⟨guards, h⟩ | ⟨kind, h⟩ <;> rw [move, h]
    · rfl
    · rfl
    · cases kind <;> rfl
  | _ => rfl

/-- After any moves the histogram is that of the execution times of the runs that returned. -/
theorem durations_moves (hms : ∀ m ∈ ms, m.Parsed) :
    (({} : Scheduler).moves ms).metrics.durations = .ofDurations (along recorded {} ms) := by
  induction ms using List.reverseRecOn with
  | nil => rfl
  | append_singleton ms m ih =>
    have hms' : ∀ m' ∈ ms, m'.Parsed := fun m' hm' => hms m' (List.mem_append_left _ hm')
    rw [moves_append, along_concat, Histogram.ofDurations, List.foldl_append]
    exact (durations_move (ordered_default.moves hms') m).trans (congrArg (List.foldl _ · _) (ih hms'))

end Scheduler

end Rota
