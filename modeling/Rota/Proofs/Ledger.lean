import Mathlib.Data.List.Induction
import Rota.Proofs.Tally

/-!
# Runs that begin and end

A run that was launched is under way until it ends, once, and is not lost (`Scheduler.entries_moves`).

- a move launches runs at the end of the list and ends those it brings to their end (`Scheduler.accounts_move`);
- launched runs are numbered one after the other (`Scheduler.ids_move`);
- what was launched and what ended is what is counted (`Scheduler.Ledger`, `Scheduler.ledger_moves`).
-/

namespace Rota

namespace Run

/-- A run that is over has returned or panicked. -/
def isOver (r : Run) : Bool := r.ended?.isSome

/-- A run as it was launched. -/
def asLaunched (r : Run) : Run := { r with status := .waiting }

theorem isOver_eq_true_iff {r : Run} : r.isOver = true ↔ ∃ panicked, r.status = .ended panicked := by
  simp only [isOver, Option.isSome_iff_exists, ended?_eq_some_iff]

theorem isOver_eq_false_of_waiting {r : Run} (h : r.status = .waiting) : r.isOver = false := by
  simp [isOver, ended?, h]

theorem asLaunched_of_waiting {r : Run} (h : r.status = .waiting) : r.asLaunched = r := by
  obtain ⟨_, _, _, _⟩ := r
  exact congrArg _ h.symm

end Run

namespace Scheduler

variable {s : Scheduler} {m : Move} {ms ms' : List Move} {now : Instant}

/-! ## Beginnings and ends -/

/-- The runs that a move launches. -/
def launched (s : Scheduler) (m : Move) : List Run := (s.move m).runs.drop s.runs.length

/-- The runs that end in a move. -/
def ended (s : Scheduler) (m : Move) : List Run := (s.move m).runs.filter fun r => r.isOver && decide (r ∉ s.runs)

/-- The runs that are not over, as they were launched. -/
def underWay (s : Scheduler) : List Run := (s.runs.filter (!·.isOver)).map Run.asLaunched

/-- A move that brings no run to its end. -/
theorem ended_eq_nil (h : ∀ r ∈ (s.move m).runs, r.isOver = true → r ∈ s.runs) : s.ended m = [] := by
  refine List.filter_eq_nil_iff.2 fun r hr hnew => ?_
  rw [Bool.and_eq_true, decide_eq_true_eq] at hnew
  exact hnew.2 (h r hr hnew.1)

/-- What a move launches and ends, and what it counts of that. -/
structure Accounts (s : Scheduler) (m : Move) : Prop where
  /-- A run that is launched or under way ends or goes on being under way. -/
  entries : ((s.ended m).map Run.asLaunched ++ (s.move m).underWay).Perm (s.underWay ++ s.launched m)
  fired : (s.move m).metrics.fired = s.metrics.fired + UInt64.ofNat (s.launched m).length
  returned : (s.move m).metrics.durations.count =
    s.metrics.durations.count + UInt64.ofNat ((s.ended m).countP (·.status = .ended false))
  /-- A panic is counted when the run is joined. -/
  panicked : (s.move m).metrics.panicked + UInt64.ofNat ((s.move m).runs.countP (·.status = .ended true)) =
    s.metrics.panicked + UInt64.ofNat (s.runs.countP (·.status = .ended true)) +
      UInt64.ofNat ((s.ended m).countP (·.status = .ended true))

section Accounts

/-- The counters that the accounts are kept of, from what is counted of runs. -/
theorem counts_of_ofRuns {a b : Metrics} (h : a.ofRuns = b) :
    a.fired = b.fired ∧ a.durations.count = b.durations.count ∧ a.panicked = b.panicked := by
  subst h
  exact ⟨rfl, rfl, rfl⟩

/-- A skip counts nowhere else. -/
theorem counts_of_skip {a b : Metrics} {k : Kind} (h : a.ofRuns = b.ofRuns.skip k) :
    a.fired = b.fired ∧ a.durations.count = b.durations.count ∧ a.panicked = b.panicked := by
  obtain ⟨hfired, hcount, hpanicked⟩ := counts_of_ofRuns h
  cases k <;> exact ⟨hfired, hcount, hpanicked⟩

variable {l l' : List Run} {r : Run}

/-- A run that ends among the others is the only one. -/
theorem ended_of_split (hs : s.Sound) {panicked : Bool} (hsplit : s.runs = l ++ r :: l')
    (hwork : r.isOver = false) (hruns : (s.move m).runs = l ++ { r with status := .ended panicked } :: l') :
    s.ended m = [{ r with status := .ended panicked }] := by
  have hnew : ({ r with status := .ended panicked } : Run) ∉ s.runs := by
    intro hmem
    have hr : r ∈ s.runs := hsplit ▸ List.mem_append_right _ List.mem_cons_self
    have heq := List.inj_on_of_nodup_map hs.ids hmem hr rfl
    rw [← heq] at hwork
    cases hwork
  have hold : ∀ x ∈ l ++ l', ¬ (x.isOver && decide (x ∉ s.runs)) = true := by
    intro x hx
    have hmem : x ∈ s.runs := by
      rw [hsplit]
      exact List.mem_append.2 ((List.mem_append.1 hx).imp_right (List.mem_cons_of_mem _))
    simp [hmem]
  unfold ended
  rw [hruns, List.filter_append, List.filter_cons_of_pos (by simp [hnew, Run.isOver, Run.ended?]),
    List.filter_eq_nil_iff.2 fun x hx => hold x (List.mem_append_left _ hx),
    List.filter_eq_nil_iff.2 fun x hx => hold x (List.mem_append_right _ hx)]
  rfl

/-- A run among the others that gets to work or skips its work stays under way. -/
theorem entries_of_begins {status : RunStatus} (hsplit : s.runs = l ++ r :: l')
    (hwaiting : r.status = .waiting) (hstatus : ∀ p, status ≠ .ended p)
    (hruns : (s.move m).runs = l ++ { r with status } :: l') :
    s.ended m = [] ∧ s.launched m = [] ∧ (s.move m).underWay = s.underWay ∧
      (s.move m).runs.countP (·.status = .ended true) = s.runs.countP (·.status = .ended true) := by
  have hbefore : r.isOver = false := Run.isOver_eq_false_of_waiting hwaiting
  have hafter : ({ r with status } : Run).isOver = false := by
    rw [Bool.eq_false_iff, Ne, Run.isOver_eq_true_iff]
    rintro ⟨p, hp⟩
    exact hstatus p hp
  refine ⟨ended_eq_nil fun x hx hover => ?_, ?_, ?_, ?_⟩
  · rw [hsplit]
    rcases List.mem_append.1 (hruns ▸ hx) with hx | hx
    · exact List.mem_append_left _ hx
    · rcases List.mem_cons.1 hx with rfl | hx
      · rw [hafter] at hover
        cases hover
      · exact List.mem_append_right _ (List.mem_cons_of_mem _ hx)
  · exact List.drop_eq_nil_of_le (by simp [hruns, hsplit])
  · simp [underWay, hruns, hsplit, hbefore, hafter, Run.asLaunched]
  · simp [hruns, hsplit, hwaiting, hstatus true]

/-- A move that launches and ends nothing. -/
theorem Accounts.of_quiet (hended : s.ended m = []) (hlaunched : s.launched m = [])
    (hway : (s.move m).underWay = s.underWay) (hfired : (s.move m).metrics.fired = s.metrics.fired)
    (hcount : (s.move m).metrics.durations.count = s.metrics.durations.count)
    (hpanicked : (s.move m).metrics.panicked + UInt64.ofNat ((s.move m).runs.countP (·.status = .ended true)) =
      s.metrics.panicked + UInt64.ofNat (s.runs.countP (·.status = .ended true))) : s.Accounts m := by
  refine ⟨?_, ?_, ?_, ?_⟩
  · rw [hended, hlaunched, hway, List.append_nil]
    exact .refl _
  · rw [hlaunched, hfired]
    exact (UInt64.add_zero _).symm
  · rw [hended, hcount]
    exact (UInt64.add_zero _).symm
  · rw [hended, hpanicked]
    exact (UInt64.add_zero _).symm

theorem accounts_of_launches {l : List Run} (hruns : (s.move m).runs = s.runs ++ l)
    (hwaiting : ∀ r ∈ l, r.status = .waiting)
    (hfired : (s.move m).metrics.fired = s.metrics.fired + UInt64.ofNat l.length)
    (hcount : (s.move m).metrics.durations.count = s.metrics.durations.count)
    (hpanicked : (s.move m).metrics.panicked = s.metrics.panicked) : s.Accounts m := by
  have hended : s.ended m = [] := by
    refine ended_eq_nil fun r hr hover => ?_
    rcases List.mem_append.1 (hruns ▸ hr) with hr | hr
    · exact hr
    · rw [Run.isOver_eq_false_of_waiting (hwaiting r hr)] at hover
      cases hover
  have hlaunched : s.launched m = l := by rw [launched, hruns, List.drop_left]
  have hfresh : (l.filter (!·.isOver)).map Run.asLaunched = l := by
    rw [List.filter_eq_self.2 fun r hr => by simp [Run.isOver_eq_false_of_waiting (hwaiting r hr)]]
    exact (List.map_congr_left fun r hr => Run.asLaunched_of_waiting (hwaiting r hr)).trans (List.map_id' l)
  have hnone : l.countP (·.status = .ended true) = 0 := List.countP_eq_zero.2 fun r hr => by simp [hwaiting r hr]
  refine ⟨?_, ?_, ?_, ?_⟩
  · simp [hended, hlaunched, underWay, hruns, hfresh]
  · rw [hlaunched, hfired]
  · simp [hended, hcount]
  · simp [hended, hruns, hnone, hpanicked]

theorem accounts_of_ends (hs : s.Sound) {p : Bool} (hsplit : s.runs = l ++ r :: l')
    (hwork : r.status = .inside ∨ r.status = .skipping)
    (hruns : (s.move m).runs = l ++ { r with status := .ended p } :: l')
    (hfired : (s.move m).metrics.fired = s.metrics.fired)
    (hcount : (s.move m).metrics.durations.count = s.metrics.durations.count + UInt64.ofNat (!p).toNat)
    (hpanicked : (s.move m).metrics.panicked = s.metrics.panicked) : s.Accounts m := by
  have hover : r.isOver = false := by rcases hwork with h | h <;> simp [Run.isOver, Run.ended?, h]
  have hstatus : r.status ≠ .ended true := by rcases hwork with h | h <;> simp [h]
  have hended := ended_of_split hs hsplit hover hruns
  have hlaunched : s.launched m = [] := List.drop_eq_nil_of_le (by simp [hruns, hsplit])
  refine ⟨?_, ?_, ?_, ?_⟩
  · simp only [hended, hlaunched, underWay, hruns, hsplit, List.filter_append, List.filter_cons, hover]
    simpa [Run.isOver, Run.ended?, Run.asLaunched] using List.perm_middle.symm
  · simp [hlaunched, hfired]
  · cases p <;> simp [hended, hcount]
  · cases p <;> simp [hruns, hsplit, hended, hstatus, hpanicked, UInt64.ofNat_add, UInt64.add_assoc]

theorem accounts_of_joins {p : Bool} (hsplit : s.runs = l ++ r :: l') (hended : r.status = .ended p)
    (hruns : (s.move m).runs = l ++ l') (hfired : (s.move m).metrics.fired = s.metrics.fired)
    (hcount : (s.move m).metrics.durations.count = s.metrics.durations.count)
    (hpanicked : (s.move m).metrics.panicked = s.metrics.panicked + UInt64.ofNat p.toNat) : s.Accounts m := by
  have hold : ∀ x ∈ l ++ l', x ∈ s.runs := by
    intro x hx
    rw [hsplit]
    exact List.mem_append.2 ((List.mem_append.1 hx).imp_right (List.mem_cons_of_mem _))
  have hover : r.isOver = true := Run.isOver_eq_true_iff.2 ⟨p, hended⟩
  refine .of_quiet (ended_eq_nil fun x hx _ => hold x (hruns ▸ hx)) ?_ ?_ hfired hcount ?_
  · exact List.drop_eq_nil_of_le (by simp [hruns, hsplit])
  · simp [underWay, hruns, hsplit, hover]
  · rw [hpanicked, hruns, hsplit]
    cases p
    · simp [hended]
    · simp only [List.countP_append, List.countP_cons, hended, decide_true, if_true, UInt64.ofNat_add, Bool.toNat_true]
      ac_rfl

/-- Every move keeps the accounts. -/
theorem accounts_move (hs : s.Sound) (hordered : s.Ordered) (m : Move) : s.Accounts m := by
  cases runStep hs hordered m with
  | still hruns hcounts _ =>
    obtain ⟨hfired, hcount, hpanicked⟩ := counts_of_ofRuns hcounts
    refine .of_quiet (ended_eq_nil fun r hr _ => hruns ▸ hr) ?_ ?_ hfired hcount ?_
    · rw [launched, hruns, List.drop_length]
    · rw [underWay, hruns, underWay]
    · rw [hruns]
      exact congrArg (· + _) hpanicked
  | launched l hruns hwaiting hcounts _ =>
    obtain ⟨hfired, hcount, hpanicked⟩ := counts_of_ofRuns hcounts
    exact accounts_of_launches hruns hwaiting hfired hcount hpanicked
  | began l l' r hsplit hwaiting hruns hcounts _ =>
    obtain ⟨hfired, hcount, hpanicked⟩ := counts_of_ofRuns hcounts
    obtain ⟨hended, hlaunched, hway, hover⟩ := entries_of_begins hsplit hwaiting (by simp) hruns
    refine .of_quiet hended hlaunched hway hfired hcount ?_
    rw [hover]
    exact congrArg (· + _) hpanicked
  | skipped l l' r b hsplit hwaiting hruns hcounts _ =>
    obtain ⟨hfired, hcount, hpanicked⟩ := counts_of_skip hcounts
    obtain ⟨hended, hlaunched, hway, hover⟩ := entries_of_begins hsplit hwaiting (by simp) hruns
    exact .of_quiet hended hlaunched hway hfired hcount (by rw [hover, hpanicked])
  | ended l l' r p hsplit hwork hruns hcounts _ =>
    obtain ⟨hfired, hcount, hpanicked⟩ := counts_of_ofRuns hcounts
    exact accounts_of_ends hs hsplit hwork hruns hfired hcount hpanicked
  | joined l l' r p hsplit hended hruns hcounts _ =>
    obtain ⟨hfired, hcount, hpanicked⟩ := counts_of_ofRuns hcounts
    exact accounts_of_joins hsplit hended hruns hfired hcount hpanicked

end Accounts

/-! ### Numbers -/

/-- What is launched has the next numbers. -/
theorem ids_launch (s : Scheduler) (xs : List Dispatch) :
    (s.launch xs).runs.map Run.id = s.runs.map Run.id ++ List.range' s.nextRun xs.length ∧
      (s.launch xs).nextRun = s.nextRun + xs.length := by
  induction xs generalizing s with
  | nil => exact ⟨(List.append_nil _).symm, rfl⟩
  | cons x xs ih =>
    obtain ⟨hids, hnext⟩ := ih { s with
      runs := s.runs ++ [⟨s.nextRun, x.detail, x.fireTime, .waiting⟩]
      nextRun := s.nextRun + 1 }
    refine ⟨hids.trans ?_, hnext.trans ?_⟩
    · rw [List.map_append, List.append_assoc]
      rfl
    · show s.nextRun + 1 + xs.length = s.nextRun + (xs.length + 1)
      omega

/-- A move without a pass hands out no number. -/
theorem nextRun_move_of_no_pass (h : ∀ now, m = .turn now → s.deed? ≠ some .pass) : (s.move m).nextRun = s.nextRun := by
  cases m with
  | turn now =>
    show (s.turn now).1.nextRun = _
    cases hdeed : s.deed? with
    | none =>
      rcases turn_of_idle hdeed now with ⟨-, ht⟩ | ⟨_, _, -, ⟨-, ht⟩ | ⟨-, ht⟩⟩ | ⟨-, -, ht⟩ | ⟨-, ht⟩ <;>
        rw [ht] <;> rfl
    | some x =>
      cases x with
      | command c => rcases turn_of_command hdeed now with ⟨_, _, _, _, -, -, ht⟩ | ⟨-, ht, -⟩ <;> rw [ht]
      | pass => exact absurd hdeed (h now rfl)
  | start => rcases move_start_cases s with hm | ⟨-, hm⟩ <;> rw [hm]
  | shutdown => rcases move_shutdown_cases s with hm | hm <;> rw [hm]
  | submit c => rcases move_submit_cases s c with ⟨-, hm⟩ | ⟨-, hm⟩ <;> rw [hm]
  | beginRun id => rcases beginRun_cases s id with hm | ⟨_, hm⟩ | ⟨_, hm⟩ <;> rw [move, hm] <;> rfl
  | finishRun id panicked took =>
    rcases finishRun_cases s id panicked took with hm | ⟨_, _, hm | hm⟩ <;> rw [move, hm] <;> rfl
  | _ => rfl

theorem launched_eq_nil (h : ∀ now, m = .turn now → s.deed? ≠ some .pass) : s.launched m = [] := by
  have hnone : (s.launched m).map Run.dispatch = [] := handedOver_eq_nil h
  exact List.map_eq_nil_iff.1 hnone

/-- A move hands out the next numbers to what it launches. -/
theorem ids_move (s : Scheduler) (m : Move) :
    List.range s.nextRun ++ (s.launched m).map Run.id = List.range (s.move m).nextRun := by
  by_cases hpass : ∃ now, m = .turn now ∧ s.deed? = some .pass
  · obtain ⟨now, rfl, hdeed⟩ := hpass
    obtain ⟨hids, hnext⟩ := ids_launch { s with dispatcher := (s.dispatcher.pass now).dispatcher }
      (s.dispatcher.pass now).fired
    have hmove : s.move (.turn now) = (s.takePass now).1 := congrArg Prod.fst (turn_of_pass hdeed now)
    have hafter : (s.takePass now).1.nextRun = s.nextRun + (s.dispatcher.pass now).fired.length := by
      rw [← hnext]
      unfold takePass
      dsimp only
      split <;> rfl
    rw [launched, hmove, runs_takePass, List.map_drop, hids, hafter, List.drop_left' (List.length_map _),
      List.range_eq_range', List.range_eq_range', ← List.range'_append_1, Nat.zero_add]
  · push Not at hpass
    rw [launched_eq_nil hpass, nextRun_move_of_no_pass hpass]
    exact List.append_nil _

/-! ## Histories -/

/-- Every run that is under way or launched ends or goes on being under way. -/
theorem entries_moves (hs : s.Sound) (hordered : s.Ordered) (hms : ∀ m ∈ ms, m.Parsed) :
    ((along ended s ms).map Run.asLaunched ++ (s.moves ms).underWay).Perm (s.underWay ++ along launched s ms) := by
  induction ms generalizing s with
  | nil => simp [along, moves]
  | cons m ms ih =>
    have hfirst := (accounts_move hs hordered m).entries
    have hrest := ih (sound_move hs m) (hordered.move (hms m List.mem_cons_self))
      fun m' hm' => hms m' (List.mem_cons_of_mem _ hm')
    show ((s.ended m ++ along ended (s.move m) ms).map Run.asLaunched ++ ((s.move m).moves ms).underWay).Perm
      (s.underWay ++ (s.launched m ++ along launched (s.move m) ms))
    rw [List.map_append, List.append_assoc, ← List.append_assoc s.underWay]
    refine (hrest.append_left _).trans ?_
    rw [← List.append_assoc]
    exact hfirst.append_right _

theorem sound_after (ms : List Move) : (({} : Scheduler).moves ms).Sound := sound_moves sound_default ms

/-- What was launched and what ended, and what is counted of it. -/
structure Ledger (ms : List Move) (s : Scheduler) : Prop where
  /-- Each run that was launched is under way or has ended, once. -/
  entries : ((along ended {} ms).map Run.asLaunched ++ s.underWay).Perm (along launched {} ms)
  /-- The runs have different numbers. -/
  ids : (along launched {} ms).map Run.id = List.range s.nextRun
  fired : s.metrics.fired = UInt64.ofNat (along launched {} ms).length
  returned : s.metrics.durations.count = UInt64.ofNat ((along ended {} ms).countP (·.status = .ended false))
  panicked : s.metrics.panicked + UInt64.ofNat (s.runs.countP (·.status = .ended true)) =
    UInt64.ofNat ((along ended {} ms).countP (·.status = .ended true))

theorem ledger_moves (hms : ∀ m ∈ ms, m.Parsed) : Ledger ms (({} : Scheduler).moves ms) := by
  induction ms using List.reverseRecOn with
  | nil => exact ⟨.refl _, rfl, rfl, rfl, rfl⟩
  | append_singleton ms m ih =>
    have hms' : ∀ m' ∈ ms, m'.Parsed := fun m' hm' => hms m' (List.mem_append_left _ hm')
    obtain ⟨-, hids, hfired, hreturned, hpanicked⟩ := ih hms'
    obtain ⟨-, hfired', hreturned', hpanicked'⟩ := accounts_move (sound_after ms) (ordered_default.moves hms') m
    refine ⟨entries_moves sound_default ordered_default hms, ?_, ?_, ?_, ?_⟩ <;> rw [moves_append, along_concat]
    · rw [List.map_append, hids]
      exact ids_move _ m
    · rw [List.length_append, UInt64.ofNat_add, ← hfired]
      exact hfired'
    · rw [List.countP_append, UInt64.ofNat_add, ← hreturned]
      exact hreturned'
    · rw [List.countP_append, UInt64.ofNat_add, ← hpanicked]
      exact hpanicked'

end Scheduler

end Rota
