import Mathlib.Data.List.Nodup
import Rota.Proofs.Site

/-!
# Runs and guards

The runs of a scheduler have numbers of their own, and the guard of a backup is taken exactly while one run of the
backup is at work (`Scheduler.Sound`).

- a run is found where it stands among the others (`exists_split_of_run?`);
- every step of a scheduler keeps this (`sound_step`), so it holds at any time (`sound_steps`).
-/

namespace Rota

/-- A run is at work on a backup. -/
def Run.Inside (b : Backup) (r : Run) : Prop := r.status = .inside ∧ r.detail.job = .backup b

instance (b : Backup) : DecidablePred (Run.Inside b) := fun _ => inferInstanceAs (Decidable (_ ∧ _))

namespace Scheduler

variable {A : Backup → Prop} {s s' : Scheduler} {now : Instant}

/-- The numbers of runs are different, and as many runs of a backup are at work as its guard lets through. -/
structure Sound (s : Scheduler) : Prop where
  ids : (s.runs.map Run.id).Nodup
  fresh : ∀ r ∈ s.runs, r.id < s.nextRun
  guards : ∀ b, s.runs.countP (fun r => r.Inside b) = (s.guard b).taken.toNat

theorem sound_default : ({} : Scheduler).Sound := by
  refine ⟨.nil, by simp, fun b => ?_⟩
  simp [guard]

/-- What leaves runs and guards alone keeps them sound. -/
theorem Sound.of_eq (hs : s.Sound) (hruns : s'.runs = s.runs) (hnext : s'.nextRun = s.nextRun)
    (hguards : s'.guards = s.guards) : s'.Sound := by
  refine ⟨hruns ▸ hs.ids, hruns ▸ hnext ▸ hs.fresh, fun b => ?_⟩
  rw [guard, hguards, hruns]
  exact hs.guards b

/-! ## One run among the others -/

/-- A run that is found stands among the others, and only its own status is set. -/
theorem exists_split_of_run? (hs : (s.runs.map Run.id).Nodup) {id : Nat} {r : Run} (h : s.run? id = some r) :
    ∃ l l', s.runs = l ++ r :: l' ∧
      ∀ status, (s.setStatus id status).runs = l ++ { r with status } :: l' := by
  obtain ⟨hid, l, l', hruns, hl⟩ := List.find?_eq_some_iff_append.1 h
  rw [beq_iff_eq] at hid
  refine ⟨l, l', hruns, fun status => ?_⟩
  rw [hruns, List.map_append, List.map_cons, List.nodup_append, List.nodup_cons] at hs
  have hother : ∀ {l₀ : List Run}, (∀ x ∈ l₀, x.id ≠ id) →
      l₀.map (fun x => if x.id = id then { x with status } else x) = l₀ := by
    intro l₀ hne
    refine (List.map_congr_left fun x hx => ?_).trans (List.map_id' l₀)
    rw [if_neg (hne x hx)]
  have hl' : ∀ x ∈ l', x.id ≠ id := fun x hx heq => hs.2.1.1 (List.mem_map.2 ⟨x, hx, heq.trans hid.symm⟩)
  simp only [setStatus, hruns, List.map_append, List.map_cons, if_pos hid, hother hl']
  rw [hother fun x hx heq => by simpa [heq] using hl x hx]

/-- A change of the status of one run and of the guard of its backup alone keeps the rest sound. -/
theorem sound_setStatus (hs : s.Sound) {id : Nat} {r : Run} (h : s.run? id = some r) {status : RunStatus}
    (hruns : s'.runs = (s.setStatus id status).runs) (hnext : s'.nextRun = s.nextRun)
    (hguards : ∀ b, (s'.guard b).taken.toNat + (if r.Inside b then 1 else 0) =
      (s.guard b).taken.toNat + if ({ r with status } : Run).Inside b then 1 else 0) : s'.Sound := by
  obtain ⟨l, l', hsplit, hset⟩ := exists_split_of_run? hs.ids h
  rw [hset] at hruns
  have hids := hs.ids
  have hfresh := hs.fresh
  rw [hsplit] at hids hfresh
  refine ⟨?_, ?_, fun b => ?_⟩
  · rw [hruns]
    simpa using hids
  · rw [hruns, hnext]
    intro x hx
    rcases List.mem_append.1 hx with hx | hx
    · exact hfresh x (List.mem_append_left _ hx)
    · rcases List.mem_cons.1 hx with rfl | hx
      · exact hfresh r (by simp)
      · exact hfresh x (List.mem_append_right _ (List.mem_cons_of_mem _ hx))
  · have hcount := hs.guards b
    have hb := hguards b
    rw [hsplit, List.countP_append, List.countP_cons] at hcount
    rw [hruns, List.countP_append, List.countP_cons]
    simp only [decide_eq_true_eq] at hcount ⊢
    omega

/-! ## Steps of runs -/

theorem sound_launch (hs : s.Sound) (xs : List Dispatch) : (s.launch xs).Sound := by
  induction xs generalizing s with
  | nil => exact hs
  | cons x xs ih =>
    refine ih ⟨?_, ?_, fun b => ?_⟩
    · rw [List.map_append, List.nodup_append]
      refine ⟨hs.ids, by simp, fun i hi j hj => ?_⟩
      obtain ⟨r, hr, rfl⟩ := List.mem_map.1 hi
      have hlt := hs.fresh r hr
      simp only [List.map_cons, List.map_nil, List.mem_singleton] at hj
      omega
    · intro r hr
      rcases List.mem_append.1 hr with hr | hr
      · exact Nat.lt_succ_of_lt (hs.fresh r hr)
      · cases List.mem_singleton.1 hr
        exact Nat.lt_succ_self _
    · rw [List.countP_append, hs.guards b]
      simp [Run.Inside, guard]

/-- What is launched waits under the next number. -/
theorem run?_launch (hs : s.Sound) (x : Dispatch) :
    (s.launch [x]).run? s.nextRun = some ⟨s.nextRun, x.detail, x.fireTime, .waiting⟩ := by
  show (s.runs ++ [_]).find? _ = _
  have hold : s.runs.find? (·.id == s.nextRun) = none := by
    rw [List.find?_eq_none]
    intro r hr
    have hlt := hs.fresh r hr
    simp only [beq_iff_eq]
    omega
  rw [List.find?_append, hold]
  simp

section Begin

variable {id : Nat} {r : Run} {b : Backup} (hr : s.run? id = some r) (hwaiting : r.status = .waiting)
  (hjob : r.detail.job = .backup b)
include hr hwaiting hjob

/-- A backup that waits gets to work if its guard is free, and takes it. -/
theorem beginRun_of_free (hfree : (s.guard b).taken = false) :
    s.delegated? id = some b ∧
      s.beginRun id = { s with guards := s.guards.insert b ⟨true⟩ }.setStatus id .inside := by
  obtain ⟨i, ⟨key, job⟩, fireTime, status⟩ := r
  simp only at hwaiting hjob
  subst hwaiting hjob
  constructor
  · simp [delegated?, hr, hfree]
  · simp [beginRun, hr, Guard.acquire?, hfree]

/-- A backup that waits is skipped if its guard is taken, and the skip is counted. -/
theorem beginRun_of_taken (htaken : (s.guard b).taken = true) :
    s.delegated? id = none ∧ s.beginRun id = (s.withMetrics (·.skip b.kind)).setStatus id .skipping := by
  obtain ⟨i, ⟨key, job⟩, fireTime, status⟩ := r
  simp only at hwaiting hjob
  subst hwaiting hjob
  constructor
  · simp [delegated?, hr, htaken]
  · simp [beginRun, hr, Guard.acquire?, htaken]

end Begin

theorem sound_beginRun (hs : s.Sound) (id : Nat) : (s.beginRun id).Sound := by
  unfold beginRun
  split
  case h_2 => exact hs
  case h_1 i key job fireTime h =>
    cases job with
    | chore label panics =>
      refine sound_setStatus hs h rfl rfl fun b => ?_
      simp [Run.Inside, setStatus, guard]
    | backup b =>
      dsimp only
      cases hg : (s.guard b).acquire? with
      | some g =>
        obtain ⟨hfree, htaken⟩ := Guard.acquire?_eq_some_iff.1 hg
        refine sound_setStatus hs h rfl rfl fun b' => ?_
        by_cases hb : b = b'
        · subst hb
          simp only [guard] at hfree
          simp [Run.Inside, setStatus, guard, hfree, htaken]
        · simp [Run.Inside, setStatus, guard, Std.ExtTreeMap.getD_insert, hb]
      | none =>
        refine sound_setStatus hs h rfl rfl fun b' => ?_
        simp [Run.Inside, setStatus, guard, withMetrics]

theorem sound_finishRun (hs : s.Sound) (id : Nat) (panicked : Bool) (took : Span) :
    (s.finishRun id panicked took).Sound := by
  unfold finishRun
  split
  case h_3 => exact hs
  case h_2 i detail fireTime h =>
    refine sound_setStatus hs h rfl rfl fun b => ?_
    simp [Run.Inside, setStatus, recordDuration, withMetrics, guard]
  case h_1 i key job fireTime h =>
    cases job with
    | chore label panics =>
      refine sound_setStatus hs h (by cases panicked <;> rfl) (by cases panicked <;> rfl) fun b => ?_
      cases panicked <;> simp [Run.Inside, setStatus, recordDuration, withMetrics, releaseGuard, guard]
    | backup b =>
      -- A run at work holds the guard of its backup.
      have htaken : (s.guard b).taken = true := by
        by_contra hfree
        have hcount := hs.guards b
        rw [Bool.eq_false_iff.2 hfree, Bool.toNat_false, List.countP_eq_zero] at hcount
        have hmem : _ ∈ s.runs := List.mem_of_find?_eq_some h
        exact absurd (hcount _ hmem) (by simp [Run.Inside])
      refine sound_setStatus hs h (by cases panicked <;> rfl) (by cases panicked <;> rfl) fun b' => ?_
      by_cases hb : b = b'
      · subst hb
        simp only [guard] at htaken
        cases panicked <;>
          simp [Run.Inside, setStatus, recordDuration, withMetrics, releaseGuard, guard, Guard.release, htaken]
      · cases panicked <;>
          simp [Run.Inside, setStatus, recordDuration, withMetrics, releaseGuard, guard, Std.ExtTreeMap.getD_insert, hb]

/-- A run that is over is one of the runs. -/
theorem exists_of_endedRun? {id : Nat} {panicked : Bool} (h : s.endedRun? = some (id, panicked)) :
    ∃ r ∈ s.runs, r.id = id ∧ r.status = .ended panicked := by
  obtain ⟨r, hr, hended⟩ := List.exists_of_findSome?_eq_some h
  obtain ⟨p, hp, heq⟩ := Option.map_eq_some_iff.1 hended
  cases heq
  exact ⟨r, hr, rfl, Run.ended?_eq_some_iff.1 hp⟩

theorem sound_join (hs : s.Sound) {id : Nat} {panicked : Bool} (h : s.endedRun? = some (id, panicked)) :
    (s.join id panicked).Sound := by
  obtain ⟨r, hr, hid, hstatus⟩ := exists_of_endedRun? h
  have hfresh : ∀ x ∈ (s.join id panicked).runs, x.id < s.nextRun := fun x hx => hs.fresh x (List.mem_of_mem_filter hx)
  refine ⟨(List.filter_sublist.map Run.id).nodup hs.ids, hfresh, fun b => ?_⟩
  have hcount : (s.join id panicked).runs.countP (fun x => x.Inside b) = s.runs.countP (fun x => x.Inside b) := by
    rw [join, withMetrics, List.countP_filter]
    refine List.countP_congr fun x hx => ?_
    simp only [Bool.and_eq_true, decide_eq_true_eq, bne_iff_ne, ne_eq, and_iff_left_iff_imp]
    -- The run that is taken out is over, so it is not at work.
    rintro ⟨hinside, -⟩ heq
    cases List.inj_on_of_nodup_map hs.ids hx hr (heq.trans hid.symm)
    rw [hstatus] at hinside
    cases hinside
  rw [hcount, hs.guards b]
  rfl

/-! ## Turns -/

theorem sound_takeCommand (hs : s.Sound) (ticket : Nat) (c : Command) : (s.takeCommand now ticket c).1.Sound := by
  unfold takeCommand
  split
  · exact hs.of_eq rfl rfl rfl
  · exact hs.of_eq rfl rfl rfl

theorem sound_takePass (hs : s.Sound) : (s.takePass now).1.Sound := by
  have hpassed : ({ s with dispatcher := (s.dispatcher.pass now).dispatcher } : Scheduler).Sound :=
    hs.of_eq rfl rfl rfl
  have hlaunch := sound_launch hpassed (s.dispatcher.pass now).fired
  unfold takePass
  dsimp only
  split
  · exact hlaunch.of_eq rfl rfl rfl
  · exact hlaunch.of_eq rfl rfl rfl

theorem sound_turn (hs : s.Sound) (now : Instant) : (s.turn now).1.Sound := by
  unfold turn
  split
  · unfold runningTurn
    split
    · exact hs.of_eq rfl rfl rfl
    · split
      case h_1 ticket c inbox _ =>
        have htaken : ({ s with inbox } : Scheduler).Sound := hs.of_eq rfl rfl rfl
        exact sound_takeCommand htaken ticket c
      case h_2 =>
        split
        · exact hs.of_eq rfl rfl rfl
        · split
          · exact (sound_join hs ‹_›).of_eq rfl rfl rfl
          · exact sound_takePass hs
  · unfold drainingTurn
    split
    · exact sound_join hs ‹_›
    · split
      · exact hs.of_eq rfl rfl rfl
      · exact hs
  · exact hs

/-! ## All steps -/

/-- Every step of a scheduler keeps its runs and guards sound. -/
theorem sound_step (h : Step A s s') (hs : s.Sound) : s'.Sound := by
  cases h with
  | start h =>
    unfold start at h
    split at h
    · cases h
      exact hs.of_eq rfl rfl rfl
    · cases h
  | cancel => exact hs.of_eq rfl rfl rfl
  | drop => exact hs.of_eq rfl rfl rfl
  | shutdown h =>
    unfold beginShutdown at h
    split at h
    · cases h
      exact hs.of_eq rfl rfl rfl
    · cases h
  | submit h =>
    unfold submit at h
    split at h
    · cases h
    · cases h
      exact hs.of_eq rfl rfl rfl
    · cases h
  | turn now => exact sound_turn hs now
  | beginRun id => exact sound_beginRun hs id
  | finishRun id panicked took => exact sound_finishRun hs id panicked took
  | registry r hr => exact hs.of_eq rfl rfl rfl

theorem sound_steps (h : Steps A s s') (hs : s.Sound) : s'.Sound := by
  induction h with
  | refl => exact hs
  | tail _ hstep ih => exact sound_step hstep ih

end Scheduler

/-- Runs and guards are sound after any events. -/
theorem Site.sound_run {β : Type} (e : Engine β) {s : Site β} (hs : s.world.scheduler.Sound) (evs : List Event) :
    (s.run e evs).world.scheduler.Sound := by
  induction evs generalizing s with
  | nil => exact hs
  | cons ev evs ih => exact ih (Scheduler.sound_steps (steps_happen e s ev) hs)

end Rota
