import Rota.Proofs.Occurrence
import Rota.Proofs.Request

/-!
# Tidy dispatchers

The stores of a dispatcher are tidy if the queue is the jobs with their pending fire times, every job stands under its
own key, and every registered run-once trigger has its firing ahead (`Dispatcher.Tidy`).

- the head of the queue is an entry that is due first (`earliest?_eq_none_iff`, `earliest?_spec`);
- a command is refused and changes no store, or registers, removes or clears (`handle_cases`);
- in a tidy dispatcher a timer pass finds nothing due, fires the registration that is due first, or breaks down over
  its trigger (`passFor_first`);
- so whatever the loop does, its stores stay tidy (`tidy_course`), and no entry of the queue is ever without a job
  (`stores_of_course`).
-/

namespace Rota

/-! ## The head of the queue -/

namespace Dispatcher

variable {d d' : Dispatcher} {now : Instant} {key k : Key} {due : Instant}

/-- The entry that a walk along a list keeps is one of the list and due first. -/
theorem foldl_sooner (l : List (Key × Instant)) (x : Key × Instant) :
    l.foldl sooner x ∈ x :: l ∧ ∀ y ∈ x :: l, (l.foldl sooner x).2 ≤ y.2 := by
  induction l generalizing x with
  | nil => simp [Instant.le_def]
  | cons y l ih =>
    obtain ⟨hmem, hleast⟩ := ih (sooner x y)
    have hkeeps : sooner x y ∈ x :: y :: l ∧ (sooner x y).2 ≤ x.2 ∧ (sooner x y).2 ≤ y.2 := by
      unfold sooner
      split
      · rename_i h
        exact ⟨by simp, Int.le_of_lt h, Int.le_refl _⟩
      · rename_i h
        exact ⟨by simp, Int.le_refl _, Int.not_lt.1 h⟩
    have hhead := hleast _ List.mem_cons_self
    refine ⟨?_, fun z hz => ?_⟩
    · rcases List.mem_cons.1 hmem with h | h
      · rw [List.foldl_cons, h]
        exact hkeeps.1
      · exact List.mem_cons_of_mem _ (List.mem_cons_of_mem _ h)
    · rcases List.mem_cons.1 hz with rfl | hz
      · exact Int.le_trans hhead hkeeps.2.1
      · rcases List.mem_cons.1 hz with rfl | hz
        · exact Int.le_trans hhead hkeeps.2.2
        · exact hleast z (List.mem_cons_of_mem _ hz)

/-- There is no head exactly if the queue is empty. -/
theorem earliest?_eq_none_iff : d.earliest? = none ↔ d.queue = ∅ := by
  rw [← Std.ExtTreeMap.toList_eq_nil_iff, earliest?]
  cases d.queue.toList <;> simp

/-- The head is an entry of the queue, and no other is due sooner. -/
theorem earliest?_spec (h : d.earliest? = some (key, due)) :
    d.queue[key]? = some due ∧ ∀ {k' : Key} {t : Instant}, d.queue[k']? = some t → due ≤ t := by
  unfold earliest? at h
  cases hl : d.queue.toList with
  | nil =>
    rw [hl] at h
    cases h
  | cons x l =>
    rw [hl] at h
    obtain ⟨hmem, hleast⟩ := foldl_sooner l x
    rw [Option.some.inj h, ← hl] at hmem hleast
    refine ⟨Std.ExtTreeMap.mem_toList_iff_getElem?_eq_some.1 hmem, fun {k' t} ht => ?_⟩
    exact hleast (k', t) (Std.ExtTreeMap.mem_toList_iff_getElem?_eq_some.2 ht)

/-! ## Tidy stores -/

/-- The stores of a dispatcher fit together. -/
structure Tidy (d : Dispatcher) : Prop where
  /-- The queue has the keys of the jobs, each with the fire time that is pending. -/
  queue : d.queue = d.jobs.map fun _ r => r.due
  key : ∀ {k : Key} {r : Registration}, d.jobs[k]? = some r → r.detail.key = k
  /-- A run-once trigger that is registered has handed out its fire time, and the firing is ahead. -/
  pending : ∀ {k : Key} {r : Registration} {o : RunOnce}, d.jobs[k]? = some r → r.trigger = .once o →
    o.progress = .pending

namespace Tidy

theorem getElem?_queue (hd : d.Tidy) (k : Key) : d.queue[k]? = d.jobs[k]?.map Registration.due := by
  rw [hd.queue, Std.ExtTreeMap.getElem?_map]

/-- Only the jobs and the queue matter. -/
theorem of_eq (hd : d.Tidy) (hjobs : d'.jobs = d.jobs) (hqueue : d'.queue = d.queue) : d'.Tidy :=
  ⟨by rw [hqueue, hjobs, hd.queue], fun h => hd.key (hjobs ▸ h), fun h => hd.pending (hjobs ▸ h)⟩

/-- The head of the queue is the fire time of a registered job. -/
theorem exists_of_earliest? (hd : d.Tidy) (h : d.earliest? = some (key, due)) :
    ∃ r, d.jobs[key]? = some r ∧ r.due = due ∧
      ∀ {k' : Key} {r' : Registration}, d.jobs[k']? = some r' → r.due ≤ r'.due := by
  obtain ⟨hkey, hleast⟩ := earliest?_spec h
  rw [hd.getElem?_queue] at hkey
  obtain ⟨r, hr, rfl⟩ := Option.map_eq_some_iff.1 hkey
  refine ⟨r, hr, rfl, fun {k' r'} hr' => ?_⟩
  have hqueue : d.queue[k']? = some r'.due := by
    rw [hd.getElem?_queue, hr']
    rfl
  exact hleast hqueue

end Tidy

theorem tidy_empty (registry : Registry) (metrics : Metrics) : ({ registry, metrics } : Dispatcher).Tidy := by
  refine ⟨rfl, ?_, ?_⟩ <;> simp

end Dispatcher

/-! ## What a trigger leaves behind -/

/-- A run-once trigger that hands out a fire time has the firing ahead. -/
theorem Trigger.pending_of_next {t : Trigger} {now due : Instant} {o : RunOnce}
    (h : t.next now = (.once o, .due due)) : o.progress = .pending := by
  cases t with
  | recurring c => cases h
  | once o' =>
    simp only [next, RunOnce.next] at h
    split at h
    · split at h <;> cases h
      rfl
    · cases h
    · cases h

/-- A registration after its firing at a clock reading, with the next fire time of its trigger; nothing if there is
none. -/
def Registration.fire (now : Instant) (r : Registration) : Option Registration :=
  match r.trigger.next now with
  | (trigger, .due next) => some ⟨r.detail, trigger, next⟩
  | _ => none

theorem Registration.fire_eq_some_iff {now : Instant} {r r' : Registration} :
    r.fire now = some r' ↔ r'.detail = r.detail ∧ r.trigger.next now = (r'.trigger, .due r'.due) := by
  obtain ⟨detail, trigger, due⟩ := r'
  unfold Registration.fire
  split
  · rename_i t next ht
    rw [ht]
    simp only [Option.some.injEq, Registration.mk.injEq, Prod.mk.injEq, NextFire.due.injEq, eq_comm]
  · rename_i ht
    simp only [reduceCtorEq, false_iff, not_and]
    exact fun _ h => ht _ _ h

namespace Dispatcher

/-! ## Commands -/

section Handle

variable {d d' : Dispatcher} {now : Instant} {reply : Except SchedulerError Answer}

/-- A command does nothing, or registers a job under a free key, or removes one or all. -/
theorem handle_cases {c : Command} (h : d.handle now c = some (d', reply)) :
    (d' = d ∧ reply ≠ .ok .done) ∨
    (∃ r t, c = .schedule r.detail t ∧ r.detail.key ∉ d.jobs ∧ t.next now = (r.trigger, .due r.due) ∧ d' = d.enter r ∧
      reply = .ok .done) ∨
    (∃ k, c = .delete k ∧ k ∈ d.jobs ∧
      d' = { d with jobs := d.jobs.erase k, queue := d.queue.erase k, registry := d.registry.remove k } ∧
      reply = .ok .done) ∨
    (c = .clear ∧ d' = d.clear ∧ reply = .ok .done) := by
  cases c with
  | schedule detail t =>
    change d.schedule now detail t = _ at h
    by_cases hk : detail.key ∈ d.jobs
    · rw [schedule_of_mem hk] at h
      cases h
      exact .inl ⟨rfl, by simp⟩
    · obtain ⟨⟨t', a⟩, ht⟩ : ∃ q, t.next now = q := ⟨_, rfl⟩
      cases a with
      | due due =>
        rw [schedule_of_due hk ht] at h
        cases h
        exact .inr (.inl ⟨⟨detail, t', due⟩, t, rfl, hk, ht, rfl, rfl⟩)
      | refused err =>
        rw [schedule_of_refused hk ht] at h
        cases h
        exact .inl ⟨rfl, by simp⟩
      | overrun =>
        rw [schedule_of_overrun hk ht] at h
        cases h
  | delete k =>
    simp only [handle, delete, Option.some.injEq] at h
    split at h
    · rename_i hk
      cases h
      exact .inr (.inr (.inl ⟨k, rfl, hk, rfl, rfl⟩))
    · cases h
      exact .inl ⟨rfl, by simp⟩
  | clear =>
    cases h
    exact .inr (.inr (.inr ⟨rfl, rfl, rfl⟩))
  | keys =>
    cases h
    exact .inl ⟨rfl, by simp⟩
  | info k =>
    cases h
    refine .inl ⟨rfl, ?_⟩
    cases d.jobs[k]? <;> simp

/-- A new registration whose run-once trigger is pending keeps the stores tidy. -/
theorem Tidy.enter (hd : d.Tidy) {r : Registration} (hr : ∀ o, r.trigger = .once o → o.progress = .pending) :
    (d.enter r).Tidy := by
  refine ⟨Std.ExtTreeMap.ext_getElem? fun k => ?_, fun {k r'} h => ?_, fun {k r' o} h ho => ?_⟩
  · simp only [Dispatcher.enter, Std.ExtTreeMap.getElem?_map, Std.ExtTreeMap.getElem?_insert, hd.getElem?_queue]
    split <;> rfl
  · simp only [Dispatcher.enter, Std.ExtTreeMap.getElem?_insert, Std.LawfulEqCmp.compare_eq_iff_eq] at h
    split at h
    · rename_i hk
      cases h
      exact hk
    · exact hd.key h
  · simp only [Dispatcher.enter, Std.ExtTreeMap.getElem?_insert] at h
    split at h
    · cases h
      exact hr o ho
    · exact hd.pending h ho

/-- Stores from which the entries of a key are gone are tidy. -/
theorem Tidy.erase (hd : d.Tidy) {k : Key} (hjobs : d'.jobs = d.jobs.erase k) (hqueue : d'.queue = d.queue.erase k) :
    d'.Tidy := by
  have hold : ∀ {k' : Key} {r : Registration}, d'.jobs[k']? = some r → d.jobs[k']? = some r := by
    intro k' r h
    rw [hjobs, Std.ExtTreeMap.getElem?_erase] at h
    split at h
    · cases h
    · exact h
  refine ⟨Std.ExtTreeMap.ext_getElem? fun k' => ?_, fun h => hd.key (hold h), fun h => hd.pending (hold h)⟩
  simp only [hqueue, hjobs, Std.ExtTreeMap.getElem?_map, Std.ExtTreeMap.getElem?_erase, hd.getElem?_queue]
  split <;> rfl

/-- A command that is carried out keeps the stores tidy. -/
theorem Tidy.handle (hd : d.Tidy) {c : Command} (h : d.handle now c = some (d', reply)) : d'.Tidy := by
  rcases handle_cases h with ⟨rfl, -⟩ | ⟨r, t, -, -, ht, rfl, -⟩ | ⟨k, -, -, rfl, -⟩ | ⟨-, rfl, -⟩
  · exact hd
  · refine hd.enter fun o ho => ?_
    rw [ho] at ht
    exact Trigger.pending_of_next ht
  · exact hd.erase rfl rfl
  · exact (tidy_empty d.clear.registry d.clear.metrics).of_eq rfl rfl

end Handle

/-! ## Timer passes -/

section Pass

variable {d : Dispatcher} {now : Instant} {n : Nat}

/-- The dispatcher after the firing of a job, with the registration that is left of it. -/
def settle (d : Dispatcher) (k : Key) : Option Registration → Dispatcher
  | some r => { d with
      jobs := d.jobs.insert k r
      queue := (d.queue.erase k).insert k r.due
      metrics := countFired d.metrics }
  | none => { d with
      jobs := d.jobs.erase k
      queue := d.queue.erase k
      metrics := countFired d.metrics }

theorem getElem?_jobs_settle (d : Dispatcher) (k : Key) (o : Option Registration) (k' : Key) :
    (d.settle k o).jobs[k']? = if k = k' then o else d.jobs[k']? := by
  cases o <;> simp only [settle, Std.ExtTreeMap.getElem?_insert, Std.ExtTreeMap.getElem?_erase,
    Std.LawfulEqCmp.compare_eq_iff_eq]

theorem getElem?_queue_settle (d : Dispatcher) (k : Key) (o : Option Registration) (k' : Key) :
    (d.settle k o).queue[k']? = if k = k' then o.map Registration.due else d.queue[k']? := by
  cases o <;> simp only [settle, Std.ExtTreeMap.getElem?_insert, Std.ExtTreeMap.getElem?_erase,
    Std.LawfulEqCmp.compare_eq_iff_eq] <;> split <;> simp_all

/-- A timer pass over tidy stores finds nothing due, or comes to a registration before which no other is due: it fires
it, or breaks down over its trigger. How many entries the pass may handle does not matter for what it comes to. -/
theorem passFor_first (hd : d.Tidy) (now : Instant) :
    ((∀ n, passFor now n d = { dispatcher := d }) ∧
        ∀ (k : Key) (r : Registration), d.jobs[k]? = some r → now < r.due) ∨
    ∃ (k : Key) (r : Registration), d.jobs[k]? = some r ∧ r.due ≤ now ∧
      (∀ (k' : Key) (r' : Registration), d.jobs[k']? = some r' → r.due ≤ r'.due) ∧
      (((∀ n, passFor now (n + 1) d = (passFor now n (d.settle k (r.fire now))).after ⟨r.detail, r.due⟩) ∧
          (r.trigger.next now).2 ≠ .overrun) ∨
        (∀ n, passFor now (n + 1) d = { dispatcher := { d with queue := d.queue.erase k }, broken := true }) ∧
          (r.trigger.next now).2 = .overrun) := by
  cases he : d.earliest? with
  | none =>
    refine .inl ⟨fun n => ?_, fun k r hr => ?_⟩
    · cases n with
      | zero => rfl
      | succ n => rw [passFor, he]
    · have hqueue := hd.getElem?_queue k
      rw [earliest?_eq_none_iff.1 he, hr] at hqueue
      simp at hqueue
  | some x =>
    obtain ⟨k, due⟩ := x
    obtain ⟨r, hr, rfl, hleast⟩ := hd.exists_of_earliest? he
    by_cases hdue : now < r.due
    · refine .inl ⟨fun n => ?_, fun k' r' hr' => ?_⟩
      · cases n with
        | zero => rfl
        | succ n => simp only [passFor, he, hdue, ↓reduceIte]
      · exact Int.lt_of_lt_of_le hdue (hleast hr')
    · refine .inr ⟨k, r, hr, Instant.not_lt.1 hdue, fun k' r' hr' => hleast hr', ?_⟩
      obtain ⟨⟨t', a⟩, ht⟩ : ∃ q, r.trigger.next now = q := ⟨_, rfl⟩
      simp only [passFor, he, hdue, ↓reduceIte, hr, ht]
      unfold Registration.fire
      rw [ht]
      cases a <;> simp [settle]

/-- A timer pass over tidy stores finds nothing due, fires a registration that is due, or breaks down over its trigger.
-/
theorem passFor_succ_cases (hd : d.Tidy) (now : Instant) (n : Nat) :
    (passFor now (n + 1) d = { dispatcher := d } ∧
        ∀ (k : Key) (r : Registration), d.jobs[k]? = some r → now < r.due) ∨
    ∃ (k : Key) (r : Registration), d.jobs[k]? = some r ∧ r.due ≤ now ∧
      ((passFor now (n + 1) d = (passFor now n (d.settle k (r.fire now))).after ⟨r.detail, r.due⟩ ∧
          (r.trigger.next now).2 ≠ .overrun) ∨
        passFor now (n + 1) d = { dispatcher := { d with queue := d.queue.erase k }, broken := true } ∧
          (r.trigger.next now).2 = .overrun) := by
  rcases passFor_first hd now with ⟨hp, hlater⟩ | ⟨k, r, hr, hdue, -, ⟨hp, hover⟩ | ⟨hp, hover⟩⟩
  · exact .inl ⟨hp _, hlater⟩
  · exact .inr ⟨k, r, hr, hdue, .inl ⟨hp n, hover⟩⟩
  · exact .inr ⟨k, r, hr, hdue, .inr ⟨hp n, hover⟩⟩

/-- What is left of a registration after its firing keeps the stores tidy. -/
theorem Tidy.settle (hd : d.Tidy) {k : Key} {r : Registration} (hr : d.jobs[k]? = some r) :
    (d.settle k (r.fire now)).Tidy := by
  refine ⟨Std.ExtTreeMap.ext_getElem? fun k' => ?_, fun {k' r'} h => ?_, fun {k' r' o} h ho => ?_⟩
  · rw [Std.ExtTreeMap.getElem?_map, getElem?_queue_settle, getElem?_jobs_settle, hd.getElem?_queue]
    split <;> rfl
  · rw [getElem?_jobs_settle] at h
    split at h
    · rename_i hk
      rw [(Registration.fire_eq_some_iff.1 h).1, hd.key hr, hk]
    · exact hd.key h
  · rw [getElem?_jobs_settle] at h
    split at h
    · have hnext := (Registration.fire_eq_some_iff.1 h).2
      rw [ho] at hnext
      exact Trigger.pending_of_next hnext
    · exact hd.pending h ho

/-- A timer pass that does not break down keeps the stores tidy, however far it has come. -/
theorem Tidy.passFor (hd : d.Tidy) (h : (Dispatcher.passFor now n d).broken = false) :
    (Dispatcher.passFor now n d).dispatcher.Tidy := by
  induction n generalizing d with
  | zero => exact hd
  | succ n ih =>
    rcases passFor_succ_cases hd now n with ⟨hp, -⟩ | ⟨k, r, hr, -, ⟨hp, -⟩ | ⟨hp, -⟩⟩
    · rw [hp]
      exact hd
    · rw [hp] at h ⊢
      exact ih (hd.settle hr) h
    · rw [hp] at h
      cases h

end Pass

/-! ## Courses -/

/-- What the loop of a scheduler does with the stores. -/
inductive Deed
  | command (c : Command)
  | pass
deriving DecidableEq

/-- The dispatcher after a deed at a clock reading; nothing if it breaks down. -/
def carryOut (d : Dispatcher) (now : Instant) : Deed → Option Dispatcher
  | .command c => (d.handle now c).map Prod.fst
  | .pass => if (d.pass now).broken then none else some (d.pass now).dispatcher

/-- The dispatcher after deeds in a row, each at a clock reading of its own. -/
def course (d : Dispatcher) : List (Instant × Deed) → Option Dispatcher
  | [] => some d
  | (now, x) :: xs => (d.carryOut now x).bind fun d => d.course xs

theorem Tidy.carryOut {d d' : Dispatcher} {now : Instant} {x : Deed} (hd : d.Tidy) (h : d.carryOut now x = some d') :
    d'.Tidy := by
  cases x with
  | command c =>
    obtain ⟨⟨d, reply⟩, hc, rfl⟩ := Option.map_eq_some_iff.1 h
    exact hd.handle hc
  | pass =>
    simp only [Dispatcher.carryOut] at h
    split at h
    · cases h
    · rename_i hbroken
      cases h
      exact hd.passFor (Bool.eq_false_iff.2 hbroken)

theorem tidy_course {d d' : Dispatcher} (hd : d.Tidy) {xs : List (Instant × Deed)} (h : d.course xs = some d') :
    d'.Tidy := by
  induction xs generalizing d with
  | nil =>
    cases h
    exact hd
  | cons x xs ih =>
    obtain ⟨d₁, hd₁, hxs⟩ := Option.bind_eq_some_iff.1 h
    exact ih (hd.carryOut hd₁) hxs

/-- Whatever an empty dispatcher carries out at whatever readings, its queue has the keys of its jobs, each once and
with the fire time that is stored with the job; each job stands under its own key; a run-once trigger that is registered
has its firing ahead; and a timer pass, however far it has come, finds a job for the entry at the head of the queue. -/
theorem stores_of_course {registry : Registry} {metrics : Metrics} {xs : List (Instant × Deed)} {d : Dispatcher}
    (h : ({ registry, metrics } : Dispatcher).course xs = some d) :
    d.queue.keys = d.jobs.keys ∧ d.queue.keys.Nodup ∧
    (∀ (k : Key) (r : Registration), d.jobs[k]? = some r → d.queue[k]? = some r.due ∧ r.detail.key = k ∧
      ∀ o, r.trigger = .once o → o.progress = .pending) ∧
    ∀ (now : Instant) (n : Nat) (k : Key) (due : Instant), (passFor now n d).broken = false →
      (passFor now n d).dispatcher.earliest? = some (k, due) → k ∈ (passFor now n d).dispatcher.jobs := by
  have hd : d.Tidy := tidy_course (tidy_empty registry metrics) h
  refine ⟨?_, Std.ExtTreeMap.nodup_keys, fun k r hr => ⟨?_, hd.key hr, fun o => hd.pending hr⟩,
    fun now n k due hbroken he => ?_⟩
  · rw [hd.queue, Std.ExtTreeMap.keys_map]
  · rw [hd.getElem?_queue, hr]
    rfl
  · obtain ⟨r, hr, -⟩ := (hd.passFor hbroken).exists_of_earliest? he
    exact Std.ExtTreeMap.mem_iff_isSome_getElem?.2 (by rw [hr]; rfl)

/-- A trigger that fires at the turn of two years. -/
def newYear : Recurring := ⟨"0 0 0 1 1 * 2025,2026", ⟨[0], [0], [0], [1], [1], List.range' 1 7, [2025, 2026]⟩⟩

/-- A job for the turn of the year and one that fires once are registered, and a pass at midnight fires both. -/
def midnight : List (Instant × Deed) :=
  [(.ofSecond 1735689000, .command (.schedule ⟨.full "daily", .chore "fireworks" false⟩ (.recurring newYear))),
    (.ofSecond 1735689000, .command (.schedule ⟨.catchUp "daily", .chore "toast" false⟩ .immediate)),
    (.ofSecond 1735689600, .pass)]

/-- The job that fires once is gone, and the other waits for the year after. -/
theorem stores_midnight : ∃ d, ({} : Dispatcher).course midnight = some d ∧
    d.jobs.toList.map (fun q => (q.1, q.2.due)) = [(Key.full "daily", .ofSecond 1767225600)] ∧
    d.queue.keys = d.jobs.keys ∧
    ∀ n k due, (passFor (.ofSecond 1767225600) n d).broken = false →
      (passFor (.ofSecond 1767225600) n d).dispatcher.earliest? = some (k, due) →
      k ∈ (passFor (.ofSecond 1767225600) n d).dispatcher.jobs := by
  have hjobs : (({} : Dispatcher).course midnight).map (fun d => d.jobs.toList.map fun q => (q.1, q.2.due)) =
      some [(Key.full "daily", .ofSecond 1767225600)] := by decide +kernel
  obtain ⟨d, hd, hdue⟩ := Option.map_eq_some_iff.1 hjobs
  obtain ⟨hkeys, -, -, hheads⟩ := stores_of_course hd
  exact ⟨d, hd, hdue, hkeys, hheads _⟩

end Dispatcher

end Rota
