import Mathlib.Logic.Function.Basic
import Rota.Proofs.Scan

/-!
# Commands on a table of registrations

To whoever sends it commands a dispatcher is a plain table of registrations by key. Its jobs are the table, its queue
holds the pending fire times of the table and nothing else (`Dispatcher.Holds`), and every command is one operation on
the table or leaves everything as it was (`Dispatcher.CommandLaw`):

- a registration that is accepted writes one entry of the table (`Dispatcher.Holds.enter`), a deletion takes one out
  (`Dispatcher.Holds.erase`), and a clear leaves none (`Dispatcher.holds_clear`);
- a registration that is refused changes nothing, the counters included (`Dispatcher.schedule_cases`);
- so after commands in a row a dispatcher holds what they leave of the table (`Table.serve`,
  `Dispatcher.Holds.handle`, `Dispatcher.holds_course`).
-/

namespace Rota

/-- A table of registrations by key. -/
abbrev Table : Type := Key → Option Registration

/-- The table once a command is carried out at a clock reading. -/
def Table.serve (T : Table) (now : Instant) : Command → Table
  | .schedule detail t =>
    match T detail.key, t.next now with
    | none, (t', .due due) => Function.update T detail.key (some ⟨detail, t', due⟩)
    | _, _ => T
  | .delete key => Function.update T key none
  | .clear => fun _ => none
  | .keys => T
  | .info _ => T

namespace Dispatcher

variable {d d' : Dispatcher} {now : Instant} {detail : Detail} {t : Trigger} {T : Table} {key : Key}

/-! ## Dispatchers that hold a table -/

/-- The registrations of a dispatcher by key. -/
def table (d : Dispatcher) : Table := fun k => d.jobs[k]?

theorem table_eq_none_iff : d.table key = none ↔ key ∉ d.jobs := by
  rw [Std.ExtTreeMap.mem_iff_isSome_getElem?, Bool.not_eq_true, Option.isSome_eq_false_iff, Option.isNone_iff_eq_none,
    table]

theorem table_ne_none_iff : d.table key ≠ none ↔ key ∈ d.jobs := by rw [Ne, table_eq_none_iff, not_not]

/-- The jobs of a dispatcher are a table, and its queue is the pending fire times of the table. -/
structure Holds (d : Dispatcher) (T : Table) : Prop where
  jobs : ∀ k, d.jobs[k]? = T k
  queue : ∀ k, d.queue[k]? = (T k).map Registration.due

theorem Tidy.holds (hd : d.Tidy) : d.Holds d.table := ⟨fun _ => rfl, hd.getElem?_queue⟩

/-- A registration that is accepted is written into the table. -/
theorem Holds.enter (hd : d.Holds T) (r : Registration) :
    (d.enter r).Holds (Function.update T r.detail.key (some r)) := by
  constructor
  · intro k
    simp only [Dispatcher.enter, Std.ExtTreeMap.getElem?_insert, Std.LawfulEqCmp.compare_eq_iff_eq, hd.jobs,
      Function.update_apply, eq_comm (a := k)]
  · intro k
    simp only [Dispatcher.enter, Std.ExtTreeMap.getElem?_insert, Std.LawfulEqCmp.compare_eq_iff_eq, hd.queue,
      Function.update_apply, eq_comm (a := k), apply_ite (Option.map Registration.due), Option.map_some]

/-- A key that is erased from the stores is taken out of the table. -/
theorem Holds.erase (hd : d.Holds T) (hjobs : d'.jobs = d.jobs.erase key) (hqueue : d'.queue = d.queue.erase key) :
    d'.Holds (Function.update T key none) := by
  constructor
  · intro k
    simp only [hjobs, Std.ExtTreeMap.getElem?_erase, Std.LawfulEqCmp.compare_eq_iff_eq, hd.jobs,
      Function.update_apply, eq_comm (a := k)]
  · intro k
    simp only [hqueue, Std.ExtTreeMap.getElem?_erase, Std.LawfulEqCmp.compare_eq_iff_eq, hd.queue,
      Function.update_apply, eq_comm (a := k), apply_ite (Option.map Registration.due), Option.map_none]

theorem holds_clear (d : Dispatcher) : d.clear.Holds fun _ => none :=
  ⟨fun _ => Std.ExtTreeMap.getElem?_empty, fun _ => Std.ExtTreeMap.getElem?_empty⟩

/-! ## One command -/

/-- A registration is accepted if its key is free and its trigger fires. It is refused over a key that is taken,
whatever the trigger, and then over a trigger that does not fire; it is not answered if the trigger has no answer. -/
theorem schedule_cases (d : Dispatcher) (now : Instant) (detail : Detail) (t : Trigger) :
    (d.table detail.key ≠ none ∧ d.schedule now detail t = some (d, .error (.jobAlreadyExists detail.key))) ∨
    (d.table detail.key = none ∧
      ((∃ t' due, t.next now = (t', .due due) ∧
          d.schedule now detail t = some (d.enter ⟨detail, t', due⟩, .ok .done)) ∨
        (∃ source, (t.next now).2 = .refused source ∧
          d.schedule now detail t = some (d, .error (.invalidTrigger detail.key source))) ∨
        ((t.next now).2 = .overrun ∧ d.schedule now detail t = none))) := by
  by_cases hk : detail.key ∈ d.jobs
  · exact .inl ⟨table_ne_none_iff.2 hk, schedule_of_mem hk⟩
  · refine .inr ⟨table_eq_none_iff.2 hk, ?_⟩
    obtain ⟨⟨t', a⟩, ht⟩ : ∃ q, t.next now = q := ⟨_, rfl⟩
    rw [ht]
    cases a with
    | due due => exact .inl ⟨t', due, rfl, schedule_of_due hk ht⟩
    | refused source => exact .inr (.inl ⟨source, rfl, schedule_of_refused hk ht⟩)
    | overrun => exact .inr (.inr ⟨rfl, schedule_of_overrun hk ht⟩)

theorem handle_delete_of_mem (hk : key ∈ d.jobs) (now : Instant) : d.handle now (.delete key) =
    some ({ d with jobs := d.jobs.erase key, queue := d.queue.erase key, registry := d.registry.remove key },
      .ok .done) := by
  rw [Dispatcher.handle, delete, if_pos hk]

theorem handle_delete_of_not_mem (hk : key ∉ d.jobs) (now : Instant) :
    d.handle now (.delete key) = some (d, .error (.jobNotFound key)) := by
  rw [Dispatcher.handle, delete, if_neg hk]

/-- What is taken out of a registry is gone, and the rest stays. -/
theorem get?_remove (r : Registry) (key k : Key) : (r.remove key).get? k = Function.update r.get? key none k := by
  simp only [Registry.get?, Registry.remove, Std.ExtTreeMap.getElem?_erase, Std.LawfulEqCmp.compare_eq_iff_eq,
    Function.update_apply, eq_comm (a := k)]

/-! ## Commands in a row -/

/-- Whatever command is carried out, the dispatcher holds what it leaves of the table. -/
theorem Holds.handle {c : Command} {reply : Except SchedulerError Answer} (hd : d.Holds T)
    (h : d.handle now c = some (d', reply)) : d'.Holds (T.serve now c) := by
  obtain rfl : d.table = T := funext hd.jobs
  cases c with
  | schedule detail t =>
    change d.schedule now detail t = _ at h
    rcases schedule_cases d now detail t with
      ⟨htaken, h'⟩ | ⟨hfree, ⟨t', due, ht, h'⟩ | ⟨source, ht, h'⟩ | ⟨-, h'⟩⟩ <;> cases h'.symm.trans h
    · obtain ⟨r, hr⟩ := Option.ne_none_iff_exists'.1 htaken
      simpa only [Table.serve, hr] using hd
    · simpa only [Table.serve, hfree, ht] using hd.enter ⟨detail, t', due⟩
    · obtain ⟨t', ht'⟩ : ∃ t', t.next now = (t', .refused source) := ⟨_, Prod.ext rfl ht⟩
      simpa only [Table.serve, hfree, ht'] using hd
  | delete key =>
    by_cases hk : key ∈ d.jobs
    · cases (handle_delete_of_mem hk now).symm.trans h
      exact hd.erase rfl rfl
    · cases (handle_delete_of_not_mem hk now).symm.trans h
      rwa [Table.serve, ← table_eq_none_iff.2 hk, Function.update_eq_self]
  | clear =>
    cases h
    exact holds_clear d
  | keys =>
    cases h
    exact hd
  | info key =>
    cases h
    exact hd

/-- After commands in a row a dispatcher holds what they leave of the table, one after another. -/
theorem holds_course {cs : List (Instant × Command)} (hd : d.Holds T)
    (h : d.course (cs.map fun x => (x.1, .command x.2)) = some d') :
    d'.Holds (cs.foldl (fun T x => T.serve x.1 x.2) T) := by
  induction cs generalizing d T with
  | nil =>
    cases h
    exact hd
  | cons x cs ih =>
    obtain ⟨d₁, hd₁, hcs⟩ := Option.bind_eq_some_iff.1 h
    obtain ⟨⟨d₂, reply⟩, hhandle, rfl⟩ := Option.map_eq_some_iff.1 hd₁
    exact ih (hd.handle hhandle) hcs

/-! ## The law -/

/-- Commands are operations on the table of the registrations. -/
structure CommandLaw (d : Dispatcher) (now : Instant) : Prop where
  /-- The dispatcher holds the table. -/
  holds : d.Holds d.table
  /-- A registration is accepted exactly if its key is free and its trigger fires. -/
  accepted_iff : ∀ detail t, (∃ d', d.handle now (.schedule detail t) = some (d', .ok .done)) ↔
    d.table detail.key = none ∧ ∃ due, (t.next now).2 = .due due
  /-- Then it is written into the table, and counted. -/
  accepted : ∀ detail t d' answer, d.handle now (.schedule detail t) = some (d', .ok answer) →
    ∃ t' due, t.next now = (t', .due due) ∧ d'.Holds (Function.update d.table detail.key (some ⟨detail, t', due⟩)) ∧
      d'.registry = d.registry ∧ d'.metrics = { d.metrics with scheduled := d.metrics.scheduled + 1 }
  /-- A registration under a key that is taken is refused, whatever its trigger. -/
  taken : ∀ detail t, d.table detail.key ≠ none →
    d.handle now (.schedule detail t) = some (d, .error (.jobAlreadyExists detail.key))
  /-- A registration under a free key is refused exactly as its trigger is. -/
  invalid : ∀ detail t source, d.table detail.key = none → (t.next now).2 = .refused source →
    d.handle now (.schedule detail t) = some (d, .error (.invalidTrigger detail.key source))
  /-- Nothing else is answered with an error, and none changes anything. -/
  refused : ∀ detail t d' err, d.handle now (.schedule detail t) = some (d', .error err) → d' = d ∧
    (err = .jobAlreadyExists detail.key ∧ d.table detail.key ≠ none ∨
      ∃ source, err = .invalidTrigger detail.key source ∧ d.table detail.key = none ∧ (t.next now).2 = .refused source)
  /-- A deletion goes through exactly if the key is registered. -/
  deleted_iff : ∀ key, (∃ d', d.handle now (.delete key) = some (d', .ok .done)) ↔ d.table key ≠ none
  /-- Then it takes the key, and no other, out of the table and out of the registry. -/
  deleted : ∀ key d' answer, d.handle now (.delete key) = some (d', .ok answer) →
    d'.Holds (Function.update d.table key none) ∧
      (∀ k, d'.registry.get? k = Function.update d.registry.get? key none k) ∧
      d'.registry.sequence = d.registry.sequence ∧ d'.metrics = d.metrics
  missing : ∀ key, d.table key = none → d.handle now (.delete key) = some (d, .error (.jobNotFound key))
  /-- A clear leaves neither table nor registry, and is counted. -/
  cleared : ∃ d', d.handle now .clear = some (d', .ok .done) ∧ d'.Holds (fun _ => none) ∧
    (∀ k, d'.registry.get? k = none) ∧ d'.registry.sequence = d.registry.sequence ∧
    d'.metrics = { d.metrics with clears := d.metrics.clears + 1 }
  /-- The keys of the table are listed in ascending order. -/
  keys : ∃ ks, d.handle now .keys = some (d, .ok (.keys ks)) ∧ ks.Pairwise (fun a b => compare a b = .lt) ∧
    ∀ k, k ∈ ks ↔ d.table k ≠ none
  /-- What is told of a key is what the table says. -/
  info : ∀ key, d.handle now (.info key) = some (d, match d.table key with
    | some r => .ok (.info ⟨key, r.detail.job.text, r.trigger.text, .ofInstant r.due⟩)
    | none => .error (.jobNotFound key))
  /-- The only command without an answer is a registration under a free key whose trigger is asked in the last second of
  the calendar. -/
  unanswered : ∀ c, d.handle now c = none → Instant.lastSecond ≤ now.second ∧
    ∃ detail t, c = .schedule detail t ∧ d.table detail.key = none ∧ (t.next now).2 = .overrun

/-- Tidy stores obey the law at every reading of the clock. -/
theorem commandLaw_of_tidy (hd : d.Tidy) (now : Instant) : d.CommandLaw now where
  holds := hd.holds
  accepted_iff detail t := by
    show (∃ d', d.schedule now detail t = _) ↔ _
    rcases schedule_cases d now detail t with ⟨htaken, h⟩ | ⟨hfree, ⟨t', due, ht, h⟩ | ⟨source, ht, h⟩ | ⟨ht, h⟩⟩
    · simp [h, htaken]
    · simp [h, hfree, ht]
    · simp [h, hfree, ht]
    · simp [h, hfree, ht]
  accepted detail t d' answer hok := by
    change d.schedule now detail t = _ at hok
    rcases schedule_cases d now detail t with ⟨-, h⟩ | ⟨-, ⟨t', due, ht, h⟩ | ⟨source, -, h⟩ | ⟨-, h⟩⟩
    · cases h.symm.trans hok
    · cases h.symm.trans hok
      exact ⟨t', due, ht, hd.holds.enter ⟨detail, t', due⟩, rfl, rfl⟩
    · cases h.symm.trans hok
    · cases h.symm.trans hok
  taken detail t htaken := schedule_of_mem (table_ne_none_iff.1 htaken)
  invalid detail t source hfree ht := schedule_of_refused (table_eq_none_iff.1 hfree) (Prod.ext rfl ht)
  refused detail t d' err herr := by
    change d.schedule now detail t = _ at herr
    rcases schedule_cases d now detail t with ⟨htaken, h⟩ | ⟨hfree, ⟨t', due, -, h⟩ | ⟨source, ht, h⟩ | ⟨-, h⟩⟩
    · cases h.symm.trans herr
      exact ⟨rfl, .inl ⟨rfl, htaken⟩⟩
    · cases h.symm.trans herr
    · cases h.symm.trans herr
      exact ⟨rfl, .inr ⟨source, rfl, hfree, ht⟩⟩
    · cases h.symm.trans herr
  deleted_iff key := by
    rw [table_ne_none_iff]
    by_cases hk : key ∈ d.jobs
    · simp [handle_delete_of_mem hk, hk]
    · simp [handle_delete_of_not_mem hk, hk]
  deleted key d' answer hok := by
    by_cases hk : key ∈ d.jobs
    · cases (handle_delete_of_mem hk now).symm.trans hok
      exact ⟨hd.holds.erase rfl rfl, get?_remove d.registry key, rfl, rfl⟩
    · cases (handle_delete_of_not_mem hk now).symm.trans hok
  missing key hfree := handle_delete_of_not_mem (table_eq_none_iff.1 hfree) now
  cleared := ⟨d.clear, rfl, d.holds_clear, fun _ => Std.ExtTreeMap.getElem?_empty, rfl, rfl⟩
  keys := by
    refine ⟨_, rfl, Std.ExtTreeMap.ordered_keys, fun k => ?_⟩
    rw [Std.ExtTreeMap.mem_keys, table_ne_none_iff]
  info key := by
    rw [Dispatcher.handle, table]
    cases d.jobs[key]? <;> rfl
  unanswered c h := by
    refine ⟨second_of_handle_none h, ?_⟩
    cases c with
    | schedule detail t =>
      change d.schedule now detail t = _ at h
      rcases schedule_cases d now detail t with ⟨-, h'⟩ | ⟨hfree, ⟨t', due, -, h'⟩ | ⟨source, -, h'⟩ | ⟨ht, -⟩⟩
      · cases h'.symm.trans h
      · cases h'.symm.trans h
      · cases h'.symm.trans h
      · exact ⟨detail, t, rfl, hfree, ht⟩
    | _ => cases h

end Dispatcher

namespace Scheduler

/-- In every state that a scheduler comes to, and at every reading of the clock, commands are operations on the table of
the registrations. -/
theorem commandLaw {s : Scheduler} (hs : s.Reachable) (halive : s.phase ≠ .broken) (now : Instant) :
    s.dispatcher.CommandLaw now := Dispatcher.commandLaw_of_tidy (hs.ordered.tidy halive) now

/-- Of two registered jobs one is deleted, and the other stays. -/
theorem commandLaw_chiming :
    chimingAtNoon.dispatcher.CommandLaw World.noon ∧
    (chimingAtNoon.dispatcher.handle World.noon .keys).map Prod.snd = some (.ok (.keys [chime.key, tick.key])) ∧
    (chimingAtNoon.dispatcher.handle World.noon (.delete chime.key)).map (fun q => (q.1.jobs.keys, q.2)) =
      some ([tick.key], .ok .done) :=
  ⟨commandLaw reachable_chimingAtNoon (by decide +kernel) World.noon, by decide +kernel, by decide +kernel⟩

end Scheduler

end Rota
