import Mathlib.Data.List.Nodup
import Rota.Proofs.Occurrence
import Rota.Proofs.Reconfigure

/-!
# Configurations in force

A configuration is in force in a world if exactly the backups it asks for are registered, each with the trigger of its
expression at the next fire time, and the recurring ones are recorded (`InForce`).

- the routines of a plan whose triggers fire put their configuration in force (`Holds.inForce`);
- two worlds that hold the routines of one plan differ in the numbers of handlers only (`Holds.alike`);
- under triggers that fire and a delay that stays in the calendar, a reconfiguration puts its configuration in force
  exactly if no handler reports a last full backup at the end of the calendar (`applyConfig_inForce_iff`).
-/

namespace Rota

variable {β : Type} {e : Engine β} {now : Instant} {delay : Span} {c : Config} {p : Plan}

/-! ## What a configuration asks for -/

/-- Whether a routine with a handler asks for a backup of a kind, or for a catch-up run. -/
def Routine.Asks (ρ : Routine) (h : Handler) (now : Instant) : Option Kind → Prop
  | some .full => True
  | some .incremental => ρ.incremental?.isSome = true
  | none => ∃ t, Recurring.parse ρ.fullCron = .ok t ∧ needsFullBackup? h.lastFull t now = some true

/-- Whether a registration has the trigger that a routine gives for its kind, and is due when the trigger fires. -/
def Routine.Times (ρ : Routine) (now : Instant) (delay : Span) (r : Registration) : Option Kind → Prop
  | some .full => ∃ t, Recurring.parse ρ.fullCron = .ok t ∧ r.trigger = .recurring t ∧ t.next now = .due r.due
  | some .incremental => ∃ i t, ρ.incremental? = some i ∧ Recurring.parse i = .ok t ∧ r.trigger = .recurring t ∧
      t.next now = .due r.due
  | none => r.trigger = .once ⟨delay, .pending⟩ ∧ r.due = now + delay

namespace World

variable {w w' : World β}

/-- A configuration is in force in a world. -/
structure InForce (e : Engine β) (now : Instant) (delay : Span) (c : Config) (w : World β) : Prop where
  keys : ∀ k : Key, k ∈ w.jobs ↔ ∃ ρ h, c.routines[k.name]? = some ρ ∧
    e.handler c k.name w.bindings[k.name]? = .ok h ∧ ρ.Asks h now k.kind
  jobs : ∀ (k : Key) r, w.jobs[k]? = some r → ∃ ρ h n, c.routines[k.name]? = some ρ ∧
    e.handler c k.name w.bindings[k.name]? = .ok h ∧
    r.detail = ⟨k, .backup ⟨n, h.routine, k.kind.getD .full⟩⟩ ∧ ρ.Times now delay r k.kind
  /-- The full backup and the catch-up run of a routine share one object, and nothing else is shared. -/
  shared : ∀ (k k' : Key) r r', w.jobs[k]? = some r → w.jobs[k']? = some r' →
    (r.detail.job = r'.detail.job ↔ k.name = k'.name ∧ k.kind.getD .full = k'.kind.getD .full)
  queue : ∀ k : Key, w.queue[k]? = w.jobs[k]?.map Registration.due
  details : ∀ k : Key, w.details[k]? = if k.kind = none then none else w.jobs[k]?.map Registration.detail

/-! ## From the routines of a plan to its configuration -/

/-- A routine that fires has a registration of each kind that it asks for, and of no other. -/
theorem registration?_isSome_iff {x : Installed} {ρ : Routine} (hx : x.entry.Fires now)
    (hρ : Plan.entry x.name ρ = .ok x.entry) (kind : Option Kind) :
    (x.registration? now delay kind).isSome = true ↔ ρ.Asks x.handler now kind := by
  obtain ⟨-, hfull, hinc⟩ := Plan.entry_eq_ok hρ
  match kind with
  | some .full =>
    obtain ⟨t, ht⟩ := hx.full
    simp [Installed.registration?, Routine.Asks, ht]
  | some .incremental =>
    rw [Routine.Asks, ← hinc.isSome]
    cases hi : x.entry.incremental with
    | none => simp [Installed.registration?, hi]
    | some i =>
      obtain ⟨t, ht⟩ := hx.incremental i hi
      simp [Installed.registration?, hi, ht]
  | none =>
    simp [Installed.registration?, Routine.Asks, hfull]

/-- A registration has the trigger of its kind, and is due when that fires. -/
theorem times_of_registration? {x : Installed} {ρ : Routine} (hρ : Plan.entry x.name ρ = .ok x.entry)
    {kind : Option Kind} {r : Registration} (hr : x.registration? now delay kind = some r) :
    ρ.Times now delay r kind := by
  obtain ⟨-, hfull, hinc⟩ := Plan.entry_eq_ok hρ
  match kind with
  | some .full =>
    obtain ⟨t, ht, rfl⟩ := Option.map_eq_some_iff.1 hr
    exact ⟨_, hfull, rfl, NextFire.eq_due_of_due? ht⟩
  | some .incremental =>
    obtain ⟨i, hi, hr⟩ := Option.bind_eq_some_iff.1 hr
    obtain ⟨t, ht, rfl⟩ := Option.map_eq_some_iff.1 hr
    unfold Plan.Incremental at hinc
    cases hincr : ρ.incremental? with
    | none =>
      rw [hincr, hi] at hinc
      cases hinc
    | some expression =>
      rw [hincr, hi] at hinc
      obtain ⟨_, hparse, ⟨⟩⟩ := hinc
      exact ⟨expression, i, hincr, hparse, rfl, NextFire.eq_due_of_due? ht⟩
  | none =>
    simp only [Installed.registration?, Option.ite_none_right_eq_some, Option.some.injEq] at hr
    obtain ⟨-, rfl⟩ := hr
    exact ⟨rfl, rfl⟩

/-- Routines of different names and numbers share their backups with themselves only. -/
theorem job_eq_iff {xs : List Installed} (hnames : (xs.map Installed.name).Nodup)
    (hnumbers : (xs.map Installed.number).Nodup) {x y : Installed} (hx : x ∈ xs) (hy : y ∈ xs)
    (kind kind' : Option Kind) :
    x.job kind = y.job kind' ↔ x.name = y.name ∧ kind.getD .full = kind'.getD .full := by
  constructor
  · intro h
    simp only [Installed.job, Job.backup.injEq, Backup.mk.injEq] at h
    obtain ⟨hn, -, hk⟩ := h
    exact ⟨congrArg Installed.name (List.inj_on_of_nodup_map hnumbers hx hy hn), hk⟩
  · rintro ⟨hname, hk⟩
    cases List.inj_on_of_nodup_map hnames hx hy hname
    simp only [Installed.job, hk]

/-- The routines of a plan that fire put their configuration in force. -/
theorem Holds.inForce {n : Nat} (hp : Plan.build c = .ok p)
    (hfires : ∀ x ∈ p.entries, ∀ h, e.handler c x.name w.bindings[x.name]? = .ok h → x.Fires now)
    (hw : Holds now delay (made e c w.bindings n p.entries) w) : InForce e now delay c w := by
  obtain ⟨xs, hxs⟩ : ∃ xs, xs = made e c w.bindings n p.entries := ⟨_, rfl⟩
  rw [← hxs] at hw
  have hnames : (xs.map Installed.name).Nodup := hxs ▸ (made_names_sublist n p.entries).nodup (Plan.names_nodup hp)
  have hnumbers : (xs.map Installed.number).Nodup := hxs ▸ made_numbers_nodup n p.entries
  -- A routine that is made is one of the configuration, with the triggers of its expressions.
  have hmade : ∀ x ∈ xs, ∃ ρ, c.routines[x.name]? = some ρ ∧ Plan.entry x.name ρ = .ok x.entry ∧
      e.handler c x.name w.bindings[x.name]? = .ok x.handler ∧ x.entry.Fires now := by
    intro x hx
    obtain ⟨hentry, hh, -⟩ := of_mem_made (hxs ▸ hx)
    obtain ⟨ρ, hρ, hread⟩ := Plan.mem_entries hp hentry
    exact ⟨ρ, hρ, hread, hh, hfires x.entry hentry x.handler hh⟩
  have hregistered : ∀ (k : Key) r, w.jobs[k]? = some r → ∃ x ∈ xs, k.name = x.name ∧
      x.registration? now delay k.kind = some r := fun k r hr => exists_of_registered (hw.jobs k ▸ hr)
  refine ⟨fun k => ⟨fun hk => ?_, ?_⟩, fun k r hr => ?_, fun k k' r r' hr hr' => ?_, fun k => ?_, fun k => ?_⟩
  · obtain ⟨r, hr⟩ := Option.isSome_iff_exists.1 (Std.ExtTreeMap.mem_iff_isSome_getElem?.1 hk)
    obtain ⟨x, hx, hname, hreg⟩ := hregistered k r hr
    obtain ⟨ρ, hρ, hread, hh, hf⟩ := hmade x hx
    rw [hname]
    exact ⟨ρ, x.handler, hρ, hh, (registration?_isSome_iff hf hread k.kind).1 (Option.isSome_of_eq_some hreg)⟩
  · rintro ⟨ρ, h, hρ, hh, hasks⟩
    obtain ⟨name, kind⟩ := k
    obtain ⟨y, hy, hread⟩ := Plan.exists_entry hp hρ
    obtain rfl : y.name = name := (Plan.entry_eq_ok hread).1
    obtain ⟨i, hx⟩ := exists_mem_made (n := n) hy hh
    rw [← hxs] at hx
    obtain ⟨-, -, -, -, hf⟩ := hmade _ hx
    rw [Std.ExtTreeMap.mem_iff_isSome_getElem?, hw.jobs]
    refine (congrArg Option.isSome (registered_of_mem hnames hx kind)).trans ?_
    exact (registration?_isSome_iff hf hread kind).2 hasks
  · obtain ⟨x, hx, hname, hreg⟩ := hregistered k r hr
    obtain ⟨ρ, hρ, hread, hh, -⟩ := hmade x hx
    have hk : k = ⟨x.name, k.kind⟩ := by rw [← hname]
    rw [hname]
    refine ⟨ρ, x.handler, x.number, hρ, hh, ?_, times_of_registration? hread hreg⟩
    rw [Installed.detail_of_registration? hreg, Installed.detail, ← hk, Installed.job]
  · obtain ⟨x, hx, hname, hreg⟩ := hregistered k r hr
    obtain ⟨y, hy, hname', hreg'⟩ := hregistered k' r' hr'
    rw [Installed.detail_of_registration? hreg, Installed.detail_of_registration? hreg', hname, hname']
    exact job_eq_iff hnames hnumbers hx hy k.kind k'.kind
  · rw [hw.queue, hw.jobs]
  · rw [hw.details, hw.jobs, recorded]

end World

/-! ## Worlds that hold the same routines -/

/-- A job with the number of its handler moved up. -/
def Job.shift (d : Nat) : Job → Job
  | .backup b => .backup { b with handler := b.handler + d }
  | .chore label panics => .chore label panics

/-- A job under a key with the number of its handler moved up. -/
def Detail.shift (d : Nat) (x : Detail) : Detail := ⟨x.key, x.job.shift d⟩

/-- A registration with the number of its handler moved up. -/
def Registration.shift (d : Nat) (r : Registration) : Registration := { r with detail := r.detail.shift d }

/-- A routine with the number of its handler moved up. -/
def Installed.shift (d : Nat) (x : Installed) : Installed := { x with number := x.number + d }

theorem made_add (b : Std.ExtTreeMap String β) (n d : Nat) (xs : List Plan.Entry) :
    made e c b (n + d) xs = (made e c b n xs).map (Installed.shift d) := by
  induction xs generalizing n with
  | nil => rfl
  | cons x xs ih =>
    cases hx : e.handler c x.name b[x.name]? with
    | error err => simpa only [made, hx] using ih n
    | ok h =>
      have hn : n + d + 1 = n + 1 + d := by omega
      simp only [made, hx, List.map_cons, hn, ih (n + 1)]
      rfl

theorem registration?_shift (d : Nat) (x : Installed) (kind : Option Kind) :
    (x.shift d).registration? now delay kind = (x.registration? now delay kind).map (Registration.shift d) := by
  match kind with
  | some .full =>
    simp only [Installed.registration?, Option.map_map]
    rfl
  | some .incremental =>
    simp only [Installed.registration?, Option.map_bind, Option.map_map, Function.comp_def]
    rfl
  | none =>
    by_cases h : needsFullBackup? x.handler.lastFull x.entry.full now = some true
    · simp only [Installed.registration?, Installed.shift, h, ↓reduceIte, Option.map_some]
      rfl
    · simp only [Installed.registration?, Installed.shift, h, ↓reduceIte, Option.map_none]

theorem registered_shift (d : Nat) (xs : List Installed) (k : Key) :
    registered now delay (xs.map (Installed.shift d)) k = (registered now delay xs k).map (Registration.shift d) := by
  induction xs with
  | nil => rfl
  | cons x xs ih =>
    rw [List.map_cons, registered, registered, ih, Option.map_or, registration?_shift]
    congr 1
    by_cases hk : k.name = x.name
    · rw [if_pos hk, if_pos (show k.name = (x.shift d).name from hk)]
    · rw [if_neg hk, if_neg (show ¬ k.name = (x.shift d).name from hk)]
      rfl

namespace World

/-- Two worlds have one schedule, up to the numbers of its handlers: those of the one are moved up by `m`, those of the
other by `n`. -/
structure Alike (m n : Nat) (v w : World β) : Prop where
  jobs : ∀ k : Key, v.jobs[k]?.map (Registration.shift m) = w.jobs[k]?.map (Registration.shift n)
  queue : v.queue = w.queue
  details : ∀ k : Key, v.details[k]?.map (Detail.shift m) = w.details[k]?.map (Detail.shift n)
  bindings : v.bindings = w.bindings

/-- Worlds that hold the routines of one plan differ in the numbers of handlers only. -/
theorem Holds.alike {b : Std.ExtTreeMap String β} {m n : Nat} {xs : List Plan.Entry} {v w : World β}
    (hv : Holds now delay (made e c b n xs) v) (hw : Holds now delay (made e c b m xs) w)
    (hbindings : v.bindings = w.bindings) : Alike m n v w := by
  have hjobs : ∀ k : Key, v.jobs[k]?.map (Registration.shift m) = w.jobs[k]?.map (Registration.shift n) := by
    intro k
    rw [hv.jobs, hw.jobs, ← registered_shift, ← registered_shift, ← made_add, ← made_add, Nat.add_comm]
  refine ⟨hjobs, Std.ExtTreeMap.ext_getElem? fun k => ?_, fun k => ?_, hbindings⟩
  · have hdue := congrArg (Option.map Registration.due) (hjobs k)
    rw [Option.map_map, Option.map_map] at hdue
    rw [hv.queue, hw.queue, ← hv.jobs, ← hw.jobs]
    exact hdue
  · have hdetail := congrArg (Option.map Registration.detail) (hjobs k)
    rw [Option.map_map, Option.map_map, hv.jobs, hw.jobs] at hdetail
    rw [hv.details, hw.details, recorded, recorded]
    split
    · rfl
    · rw [Option.map_map, Option.map_map]
      exact hdetail

/-! ## Calls that put a configuration in force -/

/-- There is no decision on a catch-up run exactly if the last full backup lies at the end of the calendar. -/
theorem needsFullBackup?_eq_none_iff {last : Option Instant} {t : Recurring} :
    needsFullBackup? last t now = none ↔ ∃ i, last = some i ∧ Instant.lastSecond ≤ i.second := by
  cases last with
  | none => simp [needsFullBackup?]
  | some i =>
    simp only [Option.some.injEq, exists_eq_left', ← Recurring.next_eq_overrun_iff (c := t)]
    cases ha : t.next i <;> simp [needsFullBackup?, ha]

/-- Under triggers that fire and a delay that stays in the calendar, only a last full backup at the end of the calendar
keeps a routine from being installable. -/
theorem allInstallable_iff {b : Std.ExtTreeMap String β}
    (hfires : ∀ x ∈ p.entries, ∀ h, e.handler c x.name b[x.name]? = .ok h → x.Fires now)
    (hdelay : RunOnce.target? delay now = some (now + delay)) :
    AllInstallable e now delay c b p ↔ ∀ x ∈ p.entries, ∀ h, e.handler c x.name b[x.name]? = .ok h →
      ∀ i, h.lastFull = some i → i.second < Instant.lastSecond := by
  constructor
  · intro hall x hx h hh i hi
    obtain ⟨needed, hneeded, -⟩ := (hall x hx h hh).catchUp
    by_contra hlast
    rw [needsFullBackup?_eq_none_iff.2 ⟨i, hi, Int.not_lt.1 hlast⟩] at hneeded
    cases hneeded
  · intro hlast x hx h hh
    refine ⟨hfires x hx h hh, ?_⟩
    cases hneeded : needsFullBackup? h.lastFull x.full now with
    | some needed => exact ⟨needed, rfl, fun _ => hdelay⟩
    | none =>
      obtain ⟨i, hi, hle⟩ := needsFullBackup?_eq_none_iff.1 hneeded
      exact absurd (hlast x hx h hh i hi) (Int.not_lt.2 hle)

/-- A new scheduler is blank, and the routines are installed on it. -/
theorem launchScheduler_of_build {v : World β} (hp : Plan.build c = .ok p) :
    ∃ u : World β, u.Blank ∧ u.bindings = v.bindings ∧ u.handlers = v.handlers ∧
      ∀ v', install e now delay c p u = (v', .done) → launchScheduler e now delay false c v = (v', .done) := by
  obtain ⟨s, hs⟩ : ∃ s, ({} : Scheduler).start = .ok s := ⟨_, rfl⟩
  refine ⟨{ v with scheduler := s }, ?_, rfl, rfl, ?_⟩
  · cases hs
    exact ⟨⟨rfl, rfl, rfl⟩, rfl, rfl, rfl⟩
  · intro v' hv'
    unfold launchScheduler
    rw [hs]
    simp only [scheduleRoutines, hp, hv']

/-- Under triggers that fire and a delay that stays in the calendar, a reconfiguration goes through exactly if no
handler reports a last full backup in the last second of the calendar. Then the configuration is in force under the
backends it binds, and but for the numbers of its handlers the schedule is the one that the call leaves in any other
world, and the one of a new scheduler. -/
theorem applyConfig_inForce_iff (hw : w.Ready) (hp : Plan.build c = .ok p)
    (hfires : ∀ x ∈ p.entries, ∀ h, e.handler c x.name (e.bind w.bound c)[x.name]? = .ok h → x.Fires now)
    (hdelay : RunOnce.target? delay now = some (now + delay)) :
    ((applyConfig e now delay c w).2 = .done ↔
      ∀ x ∈ p.entries, ∀ h, e.handler c x.name (e.bind w.bound c)[x.name]? = .ok h →
        ∀ i, h.lastFull = some i → i.second < Instant.lastSecond) ∧
    ∀ w', applyConfig e now delay c w = (w', .done) →
      w'.bindings = e.bind w.bound c ∧ InForce e now delay c w' ∧
      (∀ v : World β, v.Ready → e.bind v.bound c = e.bind w.bound c →
        ∃ v', applyConfig e now delay c v = (v', .done) ∧ Alike w.handlers v.handlers v' w') ∧
      (∀ v : World β, v.bindings = e.bind w.bound c →
        ∃ v', launchScheduler e now delay false c v = (v', .done) ∧ Alike w.handlers v.handlers v' w') := by
  rw [applyConfig_of_build hw hp, ← allInstallable_iff hfires hdelay]
  rcases install_cases e now delay (hw.blank_reset e c) hp with ⟨hall, u, hu, hb, hholds⟩ | ⟨hbad, hd⟩
  · rw [hu]
    refine ⟨⟨fun _ => hall, fun _ => rfl⟩, ?_⟩
    rintro _ ⟨⟩
    -- The other calls install the same plan under the same bindings, so the same routines are installable there.
    have hother : ∀ v : World β, v.Blank → v.bindings = e.bind w.bound c →
        ∃ v', install e now delay c p v = (v', .done) ∧ Alike w.handlers v.handlers v' u := by
      intro v hv hvb
      rcases install_cases e now delay hv hp with ⟨-, v', hv', hb', hholds'⟩ | ⟨hbad, -⟩
      · rw [hvb] at hb' hholds'
        exact ⟨v', hv', hholds'.alike hholds (hb'.trans hb.symm)⟩
      · rw [hvb] at hbad
        exact absurd hall hbad
    refine ⟨hb, Holds.inForce hp (hb ▸ hfires) (hb ▸ hholds), fun v hv hvb => ?_, fun v hvb => ?_⟩
    · rw [applyConfig_of_build hv hp]
      exact hother _ (hv.blank_reset e c) hvb
    · obtain ⟨r, hr, hrb, hrh, hlaunch⟩ := launchScheduler_of_build (e := e) (v := v) hp
      obtain ⟨v', hv', halike⟩ := hother r hr (hrb.trans hvb)
      exact ⟨v', hlaunch v' hv', hrh ▸ halike⟩
  · refine ⟨⟨fun hdone => absurd hdone hd, fun hall => absurd hall hbad⟩, ?_⟩
    intro w' hw'
    exact absurd (congrArg Prod.snd hw') hd

/-- The hourly routine is in force once it is read anew. -/
theorem inForce_hourly : ∃ w', applyConfig (plainEngine (some noon)) noon .zero hourly scheduled = (w', .done) ∧
    InForce (plainEngine (some noon)) noon .zero hourly w' := by
  obtain ⟨p, hp⟩ : ∃ p, Plan.build hourly = .ok p := ⟨_, rfl⟩
  have hfires : ∀ x ∈ p.entries, ∀ h, (plainEngine (some noon)).handler hourly x.name
      ((plainEngine (some noon)).bind scheduled.bound hourly)[x.name]? = .ok h → x.Fires noon := by
    intro x hx h _
    obtain ⟨hnext, hinc⟩ := hourly_next hp x hx
    exact ⟨⟨_, hnext⟩, by simp [hinc]⟩
  have hdelay : RunOnce.target? .zero noon = some (noon + Span.zero) := by decide +kernel
  obtain ⟨hdone, hforce⟩ := applyConfig_inForce_iff ready_scheduled hp hfires hdelay
  have hd : (applyConfig (plainEngine (some noon)) noon .zero hourly scheduled).2 = .done := by
    refine hdone.2 fun x hx h hh i hi => ?_
    cases hh
    cases hi
    decide +kernel
  exact ⟨_, Prod.ext rfl hd, (hforce _ (Prod.ext rfl hd)).2.1⟩

/-- A handler that reports the last second of the calendar breaks the call down, though every trigger fires. -/
theorem applyConfig_lastSecond : scheduled.Ready ∧
    (∃ p, Plan.build hourly = .ok p ∧ ∀ x ∈ p.entries, x.Fires noon) ∧
    RunOnce.target? .zero noon = some (noon + Span.zero) ∧
    (applyConfig (plainEngine (some (.ofSecond Instant.lastSecond))) noon .zero hourly scheduled).2 = .broken := by
  obtain ⟨p, hp⟩ : ∃ p, Plan.build hourly = .ok p := ⟨_, rfl⟩
  refine ⟨ready_scheduled, ⟨p, hp, fun x hx => ?_⟩, by decide +kernel, by decide +kernel⟩
  obtain ⟨hnext, hinc⟩ := hourly_next hp x hx
  exact ⟨⟨_, hnext⟩, by simp [hinc]⟩

end World

end Rota
