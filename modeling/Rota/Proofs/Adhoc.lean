import Rota.Proofs.Booked

/-!
# Backups out of turn

A key that is registered, or is to be, has the name of a routine of some configuration or was derived before
(`Site.Traced`, `Site.Traced.run`). So a request for a backup of a routine out of turn finds its key taken only if a
configuration has a routine of that name, or the numbers have run out (`Site.adhoc_grants`).
-/

namespace Rota

/-! ## Events -/

/-- An event that calls for the routine of a name. -/
def Event.Names (name : String) : Event → Prop
  | .schedule c _ => name ∈ c.routines
  | .apply c _ => name ∈ c.routines
  | _ => False

/-- The steps of a new call register no key yet, and its routines are those that the event names. -/
theorem Event.call?_spec {ev : Event} {ts : List Task} (h : ev.call? = some ts) :
    ∀ t ∈ ts, (∀ k, ¬ t.Registers k) ∧ ∀ c delay x, t = .routine c delay x → ev.Names x.name := by
  have hplan : ∀ {c : Config} {p : Plan} {x : Plan.Entry}, (Plan.build c).toOption = some p → x ∈ p.entries →
      x.name ∈ c.routines := by
    intro c p x hp hx
    have hbuild : Plan.build c = .ok p := by cases hb : Plan.build c <;> simp_all [Except.toOption]
    obtain ⟨ρ, hρ, -⟩ := Plan.mem_entries hbuild hx
    exact Std.ExtTreeMap.mem_iff_isSome_getElem?.2 (Option.isSome_of_eq_some hρ)
  intro t ht
  cases ev with
  | schedule c delay =>
    obtain ⟨p, hp, rfl⟩ := Option.map_eq_some_iff.1 h
    obtain ⟨x, hx, rfl⟩ := List.mem_map.1 ht
    refine ⟨fun _ => id, ?_⟩
    rintro _ _ _ ⟨⟩
    exact hplan hp hx
  | apply c delay =>
    obtain ⟨p, hp, rfl⟩ := Option.map_eq_some_iff.1 h
    rw [World.applyTasks, List.mem_cons, List.mem_cons] at ht
    rcases ht with rfl | rfl | ht
    · exact ⟨fun _ => id, by rintro _ _ _ ⟨⟩⟩
    · exact ⟨fun _ => id, by rintro _ _ _ ⟨⟩⟩
    · obtain ⟨x, hx, rfl⟩ := List.mem_map.1 ht
      refine ⟨fun _ => id, ?_⟩
      rintro _ _ _ ⟨⟩
      exact hplan hp hx
  | adhoc routine =>
    cases h
    cases List.mem_singleton.1 ht
    exact ⟨fun _ => id, by rintro _ _ _ ⟨⟩⟩
  | _ => cases h

/-- An event that is a move books no key and takes no number. -/
theorem Event.move?_books {ev : Event} {m : Scheduler.Move} (h : ev.move? = some m) (s : Scheduler) :
    (∀ k, (s.move m).Booked k → s.Booked k) ∧ (s.move m).registry.sequence = s.registry.sequence := by
  have hsubmit : ∀ c : Command, (∀ k, ¬ c.Registers k) → (∀ k, (s.move (.submit c)).Booked k → s.Booked k) ∧
      (s.move (.submit c)).registry.sequence = s.registry.sequence := fun c hc =>
    ⟨fun k hk => ((Scheduler.submit_books s c).1 k hk).resolve_right (hc k), (Scheduler.submit_books s c).2⟩
  have hsame : ∀ m : Scheduler.Move, Scheduler.SameStores s (s.move m) →
      (∀ k, (s.move m).Booked k → s.Booked k) ∧ (s.move m).registry.sequence = s.registry.sequence := fun m hm =>
    ⟨fun k hk => Scheduler.booked_of_sameStores hm hk, congrArg Registry.sequence hm.registry⟩
  cases ev with
  | turn now =>
    cases h
    exact Scheduler.turn_books s now
  | delete key =>
    cases h
    exact hsubmit _ fun _ => id
  | clear =>
    cases h
    exact hsubmit _ fun _ => id
  | keys =>
    cases h
    exact hsubmit _ fun _ => id
  | info key =>
    cases h
    exact hsubmit _ fun _ => id
  | _ => cases h <;> exact hsame _ (Scheduler.sameStores_move (by simp) (by simp) (by simp))

namespace Site

variable {β : Type} {e : Engine β} {s : Site β} {ev : Event} {n : Nat} {named : String → Prop}

/-- A key is registered, or a command that waits or a client registers it. -/
def Booked (s : Site β) (k : Key) : Prop :=
  s.world.scheduler.Booked k ∨ ∃ ts ∈ s.clients, ∃ t ∈ ts, t.Registers k

/-- Whether an event derives a backup out of turn. -/
def derives (s : Site β) : Event → Bool
  | .client i _ =>
    match s.clients[i]? with
    | some (t :: _) => s.world.derives t
    | _ => false
  | _ => false

/-- The number of backups out of turn that are derived in a history. -/
def derivations (e : Engine β) : Site β → List Event → Nat
  | _, [] => 0
  | s, ev :: evs => (s.derives ev).toNat + derivations e (s.happen e ev) evs

/-- After a number of derivations every key that is spoken for has one of some names, or was derived under an earlier
number. -/
structure Traced (named : String → Prop) (n : Nat) (s : Site β) : Prop where
  routines : ∀ ts ∈ s.clients, ∀ c delay x, Task.routine c delay x ∈ ts → named x.name
  sequence : s.world.scheduler.registry.sequence = .ofNat n
  keys : ∀ k, s.Booked k → named k.name ∨ ∃ r t i, i < n ∧ k = Registry.adhocKey r t (.ofNat i)

theorem traced_fresh (w : World β) : (fresh w).Traced named 0 := by
  refine ⟨by simp [fresh], rfl, ?_⟩
  rintro k ((hk | ⟨x, hx, -⟩) | ⟨ts, hts, -⟩)
  · exact absurd hk Std.ExtTreeMap.not_mem_empty
  · cases hx
  · cases hts

theorem Traced.client (h : s.Traced named n) {i : Nat} {t : Task} {ts : List Task}
    (hi : s.clients[i]? = some (t :: ts)) (e : Engine β) (now : Instant) :
    (s.happen e (.client i now)).Traced named (n + (s.derives (.client i now)).toNat) := by
  have hmem : t :: ts ∈ s.clients := List.mem_of_getElem? hi
  have hbooks := World.books_step e now s.world ts t
  have hderives : s.derives (.client i now) = s.world.derives t := by simp only [derives, hi]
  rw [happen_client hi, hderives]
  refine ⟨fun ts' hts' c delay x hx => ?_, ?_, fun k hk => ?_⟩
  · rcases List.mem_or_eq_of_mem_set hts' with hts' | rfl
    · exact h.routines ts' hts' c delay x hx
    · exact h.routines _ hmem c delay x (List.mem_cons_of_mem _ (hbooks.routines c delay x hx))
  · rw [hbooks.sequence, h.sequence, UInt64.ofNat_add]
  · -- Only the derived key is new, and it has the number that is taken.
    have hafter : s.Booked k ∨ (World.step e now s.world (t :: ts)).1.scheduler.Booked k ∨
        ∃ t' ∈ World.ahead (World.step e now s.world (t :: ts)), t'.Registers k := by
      rcases hk with hk | ⟨ts', hts', t', ht', hreg⟩
      · exact .inr (.inl hk)
      · rcases List.mem_or_eq_of_mem_set hts' with hts' | rfl
        · exact .inl (.inr ⟨ts', hts', t', ht', hreg⟩)
        · exact .inr (.inr ⟨t', ht', hreg⟩)
    have hbefore : s.Booked k ∨ (∃ c delay x, t = .routine c delay x ∧ k.name = x.name) ∨
        s.world.derives t = true ∧ ∃ routine, k = s.world.adhocKey now routine := by
      rcases hafter with hold | hstep
      · exact .inl hold
      · rcases hbooks.keys k hstep with (hold | ⟨t', ht', hreg⟩) | hrest
        · exact .inl (.inl hold)
        · exact .inl (.inr ⟨_, hmem, t', ht', hreg⟩)
        · exact .inr hrest
    rcases hbefore with hold | ⟨c, delay, x, rfl, hname⟩ | ⟨hderived, routine, hkey⟩
    · rcases h.keys k hold with hnamed | ⟨r, t', j, hj, hkey⟩
      · exact .inl hnamed
      · exact .inr ⟨r, t', j, Nat.lt_add_right _ hj, hkey⟩
    · exact .inl (hname ▸ h.routines _ hmem c delay x List.mem_cons_self)
    · refine .inr ⟨routine, now, n, ?_, ?_⟩
      · rw [hderived]
        exact Nat.lt_succ_self n
      · rw [hkey, World.adhocKey, h.sequence]

/-- A new call speaks for no key yet. -/
theorem Traced.call (h : s.Traced named n) {ts : List Task} (hts : ev.call? = some ts)
    (hev : ∀ name, ev.Names name → named name) : (s.call ts).Traced named n := by
  have hspec := Event.call?_spec hts
  refine ⟨fun ts' hts' c delay x hx => ?_, h.sequence, fun k hk => h.keys k ?_⟩
  · rcases List.mem_append.1 hts' with hts' | hts'
    · exact h.routines ts' hts' c delay x hx
    · cases List.mem_singleton.1 hts'
      exact hev _ ((hspec _ hx).2 c delay x rfl)
  · refine hk.imp id ?_
    rintro ⟨ts', hts', t, ht, hreg⟩
    rcases List.mem_append.1 hts' with hts' | hts'
    · exact ⟨ts', hts', t, ht, hreg⟩
    · cases List.mem_singleton.1 hts'
      exact absurd hreg ((hspec t ht).1 k)

theorem Traced.happen (h : s.Traced named n) (hev : ∀ name, ev.Names name → named name) :
    (s.happen e ev).Traced named (n + (s.derives ev).toNat) := by
  cases hmove : ev.move? with
  | some m =>
    have hnone : s.derives ev = false := by cases ev <;> first | rfl | cases hmove
    obtain ⟨hbooks, hsequence⟩ := Event.move?_books hmove s.world.scheduler
    rw [happen_of_move? hmove, hnone]
    exact ⟨h.routines, hsequence.trans h.sequence, fun k hk => h.keys k (hk.imp (hbooks k) id)⟩
  | none =>
    by_cases hclient : ∃ i now, ev = .client i now
    · obtain ⟨i, now, rfl⟩ := hclient
      cases hi : s.clients[i]? with
      | none =>
        have hnone : s.derives (.client i now) = false := by simp only [derives, hi]
        rw [happen_client_idle (.inl hi), hnone]
        exact h
      | some ts =>
        cases ts with
        | nil =>
          have hnone : s.derives (.client i now) = false := by simp only [derives, hi]
          rw [happen_client_idle (.inr hi), hnone]
          exact h
        | cons t ts => exact h.client hi e now
    · have hnone : s.derives ev = false := by
        cases ev <;> first | rfl | exact absurd ⟨_, _, rfl⟩ hclient
      rw [hnone]
      rcases happen_of_call (e := e) (s := s) hmove (fun i now h => hclient ⟨i, now, h⟩) with ⟨ts, hts, hcall⟩ | hcall
      · rw [hcall]
        exact h.call hts hev
      · rw [hcall]
        exact h

theorem Traced.run (h : s.Traced named n) {evs : List Event} (hevs : ∀ ev ∈ evs, ∀ name, ev.Names name → named name) :
    (s.run e evs).Traced named (n + derivations e s evs) := by
  induction evs generalizing s n with
  | nil => exact h
  | cons ev evs ih =>
    have hevs' : ∀ ev' ∈ evs, ∀ name, ev'.Names name → named name :=
      fun ev' hev' => hevs ev' (List.mem_cons_of_mem _ hev')
    have hlast := ih (h.happen (e := e) (hevs ev List.mem_cons_self)) hevs'
    rw [Nat.add_assoc] at hlast
    exact hlast

/-- A derived key is taken only if it has one of the names, or if the numbers have been used up. -/
theorem Traced.named_of_mem (h : s.Traced named n) {now : Instant} {routine : String}
    (hmem : s.world.adhocKey now routine ∈ s.world.jobs) :
    named (s.world.adhocKey now routine).name ∨ UInt64.size ≤ n := by
  rcases h.keys _ (.inl (.inl hmem)) with hnamed | ⟨r, t, i, hi, hkey⟩
  · exact .inl hnamed
  · right
    have hnumber : UInt64.ofNat n = UInt64.ofNat i := h.sequence.symm.trans (Registry.adhocKey_number hkey)
    by_contra hfew
    -- Numbers below the size of a word are different if they are written differently.
    have hn : (UInt64.ofNat n).toNat = n := UInt64.toNat_ofNat_of_lt' (Nat.not_le.1 hfew)
    have hi' : (UInt64.ofNat i).toNat = i := UInt64.toNat_ofNat_of_lt' (by omega)
    have hsame : n = i := by rw [← hn, hnumber, hi']
    omega

/-- Whatever happened to a new scheduler and the clients that call for its routines, at any reading a request for a
backup out of turn that is alone at a ready loop is answered as follows. Without a recorded full backup of the routine
the answer is that there is none. Otherwise the request goes through exactly if the derived key is free. A key that is
taken has the name of a routine that was called for, or all numbers have been used up; then the request is refused. -/
theorem adhoc_grants (e : Engine β) (w : World β) (evs : List Event) {v : World β}
    (hv : ((fresh w).run e evs).world = v) (hready : v.Ready) {now : Instant} (hnow : now ≤ Instant.latest)
    (routine : String) :
    (v.details[Key.full routine]? = none → World.scheduleAdhoc now routine v = (v, .ok none)) ∧
    ∀ d, v.details[Key.full routine]? = some d →
      (v.Grants now routine d ↔ v.adhocKey now routine ∉ v.jobs) ∧
      (v.adhocKey now routine ∈ v.jobs →
        ((∃ ev ∈ evs, ev.Names (v.adhocKey now routine).name) ∨ UInt64.size ≤ derivations e (fresh w) evs) ∧
        ∃ v', World.scheduleAdhoc now routine v = (v', .error (.jobAlreadyExists (v.adhocKey now routine))) ∧
          v'.jobs = v.jobs ∧ v'.details = v.details) := by
  subst hv
  refine ⟨World.scheduleAdhoc_of_none, fun d hd => ⟨World.grants_iff hd hready hnow, fun hmem => ?_⟩⟩
  have htraced : ((fresh w).run e evs).Traced (fun name => ∃ ev ∈ evs, ev.Names name)
      (0 + derivations e (fresh w) evs) := (traced_fresh w).run fun ev hev name hname => ⟨ev, hev, hname⟩
  rw [Nat.zero_add] at htraced
  exact ⟨htraced.named_of_mem hmem, World.refused_of_mem hd hready hmem⟩

/-- The hourly routine is scheduled. -/
def hourlyScheduled : List Event := [.start, .schedule World.hourly .zero] ++ List.replicate 4 (.client 0 World.noon)

/-- A backup of the hourly routine out of turn goes through. -/
theorem adhoc_hourly :
    ((fresh {}).run (World.plainEngine none) hourlyScheduled).world.Grants World.noon "hourly"
      ⟨.full "hourly", .backup ⟨0, "hourly", .full⟩⟩ := by
  have hready : ((fresh {}).run (World.plainEngine none) hourlyScheduled).world.Ready :=
    ⟨by decide +kernel, by decide +kernel, by decide +kernel⟩
  have hnow : World.noon ≤ Instant.latest := by decide
  obtain ⟨-, hsome⟩ := adhoc_grants (World.plainEngine none) {} hourlyScheduled rfl hready hnow "hourly"
  exact (hsome _ (by decide +kernel)).1.2 (by decide +kernel)

/-- A routine that has the name of the first key that is derived for the hourly one. -/
def namesake : Config := World.hourly.withRoutine "hourly-adhoc-1714564800000-0" { fullCron := "0 * * * *" }

def namesakeScheduled : List Event := [.start, .schedule namesake .zero] ++ List.replicate 6 (.client 0 World.noon)

/-- With such a routine the request for a backup of the hourly routine out of turn is refused. -/
theorem adhoc_namesake :
    ((fresh {}).run (World.plainEngine (some World.noon)) namesakeScheduled).world.Ready ∧
    (World.scheduleAdhoc World.noon "hourly"
      ((fresh {}).run (World.plainEngine (some World.noon)) namesakeScheduled).world).2 =
      .error (.jobAlreadyExists (.full "hourly-adhoc-1714564800000-0")) :=
  ⟨⟨by decide +kernel, by decide +kernel, by decide +kernel⟩, by decide +kernel⟩

end Site

end Rota
