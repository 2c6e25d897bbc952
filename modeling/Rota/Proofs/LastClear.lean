import Rota.Proofs.Interleaving

/-!
# What calls side by side leave

A call that goes through clears everything, binds its backends and registers its routines, but nothing keeps the steps
of another call from coming in between.

- steps without a clear add what they contribute (`World.Accrues`, `Site.accrues_interleave`): no registration takes the
  place of another one, the last record of a key counts, and so does the last binding;
- the call whose clear is the last did nothing before it (`Site.exists_last_clear`), so what is contributed after that
  clear is all that remains (`World.Accrues.remains`).
-/

namespace Rota

/-! ## What contributions add up to -/

namespace World

variable {β : Type} {e : Engine β} {now : Instant} {w w' w'' : World β} {xs ys : List Contribution}

/-- The world that contributions without a clear lead to. No registration takes the place of another one; the last
record of a key and the last binding count. -/
structure Accrues (e : Engine β) (xs : List Contribution) (w w' : World β) : Prop where
  jobs : ∀ (k : Key) r, w'.jobs[k]? = some r ↔
    w.jobs[k]? = some r ∨ r.detail.key = k ∧ ∃ x ∈ xs, x.registration? = some r
  queue : (∀ k : Key, w.queue[k]? = w.jobs[k]?.map Registration.due) →
    ∀ k : Key, w'.queue[k]? = w'.jobs[k]?.map Registration.due
  details : ∀ k : Key, w'.details[k]? = ((xs.reverse.filterMap Contribution.record?).lookup k).or w.details[k]?
  bindings : w'.bindings = (xs.filterMap Contribution.binding?).getLast?.elim w.bindings (e.bind (w'.bound - 1))
  bound : w'.bound = w.bound + (xs.filterMap Contribution.binding?).length

theorem Accrues.refl (e : Engine β) (w : World β) : Accrues e [] w w :=
  ⟨by simp, id, by simp, rfl, rfl⟩

theorem Accrues.append (h : Accrues e xs w w') (h' : Accrues e ys w' w'') : Accrues e (xs ++ ys) w w'' := by
  refine ⟨fun k r => ?_, fun hq => h'.queue (h.queue hq), fun k => ?_, ?_, ?_⟩
  · rw [h'.jobs, h.jobs]
    simp only [List.mem_append, or_and_right, exists_or, and_or_left, or_assoc]
  · rw [h'.details, h.details, List.reverse_append, List.filterMap_append, List.lookup_append, Option.or_assoc]
  · rw [List.filterMap_append, List.getLast?_append, h'.bindings]
    cases hys : (ys.filterMap Contribution.binding?).getLast? with
    | some c => rfl
    | none =>
      have hbound : w''.bound = w'.bound := by rw [h'.bound, List.getLast?_eq_none_iff.1 hys]; rfl
      rw [hbound, Option.elim_none, Option.none_or, h.bindings]
  · rw [h'.bound, h.bound, List.filterMap_append, List.length_append, Nat.add_assoc]

/-- A step that goes through and is no clear adds what it contributes. -/
theorem Advance.accrues {t : Task} {ts ts' : List Task} (h : Advance e now w ts t w' ts') (i : Nat)
    (hclear : t ≠ .act (.request .clear)) : Accrues e (t.contribution? i now).toList w w' := by
  -- A step that contributes no registration and no record leaves jobs and records alone.
  have hsame : ∀ {xs : List Contribution} {k : Key} {r : Registration}, (∀ x ∈ xs, x.registration? = none) →
      (w.jobs[k]? = some r ↔ w.jobs[k]? = some r ∨ r.detail.key = k ∧ ∃ x ∈ xs, x.registration? = some r) := by
    intro xs k r hnone
    refine ⟨.inl, fun h => h.resolve_right ?_⟩
    rintro ⟨-, x, hx, hr⟩
    rw [hnone x hx] at hr
    cases hr
  cases h with
  | clear => exact absurd rfl hclear
  | rebind c =>
    exact ⟨fun k r => hsame (by simp [Task.contribution?, Contribution.registration?]), id, fun k => rfl, rfl, rfl⟩
  | @schedule d t t' due hfree hdue =>
    have hadds : (⟨i, now, .request (.schedule d t)⟩ : Contribution).registration? = some ⟨d, t', due⟩ := by
      simp only [Contribution.registration?, hdue]
    have hnone : w.jobs[d.key]? = none := Std.ExtTreeMap.getElem?_eq_none hfree
    refine ⟨fun k r => ?_, fun hq k => ?_, fun k => rfl, rfl, rfl⟩
    · simp only [Task.contribution?, Option.toList_some, List.mem_singleton, exists_eq_left, hadds, Option.some.injEq,
        jobs_enter, Std.ExtTreeMap.getElem?_insert, Std.LawfulEqCmp.compare_eq_iff_eq]
      by_cases hk : d.key = k
      · subst hk
        simp only [↓reduceIte, Option.some.injEq, hnone, reduceCtorEq, false_or]
        exact ⟨fun h => ⟨h ▸ rfl, h⟩, And.right⟩
      · rw [if_neg hk]
        refine ⟨.inl, fun h => h.resolve_right ?_⟩
        rintro ⟨hkey, rfl⟩
        exact hk hkey
    · simp only [jobs_enter, queue_enter, Std.ExtTreeMap.getElem?_insert]
      split
      · rfl
      · exact hq k
  | record k d =>
    refine ⟨fun k r => hsame (by simp [Task.contribution?, Contribution.registration?]), id, fun k' => ?_, rfl, rfl⟩
    change (w.details.insert k d)[k']? = ([(k, d)].lookup k').or w.details[k']?
    rw [Std.ExtTreeMap.getElem?_insert, List.lookup_cons, List.lookup_nil]
    by_cases hk : k = k'
    · subst hk
      simp
    · rw [if_neg (mt Std.LawfulEqCmp.compare_eq_iff_eq.1 hk), beq_eq_false_iff_ne.2 (Ne.symm hk)]
      rfl
  | refused hh => exact ⟨fun k r => hsame (by simp [Task.contribution?]), id, fun k => rfl, rfl, rfl⟩
  | made hh hneeded => exact ⟨fun k r => hsame (by simp [Task.contribution?]), id, fun k => rfl, rfl, rfl⟩

end World

namespace Site

variable {β : Type} {e : Engine β} {s : Site β} {i : Nat} {now : Instant} {us : List (Nat × Instant)}

theorem contribution?_of_head {t : Task} {ts : List Task} (hi : s.clients[i]? = some (t :: ts)) :
    s.contribution? i now = t.contribution? i now := by
  simp only [contribution?, hi]

theorem contribution?_of_idle (hi : s.clients[i]? = none ∨ s.clients[i]? = some []) : s.contribution? i now = none := by
  rcases hi with hi | hi <;> simp only [contribution?, hi]

theorem call_of_contribution? {x : Contribution} (h : s.contribution? i now = some x) : x.call = i := by
  unfold contribution? Task.contribution? at h
  split at h
  · split at h
    · cases h
      rfl
    · cases h
  · cases h

/-- Steps that go through without a clear add what they contribute. -/
theorem accrues_interleave (hs : s.Replacing) (h : AllProceed e s us)
    (hclear : ∀ x ∈ contributions e s us, x.clears = false) :
    World.Accrues e (contributions e s us) s.world (s.interleave e us).world := by
  induction us generalizing s with
  | nil => exact .refl e s.world
  | cons u us ih =>
    rw [contributions] at hclear ⊢
    refine World.Accrues.append ?_ (ih (hs.turn h.1) h.2 fun x hx => hclear x (List.mem_append_right _ hx))
    rcases turn_cases hs h.1 with ⟨hi, hsame⟩ | ⟨t, ts, w', ts', hi, hadvance, hnext⟩
    · rw [hsame, contribution?_of_idle hi]
      exact .refl e s.world
    · rw [hnext, contribution?_of_head hi]
      refine hadvance.accrues u.1 ?_
      rintro rfl
      have hmem : (⟨u.1, u.2, .request .clear⟩ : Contribution) ∈ (s.contribution? u.1 u.2).toList := by
        rw [contribution?_of_head hi]
        exact List.mem_singleton_self _
      exact absurd (hclear _ (List.mem_append_left _ hmem)) (by simp [Contribution.clears])

/-- A contribution is the act that a call has next when its turn comes. -/
theorem contributions_eq_append {before after : List Contribution} {x : Contribution}
    (h : contributions e s us = before ++ x :: after) :
    ∃ vs vs' ts, us = vs ++ (x.call, x.reading) :: vs' ∧ contributions e s vs = before ∧
      (s.interleave e vs).clients[x.call]? = some (.act x.act :: ts) ∧
      contributions e ((s.interleave e vs).happen e (.client x.call x.reading)) vs' = after := by
  induction us generalizing s before with
  | nil => simp [contributions] at h
  | cons u us ih =>
    rw [contributions] at h
    cases hu : s.contribution? u.1 u.2 with
    | none =>
      rw [hu] at h
      obtain ⟨vs, vs', ts, rfl, hbefore, hts, hafter⟩ := ih h
      refine ⟨u :: vs, vs', ts, rfl, ?_, hts, hafter⟩
      rw [contributions, hu, hbefore]
      rfl
    | some y =>
      rw [hu] at h
      have hy : ∃ ts, s.clients[u.1]? = some (.act y.act :: ts) ∧ y.call = u.1 ∧ y.reading = u.2 := by
        unfold contribution? Task.contribution? at hu
        split at hu
        · rename_i t ts hi
          split at hu
          · cases hu
            exact ⟨ts, hi, rfl, rfl⟩
          · cases hu
        · cases hu
      obtain ⟨ts, hi, hcall, hreading⟩ := hy
      cases before with
      | nil =>
        obtain ⟨rfl, rfl⟩ := List.cons.inj h
        refine ⟨[], us, ts, by rw [hcall, hreading]; rfl, rfl, hcall ▸ hi, by rw [hcall, hreading]; rfl⟩
      | cons z before =>
        obtain ⟨rfl, hrest⟩ := List.cons.inj h
        obtain ⟨vs, vs', ts', rfl, hbefore, hts', hafter⟩ := ih hrest
        refine ⟨u :: vs, vs', ts', rfl, ?_, hts', hafter⟩
        rw [contributions, hu, hbefore]
        rfl

end Site

/-! ## The last clear -/

namespace World

/-- What the stores of a world hold comes from contributions: a key is registered exactly if one of them registers it,
the last record of a key is the one that is recorded, and the last binding is the one that is bound. -/
structure Remains {β : Type} (e : Engine β) (xs : List Contribution) (w : World β) : Prop where
  jobs : ∀ (k : Key) r, w.jobs[k]? = some r ↔ r.detail.key = k ∧ ∃ x ∈ xs, x.registration? = some r
  queue : ∀ k : Key, w.queue[k]? = w.jobs[k]?.map Registration.due
  details : ∀ k : Key, w.details[k]? = (xs.reverse.filterMap Contribution.record?).lookup k
  bindings : ∀ c, (xs.filterMap Contribution.binding?).getLast? = some c → w.bindings = e.bind (w.bound - 1) c

/-- What is added after a clear is all that there is. -/
theorem Accrues.remains {β : Type} {e : Engine β} {xs : List Contribution} {w w' : World β}
    (h : Accrues e xs w.cleared w') : Remains e xs w' := by
  have hjobs : ∀ k : Key, w.cleared.jobs[k]? = none := fun k => Std.ExtTreeMap.getElem?_empty
  refine ⟨fun k r => ?_, h.queue fun k => ?_, fun k => ?_, fun c hc => ?_⟩
  · rw [h.jobs, hjobs]
    simp
  · rw [hjobs]
    exact Std.ExtTreeMap.getElem?_empty
  · rw [h.details]
    exact Option.or_none
  · rw [h.bindings, hc]
    rfl

end World

/-- A call that replaces the schedule: its configuration, and the plan that was read from it. -/
structure Reconfiguration where
  config : Config
  delay : Span
  plan : Plan
  built : Plan.build config = .ok plan

namespace Reconfiguration

/-- The steps of the call. -/
def tasks (r : Reconfiguration) : List Task := World.applyTasks r.config r.delay r.plan

/-- The steps that install the routines. -/
def installs (r : Reconfiguration) : List Task := World.installTasks r.config r.delay r.plan

/-- What is ahead of the call once it cleared. -/
def afterClear (r : Reconfiguration) : List Task := .act (.rebind r.config) :: r.installs

theorem tasks_eq (r : Reconfiguration) : r.tasks = .act (.request .clear) :: r.afterClear := rfl

theorem installs_of_mem {r : Reconfiguration} {t : Task} (ht : t ∈ r.installs) : t.Installs := by
  obtain ⟨x, -, rfl⟩ := List.mem_map.1 ht
  trivial

theorem replaces_of_mem {r : Reconfiguration} {t : Task} (ht : t ∈ r.tasks) : t.Replaces := by
  rw [tasks_eq, afterClear, List.mem_cons, List.mem_cons] at ht
  rcases ht with rfl | rfl | ht
  · trivial
  · trivial
  · exact (installs_of_mem ht).replaces

/-- A call clears only once. -/
theorem ne_clear_of_mem {r : Reconfiguration} {t : Task} (ht : t ∈ r.afterClear) : t ≠ .act (.request .clear) := by
  rintro rfl
  rcases List.mem_cons.1 ht with heq | ht
  · cases heq
  · exact installs_of_mem ht

/-- A call binds its backends only once. -/
theorem ne_rebind_of_mem {r : Reconfiguration} {t : Task} (ht : t ∈ r.installs) (c : Config) :
    t ≠ .act (.rebind c) := by
  rintro rfl
  exact installs_of_mem ht

end Reconfiguration

namespace Site

variable {β : Type} {e : Engine β} {s : Site β} {w : World β} {i j : Nat} {now : Instant} {us : List (Nat × Instant)}
  {t : Task} {ts ts' : List Task} {calls : List Reconfiguration}

/-- A world with some calls that are about to begin. -/
def ofCalls (calls : List Reconfiguration) (w : World β) : Site β := ⟨w, calls.map Reconfiguration.tasks⟩

theorem replacing_ofCalls (hw : w.Ready) (calls : List Reconfiguration) : (ofCalls calls w).Replacing := by
  refine ⟨hw, fun ts hts => ?_⟩
  obtain ⟨r, -, rfl⟩ := List.mem_map.1 hts
  exact fun t ht => Reconfiguration.replaces_of_mem ht

/-- No client comes or goes. -/
theorem length_clients_interleave (e : Engine β) (s : Site β) (us : List (Nat × Instant)) :
    (s.interleave e us).clients.length = s.clients.length := by
  induction us generalizing s with
  | nil => rfl
  | cons u us ih =>
    rw [interleave_cons, ih]
    match hi : s.clients[u.1]? with
    | none => rw [happen_client_idle (.inl hi)]
    | some [] => rw [happen_client_idle (.inr hi)]
    | some (t :: ts) => rw [happen_client hi, List.length_set]

/-- Only the steps of the client whose turn it is change. -/
theorem clients_turn (hs : s.Replacing) (h : s.proceeds e i now = true) (hj : s.clients[j]? = some ts) :
    (i ≠ j ∨ ts = []) ∧ (s.happen e (.client i now)).clients[j]? = some ts ∨
    i = j ∧ ∃ t us w' ts', ts = t :: us ∧ World.Advance e now s.world us t w' ts' ∧
      s.happen e (.client i now) = ⟨w', s.clients.set i ts'⟩ ∧
      (s.happen e (.client i now)).clients[j]? = some ts' := by
  rcases turn_cases hs h with ⟨hi, hsame⟩ | ⟨t, us, w', ts', hi, hadvance, hnext⟩
  · rw [hsame]
    refine .inl ⟨?_, hj⟩
    by_cases hij : i = j
    · subst hij
      rw [hj] at hi
      exact .inr (by simpa using hi)
    · exact .inl hij
  · by_cases hij : i = j
    · subst hij
      cases hj.symm.trans hi
      have hlt := (List.getElem?_eq_some_iff.1 hi).1
      refine .inr ⟨rfl, t, us, w', ts', rfl, hadvance, hnext, ?_⟩
      rw [hnext]
      exact List.getElem?_set_self hlt
    · refine .inl ⟨.inl hij, ?_⟩
      rw [hnext, List.getElem?_set_ne hij]
      exact hj

/-- What holds of all steps of a client and of what installs a routine goes on to hold of its steps. -/
theorem ahead_interleave {P : Task → Prop} (hP : ∀ t : Task, t.Installs → P t) (hs : s.Replacing)
    (h : AllProceed e s us) (hi : s.clients[i]? = some ts) (hts : ∀ t ∈ ts, P t) :
    ∃ ts', (s.interleave e us).clients[i]? = some ts' ∧ ∀ t ∈ ts', P t := by
  induction us generalizing s ts with
  | nil => exact ⟨ts, hi, hts⟩
  | cons u us ih =>
    rcases clients_turn hs h.1 hi with ⟨-, hsame⟩ | ⟨-, t, rest, w', ts', rfl, hadvance, -, hnext⟩
    · exact ih (hs.turn h.1) h.2 hsame hts
    · refine ih (hs.turn h.1) h.2 hnext fun t' ht' => ?_
      rcases hadvance.ahead t' ht' with ht' | ht'
      · exact hts t' (List.mem_cons_of_mem _ ht')
      · exact hP t' ht'

/-- An act that a client has ahead of it is one that it contributes, if all calls return. -/
theorem exists_contribution (hs : s.Replacing) (h : Succeeds e s us) (hi : s.clients[i]? = some ts) {a : Act}
    (ha : .act a ∈ ts) : ∃ x ∈ contributions e s us, x.call = i ∧ x.act = a := by
  induction us generalizing s ts with
  | nil =>
    rw [h.2 ts (List.mem_of_getElem? hi)] at ha
    cases ha
  | cons u us ih =>
    obtain ⟨hgo, hgoes⟩ := succeeds_cons.1 h
    have hrest : ∀ {ts' : List Task}, (s.happen e (.client u.1 u.2)).clients[i]? = some ts' → .act a ∈ ts' →
        ∃ x ∈ contributions e s (u :: us), x.call = i ∧ x.act = a := by
      intro ts' hi' ha'
      obtain ⟨x, hx, hxa⟩ := ih (hs.turn hgo) hgoes hi' ha'
      exact ⟨x, List.mem_append_right _ hx, hxa⟩
    rcases clients_turn hs hgo hi with ⟨-, hsame⟩ | ⟨rfl, t, rest, w', ts', rfl, hadvance, -, hnext⟩
    · exact hrest hsame ha
    · rcases List.mem_cons.1 ha with rfl | ha
      · refine ⟨⟨u.1, u.2, a⟩, List.mem_append_left _ ?_, rfl, rfl⟩
        rw [contribution?_of_head hi]
        exact List.mem_singleton_self _
      · exact hrest hnext (hadvance.mem_of_mem ha)

/-- A client that still has an act ahead, with which it began and which installs nothing, had no turn. -/
theorem no_turn_of_ahead (hs : s.Replacing) (h : AllProceed e s us) {a : Act} (ha : ¬ World.Adds a)
    (hi : s.clients[i]? = some (t :: ts)) (hts : ∀ t' ∈ ts, t' ≠ .act a)
    (hahead : (s.interleave e us).clients[i]? = some (.act a :: ts')) : ∀ u ∈ us, u.1 ≠ i := by
  induction us generalizing s with
  | nil => simp
  | cons u us ih =>
    rcases clients_turn hs h.1 hi with ⟨hne, hsame⟩ | ⟨-, t', rest, w', ts'', heq, hadvance, -, hnext⟩
    · intro v hv
      rcases List.mem_cons.1 hv with rfl | hv
      · exact hne.resolve_right (by simp)
      · exact ih (hs.turn h.1) h.2 hsame hahead v hv
    · obtain ⟨rfl, rfl⟩ := List.cons.inj heq
      have hP : ∀ t : Task, t.Installs → t ≠ .act a := by
        rintro t ht rfl
        exact ha ht
      obtain ⟨ts₁, hts₁, hnone⟩ := ahead_interleave hP (hs.turn h.1) h.2 hnext fun t' ht' =>
        (hadvance.ahead t' ht').elim (hts t') (hP t')
      rw [interleave_cons] at hahead
      cases hts₁.symm.trans hahead
      exact absurd rfl (hnone _ List.mem_cons_self)

/-- A client without a turn has the same steps ahead. -/
theorem clients_interleave_of_no_turn (hs : s.Replacing) (h : AllProceed e s us) (hi : s.clients[i]? = some ts)
    (hno : ∀ u ∈ us, u.1 ≠ i) : (s.interleave e us).clients[i]? = some ts := by
  induction us generalizing s with
  | nil => exact hi
  | cons u us ih =>
    rcases clients_turn hs h.1 hi with ⟨-, hsame⟩ | ⟨heq, -⟩
    · exact ih (hs.turn h.1) h.2 hsame fun v hv => hno v (List.mem_cons_of_mem _ hv)
    · exact absurd heq (hno u List.mem_cons_self)

/-- A client without a turn contributes nothing. -/
theorem call_ne_of_no_turn (hno : ∀ u ∈ us, u.1 ≠ i) : ∀ x ∈ contributions e s us, x.call ≠ i := by
  induction us generalizing s with
  | nil => simp [contributions]
  | cons u us ih =>
    intro x hx
    rcases List.mem_append.1 hx with hx | hx
    · rw [call_of_contribution? (Option.mem_toList.1 hx)]
      exact hno u List.mem_cons_self
    · exact ih (fun v hv => hno v (List.mem_cons_of_mem _ hv)) x hx

/-- Of calls that all return one clears last. It had no turn before, and its clear is what it begins with. -/
theorem exists_last_clear (hw : w.Ready) (hcalls : calls ≠ []) (h : Succeeds e (ofCalls calls w) us) :
    ∃ vs i now vs' r, us = vs ++ (i, now) :: vs' ∧ calls[i]? = some r ∧ (∀ v ∈ vs, v.1 ≠ i) ∧
      ((ofCalls calls w).interleave e vs).clients[i]? = some r.tasks ∧
      ∀ y ∈ contributions e (((ofCalls calls w).interleave e vs).happen e (.client i now)) vs', y.clears = false := by
  have hs := replacing_ofCalls hw calls
  -- The first call clears, so there is a clear, and a last one.
  obtain ⟨r₀, calls', rfl⟩ := List.exists_cons_of_ne_nil hcalls
  have hfirst : (ofCalls (r₀ :: calls') w).clients[0]? = some r₀.tasks := rfl
  obtain ⟨x₀, hx₀, -, hact₀⟩ := exists_contribution hs h hfirst (a := .request .clear) List.mem_cons_self
  have hsome : ((contributions e (ofCalls (r₀ :: calls') w) us).reverse.find? Contribution.clears).isSome := by
    rw [List.find?_isSome]
    exact ⟨x₀, List.mem_reverse.2 hx₀, Contribution.clears_eq_true_iff.2 hact₀⟩
  obtain ⟨x, hx⟩ := Option.isSome_iff_exists.1 hsome
  obtain ⟨hclears, after, before, heq, hnone⟩ := List.find?_eq_some_iff_append.1 hx
  have hsplit : contributions e (ofCalls (r₀ :: calls') w) us = before.reverse ++ x :: after.reverse := by
    rw [← List.reverse_reverse (contributions ..), heq]
    simp
  obtain ⟨vs, vs', ts, rfl, -, hts, hafter⟩ := contributions_eq_append hsplit
  rw [Contribution.clears_eq_true_iff.1 hclears] at hts
  have hgo := (allProceed_append.1 h.1).1
  -- The call had only one clear to begin with, so it is still at its beginning.
  have hlt : x.call < (r₀ :: calls').length := by
    have hlt := (List.getElem?_eq_some_iff.1 hts).1
    rwa [length_clients_interleave, ofCalls, List.length_map] at hlt
  obtain ⟨r, hr⟩ : ∃ r, (r₀ :: calls')[x.call]? = some r := ⟨_, List.getElem?_eq_getElem hlt⟩
  have hi : (ofCalls (r₀ :: calls') w).clients[x.call]? = some r.tasks := by
    rw [ofCalls, List.getElem?_map, hr]
    rfl
  have hno := no_turn_of_ahead hs hgo id hi (fun t ht => Reconfiguration.ne_clear_of_mem ht) hts
  refine ⟨vs, x.call, x.reading, vs', r, rfl, hr, hno, clients_interleave_of_no_turn hs hgo hi hno, fun y hy => ?_⟩
  rw [hafter, List.mem_reverse] at hy
  exact Bool.not_eq_true' _ ▸ hnone y hy

/-- A client whose turn it is clears, if that is the next of its steps. -/
theorem happen_clear (hs : s.Replacing) (h : s.proceeds e i now = true)
    (hi : s.clients[i]? = some (.act (.request .clear) :: ts)) :
    s.happen e (.client i now) = ⟨s.world.cleared, s.clients.set i ts⟩ := by
  rcases clients_turn hs h hi with ⟨hne, -⟩ | ⟨-, t, rest, w', ts', heq, hadvance, hnext, -⟩
  · simp at hne
  · obtain ⟨rfl, rfl⟩ := List.cons.inj heq
    cases hadvance
    exact hnext

end Site

end Rota
