import Rota.Proofs.Shifted

/-!
# One call among others and alone

A call that replaces the schedule among others leaves what it would have left alone, if the others do nothing after its
clear but bind backends before it binds its own (`Undisturbed`). The call alone takes its steps at the same readings of
the clock; it makes handlers with other numbers.

- a step of the call among others is a step of the call alone (`Site.Follows.own`), and a step of another call changes
  nothing that the call sees (`Site.quiet_turn`);
- so the two runs end alike (`Site.Follows.interleave`, `Site.sideBySide`);
- two calls that both clear before either registers leave the routines of both under the backends of one
  (`Site.dailyAndWeekly_mixed`).
-/

namespace Rota

namespace Site

variable {β : Type} {e : Engine β} {s : Site β} {i j m n : Nat} {now : Instant} {us : List (Nat × Instant)}
  {v : World β} {ts : List Task} {r : Reconfiguration}

/-! ### Clients that contribute little -/

/-- A step of a client that at most binds backends leaves the stores and the handlers alone, and the bindings as well if
it contributes nothing. -/
theorem quiet_turn (hs : s.Replacing) (h : Succeeds e s ((j, now) :: us))
    (hquiet : ∀ x ∈ contributions e s ((j, now) :: us), x.call = j → x.binding?.isSome) :
    World.Untouched s.world (s.happen e (.client j now)).world ∧
      (s.contribution? j now = none → (s.happen e (.client j now)).world.bindings = s.world.bindings) := by
  obtain ⟨hgo, hrest⟩ := succeeds_cons.1 h
  rcases turn_cases hs hgo with ⟨-, hsame⟩ | ⟨t, ts, w', ts', hi, hadvance, hnext⟩
  · rw [hsame]
    exact ⟨.refl s.world, fun _ => rfl⟩
  · -- An act of the client is a binding, in this step and in those ahead.
    have hnow : ∀ a, t = .act a → (⟨j, now, a⟩ : Contribution).binding?.isSome := by
      rintro a rfl
      refine hquiet _ (List.mem_append_left _ ?_) rfl
      rw [contribution?_of_head hi]
      exact List.mem_singleton_self _
    have hahead : (s.happen e (.client j now)).clients[j]? = some ts' := by
      rw [hnext]
      exact List.getElem?_set_self (List.getElem?_eq_some_iff.1 hi).1
    have hlater : ∀ a, .act a ∈ ts' → ∃ c, a = .rebind c := by
      intro a ha
      obtain ⟨x, hx, hcall, hact⟩ := exists_contribution (hs.turn hgo) hrest hahead ha
      obtain ⟨c, hc⟩ := Option.isSome_iff_exists.1 (hquiet x (List.mem_append_right _ hx) hcall)
      exact ⟨c, hact.symm.trans (Contribution.binding?_eq_some_iff.1 hc)⟩
    rw [hnext, contribution?_of_head hi]
    cases hadvance with
    | clear => exact absurd (hnow _ rfl) (by simp [Contribution.binding?])
    | rebind c => exact ⟨⟨rfl, rfl, rfl, rfl⟩, by rintro ⟨⟩⟩
    | schedule => exact absurd (hnow _ rfl) (by simp [Contribution.binding?])
    | record k d => exact absurd (hnow _ rfl) (by simp [Contribution.binding?])
    | refused hh => exact ⟨⟨rfl, rfl, rfl, rfl⟩, fun _ => rfl⟩
    | made hh hneeded =>
      -- The registration of the full backup would follow.
      obtain ⟨c, hc⟩ := hlater _ (List.mem_append_left _ List.mem_cons_self)
      cases hc

/-- As long as a client has no turn, and the others at most bind backends, the stores and the handlers stay. -/
theorem quiet_interleave {us' : List (Nat × Instant)} (hs : s.Replacing) (hok : Succeeds e s (us ++ us'))
    (hno : ∀ u ∈ us, u.1 ≠ i) (hquiet : ∀ x ∈ contributions e s (us ++ us'), x.call ≠ i → x.binding?.isSome) :
    World.Untouched s.world (s.interleave e us).world := by
  induction us generalizing s with
  | nil => exact .refl s.world
  | cons u us ih =>
    obtain ⟨j, now⟩ := u
    have hj : j ≠ i := hno _ List.mem_cons_self
    obtain ⟨hgo, hrest⟩ := succeeds_cons.1 hok
    have hturn := (quiet_turn hs hok fun x hx hcall => hquiet x hx (hcall.symm ▸ hj)).1
    exact hturn.trans (ih (hs.turn hgo) hrest (fun u hu => hno u (List.mem_cons_of_mem _ hu))
      fun x hx => hquiet x (List.mem_append_right _ hx))

/-- What a client contributes that has only installations ahead installs. -/
theorem adds_of_contribution (hs : s.Replacing) (h : AllProceed e s us) (hi : s.clients[i]? = some ts)
    (hinstalls : ∀ t ∈ ts, t.Installs) {x : Contribution} (hx : x ∈ contributions e s us) (hcall : x.call = i) :
    World.Adds x.act := by
  obtain ⟨before, after, hsplit⟩ := List.append_of_mem hx
  obtain ⟨vs, vs', rest, rfl, -, hahead, -⟩ := contributions_eq_append hsplit
  obtain ⟨ts', hts', hinstalls'⟩ := ahead_interleave (fun _ => id) hs (allProceed_append.1 h).1 hi hinstalls
  rw [hcall, hts'] at hahead
  cases hahead
  exact hinstalls' _ List.mem_cons_self

/-- While only installations are contributed, the bindings stay. -/
theorem bindings_interleave (hs : s.Replacing) (h : AllProceed e s us)
    (hadds : ∀ x ∈ contributions e s us, World.Adds x.act) : (s.interleave e us).world.bindings = s.world.bindings := by
  have haccrues := accrues_interleave hs h fun x hx => (Contribution.of_adds (hadds x hx)).1
  have hnone : (contributions e s us).filterMap Contribution.binding? = [] :=
    List.filterMap_eq_nil_iff.2 fun x hx => (Contribution.of_adds (hadds x hx)).2
  rw [haccrues.bindings, hnone]
  rfl

/-! ### A call alone -/

/-- A client that is alone advances with its next step. -/
theorem alone_turn (hv : v.Ready) {t : Task} (ht : t.Replaces) {v' : World β} {ts' : List Task}
    (h : World.Advance e now v ts t v' ts') :
    (⟨v, [t :: ts]⟩ : Site β).proceeds e 0 now = true ∧
      (⟨v, [t :: ts]⟩ : Site β).happen e (.client 0 now) = ⟨v', [ts']⟩ := by
  have hstep := (World.step_eq_inr_iff hv ht).2 h
  have hi : (⟨v, [t :: ts]⟩ : Site β).clients[0]? = some (t :: ts) := rfl
  constructor
  · simp only [proceeds, hi, hstep, Sum.isRight_inr]
  · rw [happen_client hi, hstep]
    rfl

/-- A client alone at one reading of the clock performs its steps in one piece. -/
theorem perform_of_succeeds (hok : Succeeds e ⟨v, [ts]⟩ us) (hnow : ∀ u ∈ us, u = (0, now)) :
    World.perform e now ts v = (((⟨v, [ts]⟩ : Site β).interleave e us).world, .done) := by
  induction us generalizing v ts with
  | nil =>
    obtain rfl : ts = [] := hok.2 ts List.mem_cons_self
    rfl
  | cons u us ih =>
    obtain rfl := hnow u List.mem_cons_self
    have hnow' : ∀ u ∈ us, u = (0, now) := fun u hu => hnow u (List.mem_cons_of_mem _ hu)
    obtain ⟨hgo, hrest⟩ := succeeds_cons.1 hok
    have hi : (⟨v, [ts]⟩ : Site β).clients[0]? = some ts := rfl
    rw [interleave_cons]
    cases ts with
    | nil =>
      rw [happen_client_idle (.inr hi)] at hrest ⊢
      exact ih hrest hnow'
    | cons t ts =>
      obtain ⟨⟨v', next⟩, hstep⟩ : ∃ q, World.step e now v (t :: ts) = q := ⟨_, rfl⟩
      have hright : next.isRight = true := by simpa only [proceeds, hi, hstep] using hgo
      cases next with
      | inl o => cases hright
      | inr ts' =>
        have hnext : (⟨v, [t :: ts]⟩ : Site β).happen e (.client 0 now) = ⟨v', [ts']⟩ := by
          rw [happen_client hi, hstep]
          rfl
        rw [hnext] at hrest ⊢
        rw [World.perform_of_step hstep]
        exact ih hrest hnow'

/-- A call alone at one reading of the clock is the call in one piece. -/
theorem applyConfig_of_succeeds (hok : Succeeds e (ofCalls [r] v) us) (hnow : ∀ u ∈ us, u = (0, now)) :
    World.applyConfig e now r.delay r.config v = (((ofCalls [r] v).interleave e us).world, .done) := by
  unfold World.applyConfig
  rw [r.built]
  exact perform_of_succeeds hok hnow

/-! ### Alone and among others -/

/-- A call alone that does what a client does among others: the worlds are alike, and the steps ahead are the same but
for the numbers of handlers. -/
structure Follows (m n i : Nat) (v : World β) (ts : List Task) (s : Site β) : Prop where
  ready : v.Ready
  alike : World.Alike m n v s.world
  handlers : v.handlers + m = s.world.handlers + n
  ahead : ∃ ts', s.clients[i]? = some ts' ∧ ts.map (Task.shift m) = ts'.map (Task.shift n) ∧ ∀ t ∈ ts', t.Installs

/-- A step of the client among others is one of the call alone. -/
theorem Follows.own (h : Follows m n i v ts s) (hs : s.Replacing) (hgo : s.proceeds e i now = true) :
    ∃ v' ts', (⟨v, [ts]⟩ : Site β).proceeds e 0 now = true ∧
      (⟨v, [ts]⟩ : Site β).happen e (.client 0 now) = ⟨v', [ts']⟩ ∧
      Follows m n i v' ts' (s.happen e (.client i now)) := by
  obtain ⟨us, hi, hshift, hinstalls⟩ := h.ahead
  rcases clients_turn hs hgo hi with ⟨hidle, hahead⟩ | ⟨-, t', rest, w', us', rfl, hadvance, hnext, hahead⟩
  · obtain rfl : us = [] := hidle.resolve_left (by simp)
    obtain rfl : ts = [] := List.map_eq_nil_iff.1 hshift
    have hidle' : (⟨v, [[]]⟩ : Site β).clients[0]? = some [] := rfl
    refine ⟨v, [], rfl, happen_client_idle (.inr hidle'), ?_⟩
    rw [happen_client_idle (.inr hi)]
    exact h
  · obtain ⟨t, ts, rfl, ht, hts⟩ := List.map_eq_cons_iff.1 hshift
    have ht' : t'.Installs := hinstalls t' List.mem_cons_self
    have htinstalls : t.Installs := Task.installs_shift_iff.1 (ht ▸ Task.installs_shift_iff.2 ht')
    obtain ⟨v', ts', hadvance', halike, hhandlers, hshift'⟩ := h.alike.advance h.handlers ht' ht hts hadvance
    obtain ⟨hgo', hnext'⟩ := alone_turn h.ready htinstalls.replaces hadvance'
    refine ⟨v', ts', hgo', hnext', hadvance'.ready h.ready, ?_, ?_, us', hahead, hshift', ?_⟩
    · rw [hnext]
      exact halike
    · rw [hnext]
      exact hhandlers
    · intro t'' ht''
      exact (hadvance.ahead t'' ht'').elim (fun h => hinstalls t'' (List.mem_cons_of_mem _ h)) id

/-- A step of another client that contributes nothing any more is none of the call alone. -/
theorem Follows.other (h : Follows m n i v ts s) (hs : s.Replacing) (hok : Succeeds e s ((j, now) :: us)) (hj : j ≠ i)
    (hmine : ∀ x ∈ contributions e s ((j, now) :: us), x.call = i) :
    Follows m n i v ts (s.happen e (.client j now)) := by
  have hnone : s.contribution? j now = none := by
    by_contra hsome
    obtain ⟨x, hx⟩ := Option.ne_none_iff_exists'.1 hsome
    have hmem : x ∈ contributions e s ((j, now) :: us) := List.mem_append_left _ (Option.mem_toList.2 hx)
    exact hj ((call_of_contribution? hx).symm.trans (hmine x hmem))
  obtain ⟨hsame, hbindings⟩ := quiet_turn hs hok fun x hx hcall => absurd (hcall.symm.trans (hmine x hx)) hj
  obtain ⟨us', hi, hshift, hinstalls⟩ := h.ahead
  refine ⟨h.ready, ⟨fun k => ?_, ?_, fun k => ?_, ?_⟩, ?_, us', ?_, hshift, hinstalls⟩
  · rw [hsame.jobs]
    exact h.alike.jobs k
  · rw [hsame.queue]
    exact h.alike.queue
  · rw [hsame.details]
    exact h.alike.details k
  · rw [hbindings hnone]
    exact h.alike.bindings
  · rw [hsame.handlers]
    exact h.handlers
  · rcases clients_turn hs hok.1.1 hi with ⟨-, hahead⟩ | ⟨heq, -⟩
    · exact hahead
    · exact absurd heq hj

/-- The call alone ends as among others who contribute nothing any more. -/
theorem Follows.interleave (h : Follows m n i v ts s) (hs : s.Replacing) (hok : Succeeds e s us)
    (hmine : ∀ x ∈ contributions e s us, x.call = i) :
    Succeeds e ⟨v, [ts]⟩ (ownTurns i us) ∧
      World.Alike m n ((⟨v, [ts]⟩ : Site β).interleave e (ownTurns i us)).world (s.interleave e us).world := by
  induction us generalizing s v ts with
  | nil =>
    obtain ⟨us, hi, hshift, -⟩ := h.ahead
    obtain rfl : us = [] := hok.2 us (List.mem_of_getElem? hi)
    obtain rfl : ts = [] := List.map_eq_nil_iff.1 hshift
    exact ⟨⟨trivial, by simp [ownTurns]⟩, h.alike⟩
  | cons u us ih =>
    obtain ⟨j, now⟩ := u
    obtain ⟨hgo, hrest⟩ := succeeds_cons.1 hok
    have hmine' : ∀ x ∈ contributions e (s.happen e (.client j now)) us, x.call = i :=
      fun x hx => hmine x (List.mem_append_right _ hx)
    by_cases hj : j = i
    · subst hj
      obtain ⟨v', ts', hgo', hnext, hfollows⟩ := h.own hs hgo
      rw [ownTurns_cons_self, interleave_cons, interleave_cons, succeeds_cons, hnext]
      obtain ⟨hok', halike⟩ := ih hfollows (hs.turn hgo) hrest hmine'
      exact ⟨⟨hgo', hok'⟩, halike⟩
    · rw [ownTurns_cons_of_ne hj, interleave_cons]
      exact ih (h.other hs hok hj hmine) (hs.turn hgo) hrest hmine'

/-- A call that binds its backends in a blank world, and is the only one to contribute from then on, leaves what it
leaves alone. -/
theorem alike_of_binding (hs : s.Replacing) (hblank : s.world.Blank) (hi : s.clients[i]? = some r.afterClear)
    (hok : Succeeds e s ((i, now) :: us))
    (hmine : ∀ x ∈ contributions e (s.happen e (.client i now)) us, x.call = i) (hv : v.Blank)
    (hbind : e.bind v.bound r.config = (s.interleave e ((i, now) :: us)).world.bindings) :
    Succeeds e ⟨v, [r.afterClear]⟩ (ownTurns i ((i, now) :: us)) ∧
      World.Alike s.world.handlers v.handlers
        ((⟨v, [r.afterClear]⟩ : Site β).interleave e (ownTurns i ((i, now) :: us))).world
        (s.interleave e ((i, now) :: us)).world := by
  obtain ⟨hgo, hrest⟩ := succeeds_cons.1 hok
  rcases clients_turn hs hgo hi with ⟨hidle, -⟩ | ⟨-, t, rest, w', ts', heq, hadvance, hnext, hahead⟩
  · simp [Reconfiguration.afterClear] at hidle
  obtain ⟨rfl, rfl⟩ := List.cons.inj heq
  cases hadvance
  have hs' := hs.turn hgo
  have hadds : ∀ x ∈ contributions e (s.happen e (.client i now)) us, World.Adds x.act := fun x hx =>
    adds_of_contribution hs' hrest.1 hahead (fun t ht => Reconfiguration.installs_of_mem ht) hx (hmine x hx)
  rw [interleave_cons, bindings_interleave hs' hrest.1 hadds, hnext] at hbind
  -- Both have bound the same backends, and have the same ahead of them.
  have hfollows : Follows s.world.handlers v.handlers i (v.rebind e r.config) r.installs
      (s.happen e (.client i now)) := by
    refine ⟨hv.ready, ?_, ?_, _, hahead, ?_, fun t ht => Reconfiguration.installs_of_mem ht⟩
    · rw [hnext]
      exact World.alike_of_blank ⟨hv.ready, hv.jobs, hv.queue, hv.details⟩
        ⟨hblank.ready, hblank.jobs, hblank.queue, hblank.details⟩ hbind
    · rw [hnext]
      exact Nat.add_comm _ _
    · rw [Reconfiguration.installs_shift, Reconfiguration.installs_shift]
  obtain ⟨hok', halike⟩ := hfollows.interleave hs' hrest hmine
  have halone : World.Advance e now v r.installs (.act (.rebind r.config)) (v.rebind e r.config) r.installs :=
    .rebind r.config
  obtain ⟨hgo', hnext'⟩ := alone_turn (t := .act (.rebind r.config)) hv.ready trivial halone
  have hafter : (⟨v, [r.afterClear]⟩ : Site β).happen e (.client 0 now) = ⟨v.rebind e r.config, [r.installs]⟩ := hnext'
  rw [ownTurns_cons_self, interleave_cons, interleave_cons, succeeds_cons, hafter]
  exact ⟨⟨hgo', hok'⟩, halike⟩

/-- After its clear, a call that is undisturbed leaves what it leaves alone. -/
theorem alike_of_undisturbed (hs : s.Replacing) (hblank : s.world.Blank) (hi : s.clients[i]? = some r.afterClear)
    (hok : Succeeds e s us) (hund : Undisturbed i (contributions e s us)) (hv : v.Blank)
    (hbind : e.bind v.bound r.config = (s.interleave e us).world.bindings) :
    Succeeds e ⟨v, [r.afterClear]⟩ (ownTurns i us) ∧
      World.Alike s.world.handlers v.handlers
        ((⟨v, [r.afterClear]⟩ : Site β).interleave e (ownTurns i us)).world (s.interleave e us).world := by
  obtain ⟨others, y, mine, hsplit, hothers, ⟨rfl, hy⟩, hmine⟩ := hund
  have hquiet : ∀ x ∈ contributions e s us, x.call ≠ y.call → x.binding?.isSome := by
    intro x hx hne
    rw [hsplit, List.mem_append, List.mem_cons] at hx
    rcases hx with hx | rfl | hx
    · exact hothers x hx
    · exact absurd rfl hne
    · exact absurd (hmine x hx) hne
  -- Up to the turn in which the call binds its backends nothing happens to the stores.
  obtain ⟨us₁, us₂, ts, rfl, -, hhead, hafter⟩ := contributions_eq_append hsplit
  obtain ⟨hgo₁, hgo₂⟩ := allProceed_append.1 hok.1
  obtain ⟨c, hc⟩ := Option.isSome_iff_exists.1 hy
  rw [Contribution.binding?_eq_some_iff.1 hc] at hhead
  have hno := no_turn_of_ahead hs hgo₁ id hi (fun t ht => Reconfiguration.ne_rebind_of_mem ht c) hhead
  have hsame := quiet_interleave hs hok hno hquiet
  have hs₁ := hs.interleave hgo₁
  have hblank₁ : (s.interleave e us₁).world.Blank :=
    ⟨hs₁.ready, hsame.jobs.trans hblank.jobs, hsame.queue.trans hblank.queue, hsame.details.trans hblank.details⟩
  rw [interleave_append] at hbind ⊢
  rw [ownTurns_append_of_no_turn hno, ← hsame.handlers]
  exact alike_of_binding hs₁ hblank₁ (clients_interleave_of_no_turn hs hgo₁ hi hno)
    ⟨hgo₂, interleave_append e s us₁ _ ▸ hok.2⟩ (fun x hx => hmine x (hafter ▸ hx)) hv hbind

/-- **Calls side by side.** However the steps of calls are mixed, if all return, the call that clears last did nothing
before its clear, and binds its backends after it. What is registered, recorded and bound in the end is what the calls
contributed after that clear. If the others contributed nothing but bindings before the one of that call, it is what the
call leaves alone, in any world in which it binds the same backends. -/
theorem sideBySide {calls : List Reconfiguration} {w : World β} (hw : w.Ready) (hcalls : calls ≠ [])
    (hok : Succeeds e (ofCalls calls w) us) :
    ∃ before x after r, contributions e (ofCalls calls w) us = before ++ x :: after ∧ calls[x.call]? = some r ∧
      x.act = .request .clear ∧ (∀ y ∈ before, y.call ≠ x.call) ∧ (∀ y ∈ after, y.act ≠ .request .clear) ∧
      (∃ y ∈ after, y.call = x.call ∧ y.act = .rebind r.config) ∧
      World.Remains e after ((ofCalls calls w).interleave e us).world ∧
      (Undisturbed x.call after → ∀ v : World β, v.Ready →
        e.bind v.bound r.config = ((ofCalls calls w).interleave e us).world.bindings →
        Succeeds e (ofCalls [r] v) (ownTurns x.call us) ∧
          ∃ m n, World.Alike m n ((ofCalls [r] v).interleave e (ownTurns x.call us)).world
            ((ofCalls calls w).interleave e us).world) := by
  obtain ⟨vs, i, now, vs', r, rfl, hr, hno, hi, hclears⟩ := exists_last_clear hw hcalls hok
  have hs := replacing_ofCalls hw calls
  obtain ⟨hgo₁, hgo₂⟩ := allProceed_append.1 hok.1
  have hs₁ := hs.interleave hgo₁
  obtain ⟨hgo, hrest⟩ := succeeds_cons.1 ⟨hgo₂, interleave_append e (ofCalls calls w) vs _ ▸ hok.2⟩
  have hnext := happen_clear hs₁ hgo hi
  have hs₂ := hs₁.turn hgo
  have hi₂ : (((ofCalls calls w).interleave e vs).happen e (.client i now)).clients[i]? = some r.afterClear := by
    rw [hnext]
    exact List.getElem?_set_self (List.getElem?_eq_some_iff.1 hi).1
  have haccrues := accrues_interleave hs₂ hrest.1 hclears
  rw [interleave_append, interleave_cons]
  refine ⟨contributions e (ofCalls calls w) vs, ⟨i, now, .request .clear⟩, contributions e
    (((ofCalls calls w).interleave e vs).happen e (.client i now)) vs', r, ?_, hr, rfl, call_ne_of_no_turn hno, ?_,
    exists_contribution hs₂ hrest hi₂ List.mem_cons_self, ?_, ?_⟩
  · rw [contributions_append, contributions, contribution?_of_head hi]
    rfl
  · intro y hy heq
    have hclear := hclears y hy
    rw [Contribution.clears_eq_true_iff.2 heq] at hclear
    cases hclear
  · rw [hnext] at haccrues ⊢
    exact haccrues.remains
  · intro hund v hv hbind
    have hblank : (((ofCalls calls w).interleave e vs).happen e (.client i now)).world.Blank := by
      rw [hnext]
      exact ⟨Scheduler.Ready.answered hs₁.ready _, rfl, rfl, rfl⟩
    have hcleared : v.cleared.Blank := ⟨Scheduler.Ready.answered hv _, rfl, rfl, rfl⟩
    obtain ⟨hok', halike⟩ := alike_of_undisturbed hs₂ hblank hi₂ hrest hund hcleared hbind
    -- The call alone clears first.
    have halone : World.Advance e now v r.afterClear (.act (.request .clear)) v.cleared r.afterClear := .clear
    obtain ⟨hgo', hnext'⟩ := alone_turn (t := .act (.request .clear)) hv trivial halone
    have hafter : (ofCalls [r] v).happen e (.client 0 now) = ⟨v.cleared, [r.afterClear]⟩ := hnext'
    rw [ownTurns_append_of_no_turn hno, ownTurns_cons_self, interleave_cons, succeeds_cons, hafter]
    exact ⟨⟨hgo', hok'⟩, _, _, halike⟩

/-! ### Two calls -/

section TwoCalls

open World (noon plainEngine scheduled hourly)

/-- A call for nothing, and one for the hourly routine. -/
def emptyAndHourly : List Reconfiguration := [Config.empty, hourly].filterMap (Reconfiguration.read? .zero)

/-- Both calls clear and then bind their backends, the first one first, and the second goes on. -/
def bothBind : List (Nat × Instant) := [0, 1, 0, 1, 1, 1, 1].map fun i => (i, noon)

/-- Beside a call for nothing the other one leaves what it leaves alone. -/
theorem sideBySide_hourly :
    scheduled.Ready ∧ emptyAndHourly ≠ [] ∧
    Succeeds (plainEngine (some noon)) (ofCalls emptyAndHourly scheduled) bothBind ∧
    ∃ r ∈ emptyAndHourly, ∃ v',
      World.applyConfig (plainEngine (some noon)) noon r.delay r.config scheduled = (v', .done) ∧
      ∃ m n, World.Alike m n v'
        ((ofCalls emptyAndHourly scheduled).interleave (plainEngine (some noon)) bothBind).world := by
  have hok : Succeeds (plainEngine (some noon)) (ofCalls emptyAndHourly scheduled) bothBind :=
    ⟨by decide +kernel, by decide +kernel⟩
  have hne : emptyAndHourly ≠ [] := List.ne_nil_of_length_pos (by decide +kernel)
  -- Of each contribution: the call, whether it clears, and whether it binds.
  have hall : (contributions (plainEngine (some noon)) (ofCalls emptyAndHourly scheduled) bothBind).map
      (fun x => (x.call, x.clears, x.binding?.isSome)) =
      [(0, true, false), (1, true, false), (0, false, true), (1, false, true), (1, false, false),
        (1, false, false)] := by
    decide +kernel
  obtain ⟨before, x, after, r, hsplit, hr, hclear, -, hafter, -, -, halone⟩ := sideBySide World.ready_scheduled hne hok
  rw [hsplit, List.map_append, List.map_cons] at hall
  -- So the second clear is the last, and what follows on it is that.
  have hcall : x.call = 1 ∧ Undisturbed 1 after := by
    match before with
    | [] =>
      simp only [List.map_nil, List.nil_append, List.cons.injEq, List.map_eq_cons_iff] at hall
      obtain ⟨-, y, rest, rfl, hy, -⟩ := hall
      simp only [Prod.mk.injEq, Contribution.clears_eq_true_iff] at hy
      exact absurd hy.2.1 (hafter y List.mem_cons_self)
    | [_] =>
      simp only [List.map_cons, List.map_nil, List.cons_append, List.nil_append, List.cons.injEq, List.map_eq_cons_iff,
        List.map_eq_nil_iff, Prod.mk.injEq] at hall
      obtain ⟨-, hx, y₀, ys₀, rfl, hy₀, y₁, ys₁, rfl, hy₁, y₂, ys₂, rfl, hy₂, y₃, ys₃, rfl, hy₃, rfl⟩ := hall
      refine ⟨hx.1, [y₀], y₁, [y₂, y₃], rfl, ?_, ⟨hy₁.1, hy₁.2.2⟩, ?_⟩
      · simp [hy₀.2.2]
      · simp [hy₂.1, hy₃.1]
    | _ :: _ :: before =>
      simp only [List.map_cons, List.cons_append, List.cons.injEq] at hall
      have hmem : (x.call, x.clears, x.binding?.isSome) ∈
          [(0, false, true), (1, false, true), (1, false, false), (1, false, false)] := by
        rw [← hall.2.2]
        exact List.mem_append_right _ List.mem_cons_self
      simp [Contribution.clears_eq_true_iff.2 hclear] at hmem
  rw [hcall.1] at hr halone
  have hbind : ∀ r ∈ emptyAndHourly[1]?, (plainEngine (some noon)).bind scheduled.bound r.config =
      ((ofCalls emptyAndHourly scheduled).interleave (plainEngine (some noon)) bothBind).world.bindings := by
    decide +kernel
  obtain ⟨halone, halike⟩ := halone hcall.2 scheduled World.ready_scheduled (hbind r hr)
  have hnow : ∀ u ∈ ownTurns 1 bothBind, u = (0, noon) := by decide +kernel
  exact ⟨World.ready_scheduled, hne, hok, r, List.mem_of_getElem? hr, _, applyConfig_of_succeeds halone hnow, halike⟩

/-- One routine that fires every midnight. -/
def daily : Config := Config.empty.withRoutine "daily" { fullCron := "0 0 * * *" }

/-- One routine that fires on Sundays. -/
def weekly : Config := Config.empty.withRoutine "weekly" { fullCron := "0 0 * * 0" }

/-- A call for each of the two routines. -/
def dailyAndWeekly : List Reconfiguration := [daily, weekly].filterMap (Reconfiguration.read? .zero)

/-- Both calls clear and then bind their backends, and then each registers its routine. -/
def bothRegister : List (Nat × Instant) := [0, 1, 0, 1, 0, 0, 0, 1, 1, 1].map fun i => (i, noon)

/-- Both calls return, the routines of both are registered, and only one has a backend. That is not the schedule of
either call alone. -/
theorem dailyAndWeekly_mixed :
    scheduled.Ready ∧ dailyAndWeekly.length = 2 ∧
    Succeeds (plainEngine (some noon)) (ofCalls dailyAndWeekly scheduled) bothRegister ∧
    ∀ i r, dailyAndWeekly[i]? = some r → ∀ m n, ¬ World.Alike m n
      ((ofCalls [r] scheduled).interleave (plainEngine (some noon)) (ownTurns i bothRegister)).world
      ((ofCalls dailyAndWeekly scheduled).interleave (plainEngine (some noon)) bothRegister).world := by
  -- Each call leaves out the routine of the other.
  have hkeys : ∀ i < dailyAndWeekly.length, ∃ k ∈ [Key.full "daily", Key.full "weekly"],
      k ∈ ((ofCalls dailyAndWeekly scheduled).interleave (plainEngine (some noon)) bothRegister).world.jobs ∧
      ∀ r ∈ dailyAndWeekly[i]?,
        k ∉ ((ofCalls [r] scheduled).interleave (plainEngine (some noon)) (ownTurns i bothRegister)).world.jobs := by
    decide +kernel
  refine ⟨World.ready_scheduled, by decide +kernel, ⟨by decide +kernel, by decide +kernel⟩, ?_⟩
  intro i r hr m n halike
  obtain ⟨k, -, hk, hnot⟩ := hkeys i (List.getElem?_eq_some_iff.1 hr).1
  exact hnot r hr ((halike.mem_jobs_iff k).2 hk)

end TwoCalls

end Site

end Rota
