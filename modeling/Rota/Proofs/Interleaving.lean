import Rota.Proofs.Course
import Rota.Proofs.Reconfigure

/-!
# Calls side by side

Several calls replace the schedule of one running scheduler at the same time, and their steps are mixed in some order.

- a step that goes through is one of six (`World.Advance`, `World.step_eq_inr_iff`);
- what a step contributes to the stores is one act (`Contribution`), and a run of steps the acts one after the other
  (`Site.contributions`);
- as long as all steps go through, the world stays ready and the clients have nothing ahead but what replaces a
  schedule (`Site.Replacing.interleave`).
-/

namespace Rota

/-! ## Steps that go through -/

/-- A step of a call that replaces the schedule. -/
def Task.Replaces : Task → Prop
  | .act (.request .clear) => True
  | .act (.rebind _) => True
  | .act a => World.Adds a
  | .routine .. => True
  | .adhoc _ => False

/-- A step that installs a routine. -/
def Task.Installs : Task → Prop
  | .act a => World.Adds a
  | .routine .. => True
  | .adhoc _ => False

theorem Task.Installs.replaces {t : Task} (h : t.Installs) : t.Replaces := by
  unfold Installs at h
  unfold Replaces
  split <;> simp_all

namespace World

variable {β : Type} {e : Engine β} {now : Instant} {w w' : World β} {t : Task} {ts ts' : List Task}

/-- The world after a clear. -/
def cleared (w : World β) : World β :=
  { w with scheduler := w.scheduler.answered w.scheduler.dispatcher.clear }

/-- A step of a call goes through: the world and the steps ahead afterwards. -/
inductive Advance (e : Engine β) (now : Instant) (w : World β) (ts : List Task) : Task → World β → List Task → Prop
  | clear : Advance e now w ts (.act (.request .clear)) w.cleared ts
  | rebind (c : Config) : Advance e now w ts (.act (.rebind c)) (w.rebind e c) ts
  | schedule {d : Detail} {t t' : Trigger} {due : Instant} (hfree : d.key ∉ w.jobs)
    (hdue : t.next now = (t', .due due)) :
    Advance e now w ts (.act (.request (.schedule d t))) (w.enter ⟨d, t', due⟩) ts
  | record (k : Key) (d : Detail) : Advance e now w ts (.act (.record k d)) (w.withRegistry (·.put k d)) ts
  | refused {c : Config} {delay : Span} {x : Plan.Entry} {err : HandlerError}
    (hh : e.handler c x.name w.bindings[x.name]? = .error err) :
    Advance e now w ts (.routine c delay x) (w.withRefusal x.name err) ts
  | made {c : Config} {delay : Span} {x : Plan.Entry} {h : Handler} {needed : Bool}
    (hh : e.handler c x.name w.bindings[x.name]? = .ok h)
    (hneeded : needsFullBackup? h.lastFull x.full now = some needed) :
    Advance e now w ts (.routine c delay x) (w.withHandler x.name)
      ((registrations w.handlers h needed delay x).map Task.act ++ ts)

theorem step_act_eq_inr_iff {a : Act} :
    step e now w (.act a :: ts) = (w', .inr ts') ↔ act e now w a = (w', .done) ∧ ts' = ts := by
  rw [step_act]
  obtain ⟨v, o⟩ := act e now w a
  cases o <;> simp [eq_comm]

/-- The acts of a call that go through. -/
theorem advance_act_iff (hw : w.Ready) {a : Act} (ha : (Task.act a).Replaces) :
    Advance e now w ts (.act a) w' ts' ↔ act e now w a = (w', .done) ∧ ts' = ts := by
  match a with
  | .request .clear =>
    have hclear : act e now w (.request .clear) = (w.cleared, .done) :=
      act_request_ok (Scheduler.request_of_handle hw rfl)
    rw [hclear]
    constructor
    · rintro ⟨⟩
      exact ⟨rfl, rfl⟩
    · rintro ⟨⟨⟩, rfl⟩
      exact .clear
  | .request (.schedule d t) =>
    rw [act_schedule_eq_done_iff hw]
    constructor
    · intro h
      cases h with
      | schedule hfree hdue => exact ⟨⟨hfree, _, _, hdue, rfl⟩, rfl⟩
    · rintro ⟨⟨hfree, t', due, hdue, rfl⟩, rfl⟩
      exact .schedule hfree hdue
  | .rebind c =>
    constructor
    · rintro ⟨⟩
      exact ⟨rfl, rfl⟩
    · rintro ⟨h, rfl⟩
      cases h
      exact .rebind c
  | .record k d =>
    constructor
    · rintro ⟨⟩
      exact ⟨rfl, rfl⟩
    · rintro ⟨h, rfl⟩
      cases h
      exact .record k d

/-- A routine goes through if its handler is refused, or if it is made and the decision on the catch-up run is. -/
theorem advance_routine_iff {c : Config} {delay : Span} {x : Plan.Entry} :
    Advance e now w ts (.routine c delay x) w' ts' ↔ step e now w (.routine c delay x :: ts) = (w', .inr ts') := by
  rw [step_of_forall_ne w (by simp)]
  constructor
  · intro h
    cases h with
    | refused hh =>
      simp only [takeUp, hh]
      rfl
    | made hh hneeded =>
      simp only [takeUp, hh, hneeded]
      rfl
  · intro h
    cases hh : e.handler c x.name w.bindings[x.name]? with
    | error err =>
      simp only [takeUp, hh] at h
      cases h
      exact .refused hh
    | ok handler =>
      cases hneeded : needsFullBackup? handler.lastFull x.full now with
      | none =>
        simp only [takeUp, hh, hneeded] at h
        cases h
      | some needed =>
        simp only [takeUp, hh, hneeded] at h
        cases h
        exact .made hh hneeded

/-- The steps of a call that go through are those. -/
theorem step_eq_inr_iff (hw : w.Ready) (ht : t.Replaces) :
    step e now w (t :: ts) = (w', .inr ts') ↔ Advance e now w ts t w' ts' := by
  cases t with
  | act a => rw [step_act_eq_inr_iff, advance_act_iff hw ht]
  | routine c delay x => exact advance_routine_iff.symm
  | adhoc routine => exact ht.elim

theorem Advance.ready (h : Advance e now w ts t w' ts') (hw : w.Ready) : w'.Ready := by
  cases h with
  | clear => exact Scheduler.Ready.answered hw _
  | schedule => exact hw.enter _
  | record k d => exact ⟨hw.running, hw.uncancelled, hw.idle⟩
  | _ => exact hw

/-- What follows on a step that goes through is what was ahead, or installs a routine. -/
theorem Advance.ahead (h : Advance e now w ts t w' ts') : ∀ t' ∈ ts', t' ∈ ts ∨ t'.Installs := by
  intro t' ht'
  cases h with
  | made =>
    rcases List.mem_append.1 ht' with ht' | ht'
    · obtain ⟨a, ha, rfl⟩ := List.mem_map.1 ht'
      exact .inr (adds_registrations _ _ _ _ _ a ha)
    · exact .inl ht'
  | _ => exact .inl ht'

/-- Nothing that was ahead is lost. -/
theorem Advance.mem_of_mem (h : Advance e now w ts t w' ts') {t' : Task} (ht' : t' ∈ ts) : t' ∈ ts' := by
  cases h with
  | made => exact List.mem_append_right _ ht'
  | _ => exact ht'

end World

/-! ## Interleavings -/

/-- An act that a call carried out, with its reading of the clock. -/
structure Contribution where
  call : Nat
  reading : Instant
  act : Act

namespace Contribution

def clears (x : Contribution) : Bool :=
  match x.act with
  | .request .clear => true
  | _ => false

/-- The registration that an act makes. -/
def registration? (x : Contribution) : Option Registration :=
  match x.act with
  | .request (.schedule d t) =>
    match t.next x.reading with
    | (t', .due due) => some ⟨d, t', due⟩
    | _ => none
  | _ => none

/-- What an act puts into the registry. -/
def record? (x : Contribution) : Option (Key × Detail) :=
  match x.act with
  | .record k d => some (k, d)
  | _ => none

/-- The configuration whose backends an act binds. -/
def binding? (x : Contribution) : Option Config :=
  match x.act with
  | .rebind c => some c
  | _ => none

theorem clears_eq_true_iff {x : Contribution} : x.clears = true ↔ x.act = .request .clear := by
  unfold clears
  split <;> simp_all

theorem binding?_eq_some_iff {x : Contribution} {c : Config} : x.binding? = some c ↔ x.act = .rebind c := by
  unfold binding?
  split <;> simp_all

/-- What installs neither clears nor binds. -/
theorem of_adds {x : Contribution} (h : World.Adds x.act) : x.clears = false ∧ x.binding? = none := by
  constructor
  · by_contra hx
    rw [Bool.not_eq_false, clears_eq_true_iff] at hx
    rw [hx] at h
    exact h
  · by_contra hx
    obtain ⟨c, hc⟩ := Option.ne_none_iff_exists'.1 hx
    rw [binding?_eq_some_iff.1 hc] at h
    exact h

end Contribution

/-- What a step contributes; a step that looks at the world first contributes nothing itself. -/
def Task.contribution? (i : Nat) (now : Instant) : Task → Option Contribution
  | .act a => some ⟨i, now, a⟩
  | _ => none

namespace Site

variable {β : Type} {e : Engine β} {s : Site β} {i : Nat} {now : Instant} {us us' : List (Nat × Instant)}

/-- Whether the next step of a client goes through; a client that has none goes through. -/
def proceeds (e : Engine β) (s : Site β) (i : Nat) (now : Instant) : Bool :=
  match s.clients[i]? with
  | some (t :: ts) => (World.step e now s.world (t :: ts)).2.isRight
  | _ => true

/-- What the next step of a client contributes. -/
def contribution? (s : Site β) (i : Nat) (now : Instant) : Option Contribution :=
  match s.clients[i]? with
  | some (t :: _) => t.contribution? i now
  | _ => none

/-- The site after its clients took steps in some order. -/
def interleave (e : Engine β) (s : Site β) (us : List (Nat × Instant)) : Site β :=
  s.run e (us.map fun u => .client u.1 u.2)

/-- What clients contribute when they take steps in some order. -/
def contributions (e : Engine β) : Site β → List (Nat × Instant) → List Contribution
  | _, [] => []
  | s, (i, now) :: us => (s.contribution? i now).toList ++ contributions e (s.happen e (.client i now)) us

/-- All steps go through. -/
def AllProceed (e : Engine β) : Site β → List (Nat × Instant) → Prop
  | _, [] => True
  | s, (i, now) :: us => s.proceeds e i now = true ∧ AllProceed e (s.happen e (.client i now)) us

/-- All steps go through, and all calls return. -/
def Succeeds (e : Engine β) (s : Site β) (us : List (Nat × Instant)) : Prop :=
  AllProceed e s us ∧ ∀ ts ∈ (s.interleave e us).clients, ts = []

instance decidableAllProceed (e : Engine β) : ∀ (s : Site β) (us : List (Nat × Instant)), Decidable (AllProceed e s us)
  | _, [] => inferInstanceAs (Decidable True)
  | s, (i, now) :: us =>
    have := decidableAllProceed e (s.happen e (.client i now)) us
    inferInstanceAs (Decidable (_ ∧ _))

@[simp] theorem interleave_nil (e : Engine β) (s : Site β) : s.interleave e [] = s := rfl

@[simp] theorem interleave_cons (e : Engine β) (s : Site β) (i : Nat) (now : Instant) (us : List (Nat × Instant)) :
    s.interleave e ((i, now) :: us) = (s.happen e (.client i now)).interleave e us := rfl

theorem interleave_append (e : Engine β) (s : Site β) (us us' : List (Nat × Instant)) :
    s.interleave e (us ++ us') = (s.interleave e us).interleave e us' := by
  rw [interleave, List.map_append, run, List.foldl_append]
  rfl

theorem allProceed_append : AllProceed e s (us ++ us') ↔ AllProceed e s us ∧ AllProceed e (s.interleave e us) us' := by
  induction us generalizing s with
  | nil => simp [AllProceed]
  | cons u us ih => rw [List.cons_append, AllProceed, AllProceed, ih, and_assoc, interleave_cons]

theorem succeeds_cons : Succeeds e s ((i, now) :: us) ↔
    s.proceeds e i now = true ∧ Succeeds e (s.happen e (.client i now)) us := and_assoc

theorem contributions_append :
    contributions e s (us ++ us') = contributions e s us ++ contributions e (s.interleave e us) us' := by
  induction us generalizing s with
  | nil => rfl
  | cons u us ih => rw [List.cons_append, contributions, contributions, ih, List.append_assoc, interleave_cons]

/-- The loop is ready, and all clients replace the schedule. -/
structure Replacing (s : Site β) : Prop where
  ready : s.world.Ready
  ahead : ∀ ts ∈ s.clients, ∀ t ∈ ts, t.Replaces

/-- A client that goes through has nothing ahead and does nothing, or advances. -/
theorem turn_cases (hs : s.Replacing) (h : s.proceeds e i now = true) :
    ((s.clients[i]? = none ∨ s.clients[i]? = some []) ∧ s.happen e (.client i now) = s) ∨
    ∃ t ts w' ts', s.clients[i]? = some (t :: ts) ∧ World.Advance e now s.world ts t w' ts' ∧
      s.happen e (.client i now) = ⟨w', s.clients.set i ts'⟩ := by
  cases hi : s.clients[i]? with
  | none => exact .inl ⟨.inl rfl, happen_client_idle (.inl hi)⟩
  | some ts =>
    cases ts with
    | nil => exact .inl ⟨.inr rfl, happen_client_idle (.inr hi)⟩
    | cons t ts =>
      obtain ⟨⟨w', next⟩, hstep⟩ : ∃ q, World.step e now s.world (t :: ts) = q := ⟨_, rfl⟩
      have hright : next.isRight = true := by simpa only [proceeds, hi, hstep] using h
      cases next with
      | inl o => cases hright
      | inr ts' =>
        have ht : t.Replaces := hs.ahead _ (List.mem_of_getElem? hi) _ List.mem_cons_self
        refine .inr ⟨t, ts, w', ts', rfl, (World.step_eq_inr_iff hs.ready ht).1 hstep, ?_⟩
        rw [happen_client hi, hstep]
        rfl

theorem Replacing.turn (hs : s.Replacing) (h : s.proceeds e i now = true) :
    (s.happen e (.client i now)).Replacing := by
  rcases turn_cases hs h with ⟨-, hsame⟩ | ⟨t, ts, w', ts', hi, hadvance, hnext⟩
  · rw [hsame]
    exact hs
  · rw [hnext]
    refine ⟨hadvance.ready hs.ready, fun ts'' hts'' t' ht' => ?_⟩
    rcases List.mem_or_eq_of_mem_set hts'' with hts'' | rfl
    · exact hs.ahead ts'' hts'' t' ht'
    · rcases hadvance.ahead t' ht' with ht' | ht'
      · exact hs.ahead _ (List.mem_of_getElem? hi) t' (List.mem_cons_of_mem _ ht')
      · exact ht'.replaces

theorem Replacing.interleave (hs : s.Replacing) (h : AllProceed e s us) : (s.interleave e us).Replacing := by
  induction us generalizing s with
  | nil => exact hs
  | cons u us ih => exact ih (hs.turn h.1) h.2

end Site

end Rota
