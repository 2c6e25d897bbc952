import Rota.Routine.Client

/-!
# Installed routines

What the routines of a plan come to once their handlers are made: `made` lists them, `Installed.registration?` is the
registration of one of them under each of its keys, and `registered` and `recorded` are the registrations and the
recorded jobs of a list of them. A routine is installable if every trigger it asks has an answer (`Installable`).

- the last of two lists prevails (`registered_append`), and a routine among others of different names stands for
  itself (`registered_of_mem`);
- under a name without a routine there is nothing (`registered_of_forall_ne`).
-/

namespace Rota

/-- The instant of an answer, if it is one. -/
def NextFire.due? : NextFire → Option Instant
  | .due t => some t
  | _ => none

@[simp] theorem NextFire.due?_due (t : Instant) : (NextFire.due t).due? = some t := rfl

theorem NextFire.eq_due_of_due? {a : NextFire} {t : Instant} (h : a.due? = some t) : a = .due t := by
  cases a with
  | due t' => cases h; rfl
  | refused err => cases h
  | overrun => cases h

/-- A delay that stays in the calendar leads to the instant that far ahead. -/
theorem RunOnce.target?_eq {delay : Span} {since t : Instant} (h : target? delay since = some t) :
    t = since + delay := by
  unfold target? at h
  split at h
  · cases h
    rfl
  · cases h

/-- A routine of a plan with its handler and the number of the handler. -/
structure Installed where
  entry : Plan.Entry
  number : Nat
  handler : Handler

namespace Installed

/-! ## One routine -/

/-- The name of the routine. -/
def name (x : Installed) : String := x.entry.name

/-- The backup of a kind; the catch-up run is a full backup, and shares its job. -/
def job (x : Installed) (kind : Option Kind) : Job := .backup ⟨x.number, x.handler.routine, kind.getD .full⟩

/-- The job of a kind under its key. -/
def detail (x : Installed) (kind : Option Kind) : Detail := ⟨⟨x.name, kind⟩, x.job kind⟩

/-- The registrations of a routine: the recurring backups at their next fire times, and a catch-up run a delay after
the clock reading if one is needed. -/
def registration? (now : Instant) (delay : Span) (x : Installed) : Option Kind → Option Registration
  | some .full => (x.entry.full.next now).due?.map fun t => ⟨x.detail (some .full), .recurring x.entry.full, t⟩
  | some .incremental =>
    x.entry.incremental.bind fun i =>
      (i.next now).due?.map fun t => ⟨x.detail (some .incremental), .recurring i, t⟩
  | none =>
    if needsFullBackup? x.handler.lastFull x.entry.full now = some true then
      some ⟨x.detail none, .once ⟨delay, .pending⟩, now + delay⟩
    else none

/-- A registration is made for the job of its kind, under its key. -/
theorem detail_of_registration? {now : Instant} {delay : Span} {x : Installed} {kind : Option Kind} {r : Registration}
    (h : x.registration? now delay kind = some r) : r.detail = x.detail kind := by
  cases kind with
  | none =>
    simp only [registration?, Option.ite_none_right_eq_some, Option.some.injEq] at h
    obtain ⟨-, rfl⟩ := h
    rfl
  | some kind =>
    cases kind with
    | full =>
      obtain ⟨t, -, rfl⟩ := Option.map_eq_some_iff.1 h
      rfl
    | incremental =>
      obtain ⟨i, -, h⟩ := Option.bind_eq_some_iff.1 h
      obtain ⟨t, -, rfl⟩ := Option.map_eq_some_iff.1 h
      rfl

end Installed

/-- Every recurring trigger of an entry has a fire time after a clock reading. -/
structure Plan.Entry.Fires (x : Plan.Entry) (now : Instant) : Prop where
  full : ∃ t, x.full.next now = .due t
  incremental : ∀ i, x.incremental = some i → ∃ t, i.next now = .due t

/-- An entry is installable with a handler if its triggers fire, the decision on a catch-up run is made, and the
catch-up run, if it is needed, lies in the calendar. -/
structure Plan.Entry.Installable (x : Plan.Entry) (h : Handler) (now : Instant) (delay : Span) : Prop
    extends x.Fires now where
  catchUp : ∃ needed, needsFullBackup? h.lastFull x.full now = some needed ∧
    (needed = true → RunOnce.target? delay now = some (now + delay))

/-! ## Lists of routines -/

section Lists

variable (now : Instant) (delay : Span)

/-- The registrations of routines by key; a later routine prevails. -/
def registered : List Installed → Key → Option Registration
  | [], _ => none
  | x :: xs, k => (registered xs k).or (if k.name = x.name then x.registration? now delay k.kind else none)

/-- The jobs that routines record: those of their recurring backups. -/
def recorded (xs : List Installed) (k : Key) : Option Detail :=
  if k.kind = none then none else (registered now delay xs k).map Registration.detail

variable {now delay}

theorem registered_append (xs ys : List Installed) (k : Key) :
    registered now delay (xs ++ ys) k = (registered now delay ys k).or (registered now delay xs k) := by
  induction xs with
  | nil => simp [registered]
  | cons x xs ih => rw [List.cons_append, registered, ih, registered, Option.or_assoc]

theorem recorded_append (xs ys : List Installed) (k : Key) :
    recorded now delay (xs ++ ys) k = (recorded now delay ys k).or (recorded now delay xs k) := by
  unfold recorded
  split
  · rfl
  · rw [registered_append, Option.map_or]

theorem registered_of_forall_ne {xs : List Installed} {k : Key} (h : ∀ x ∈ xs, x.name ≠ k.name) :
    registered now delay xs k = none := by
  induction xs with
  | nil => rfl
  | cons x xs ih =>
    rw [registered, ih fun y hy => h y (List.mem_cons_of_mem _ hy), if_neg (h x List.mem_cons_self).symm]
    rfl

/-- A registration is one of a routine. -/
theorem exists_of_registered {xs : List Installed} {k : Key} {r : Registration}
    (h : registered now delay xs k = some r) :
    ∃ x ∈ xs, k.name = x.name ∧ x.registration? now delay k.kind = some r := by
  induction xs with
  | nil => cases h
  | cons x xs ih =>
    rw [registered, Option.or_eq_some_iff] at h
    rcases h with h | ⟨-, h⟩
    · obtain ⟨y, hy, hr⟩ := ih h
      exact ⟨y, List.mem_cons_of_mem _ hy, hr⟩
    · rw [Option.ite_none_right_eq_some] at h
      exact ⟨x, List.mem_cons_self, h⟩

/-- Among routines of different names each has its own registrations. -/
theorem registered_of_mem {xs : List Installed} (hn : (xs.map Installed.name).Nodup) {x : Installed} (hx : x ∈ xs)
    (kind : Option Kind) : registered now delay xs ⟨x.name, kind⟩ = x.registration? now delay kind := by
  induction xs with
  | nil => cases hx
  | cons y ys ih =>
    obtain ⟨hy, hys⟩ := List.nodup_cons.1 hn
    rcases List.mem_cons.1 hx with rfl | hx
    · have hne : ∀ z ∈ ys, z.name ≠ x.name := fun z hz heq => hy (List.mem_map.2 ⟨z, hz, heq⟩)
      rw [registered, registered_of_forall_ne hne, if_pos rfl]
      rfl
    · have hne : x.name ≠ y.name := fun heq => hy (List.mem_map.2 ⟨x, hx, heq⟩)
      rw [registered, ih hys hx, if_neg hne, Option.or_none]

end Lists

/-! ## Handlers -/

section Made

variable {β : Type} (e : Engine β) (c : Config) (b : Std.ExtTreeMap String β)

/-- The routines whose handlers are made, with numbers from `n` on. -/
def made (n : Nat) : List Plan.Entry → List Installed
  | [] => []
  | x :: xs =>
    match e.handler c x.name b[x.name]? with
    | .error _ => made n xs
    | .ok h => ⟨x, n, h⟩ :: made (n + 1) xs

variable {e c b}

/-- A routine that is made is an entry whose handler is not refused. -/
theorem of_mem_made {n : Nat} {xs : List Plan.Entry} {x : Installed} (hx : x ∈ made e c b n xs) :
    x.entry ∈ xs ∧ e.handler c x.name b[x.name]? = .ok x.handler ∧ n ≤ x.number := by
  induction xs generalizing n with
  | nil => cases hx
  | cons y ys ih =>
    cases hy : e.handler c y.name b[y.name]? with
    | error err =>
      simp only [made, hy] at hx
      obtain ⟨hm, hh, hn⟩ := ih hx
      exact ⟨List.mem_cons_of_mem _ hm, hh, hn⟩
    | ok h =>
      simp only [made, hy] at hx
      rcases List.mem_cons.1 hx with rfl | hx
      · exact ⟨List.mem_cons_self, hy, Nat.le_refl _⟩
      · obtain ⟨hm, hh, hn⟩ := ih hx
        exact ⟨List.mem_cons_of_mem _ hm, hh, by omega⟩

/-- An entry whose handler is not refused is made. -/
theorem exists_mem_made {n : Nat} {xs : List Plan.Entry} {y : Plan.Entry} {h : Handler} (hy : y ∈ xs)
    (hh : e.handler c y.name b[y.name]? = .ok h) : ∃ k, ⟨y, k, h⟩ ∈ made e c b n xs := by
  induction xs generalizing n with
  | nil => cases hy
  | cons x xs ih =>
    rcases List.mem_cons.1 hy with rfl | hy
    · refine ⟨n, ?_⟩
      simp only [made, hh]
      exact List.mem_cons_self
    · cases hx : e.handler c x.name b[x.name]? with
      | error err => simpa only [made, hx] using ih hy
      | ok h' =>
        obtain ⟨k, hk⟩ := ih (n := n + 1) hy
        refine ⟨k, ?_⟩
        simp only [made, hx]
        exact List.mem_cons_of_mem _ hk

/-- The names of the routines that are made are among those of the entries, in their order. -/
theorem made_names_sublist (n : Nat) (xs : List Plan.Entry) :
    ((made e c b n xs).map Installed.name).Sublist (xs.map Plan.Entry.name) := by
  induction xs generalizing n with
  | nil => exact .slnil
  | cons x xs ih =>
    cases hx : e.handler c x.name b[x.name]? with
    | error err =>
      simp only [made, hx, List.map_cons]
      exact (ih n).cons _
    | ok h =>
      simp only [made, hx, List.map_cons]
      exact (ih (n + 1)).cons_cons _

/-- The numbers of handlers ascend. -/
theorem made_numbers_pairwise (n : Nat) (xs : List Plan.Entry) :
    (made e c b n xs).Pairwise (fun x y => x.number < y.number) := by
  induction xs generalizing n with
  | nil => exact .nil
  | cons x xs ih =>
    cases hx : e.handler c x.name b[x.name]? with
    | error err =>
      simp only [made, hx]
      exact ih n
    | ok h =>
      simp only [made, hx]
      exact .cons (fun y hy => Nat.lt_of_succ_le (of_mem_made hy).2.2) (ih (n + 1))

/-- No two routines share a handler. -/
theorem made_numbers_nodup (n : Nat) (xs : List Plan.Entry) : ((made e c b n xs).map Installed.number).Nodup :=
  List.pairwise_map.2 ((made_numbers_pairwise n xs).imp Nat.ne_of_lt)

end Made

end Rota
