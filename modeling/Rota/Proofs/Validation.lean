import Mathlib.Data.List.DropRight
import Rota.Proofs.Plan

/-!
# Which configurations have a plan

A plan is built if every expression is accepted. Otherwise the first routine, in the order of the names, with a
malformed expression is at fault, and of its expressions the full one comes first (`Plan.FirstFault`).

- the blanks around an expression do not matter (`Recurring.accepts_trim_iff`), so an expression for incremental backups
  is accepted as it stands in the configuration or as it is read;
- reading a routine goes one of four ways (`Plan.entry_cases`), and reading all of them stops at the first fault
  (`Plan.build_eq_error_iff`);
- of the calls that put a configuration together the last one for a name counts (`Config.getElem?_ofCalls`);
- both together for every configuration (`Plan.buildLaw`).
-/

namespace Rota

/-! ## Blanks around an expression -/

namespace Text

variable {bs cs : List Char}

theorem words_cons_of_isBlank {c : Char} (hc : isBlank c = true) (cs : List Char) : words (c :: cs) = words cs := by
  cases cs with
  | nil => exact if_pos hc
  | cons d cs => exact if_pos hc

/-- Blanks in front of a text hold no word. -/
theorem words_blanks_append (hbs : ∀ c ∈ bs, isBlank c = true) (cs : List Char) : words (bs ++ cs) = words cs := by
  induction bs with
  | nil => rfl
  | cons b bs ih =>
    obtain ⟨hb, hbs⟩ := List.forall_mem_cons.1 hbs
    rw [List.cons_append, words_cons_of_isBlank hb, ih hbs]

/-- Blanks behind a text hold no word. -/
theorem words_append_blanks (hbs : ∀ c ∈ bs, isBlank c = true) (cs : List Char) : words (cs ++ bs) = words cs := by
  have hblanks : words bs = [] := by
    have h := words_blanks_append hbs []
    rwa [List.append_nil] at h
  fun_induction words cs with
  | case1 => exact hblanks
  | case2 c hc => rw [List.singleton_append, words_cons_of_isBlank hc, hblanks]
  | case3 c hc =>
    cases bs with
    | nil => exact if_neg hc
    | cons b bs => rw [List.singleton_append, words, if_neg hc, if_pos (hbs b List.mem_cons_self), hblanks]
  | case4 c d cs hc ih => rw [List.cons_append, words_cons_of_isBlank hc, ih]
  | case5 c d cs hc hd ih =>
    rw [List.cons_append, List.cons_append, words, if_neg hc, if_pos hd, ← ih, List.cons_append]
  | case6 c d cs hc hd ih =>
    rw [List.cons_append, List.cons_append, words, if_neg hc, if_neg hd, ← ih, List.cons_append]

theorem trim_eq (cs : List Char) : trim cs = (cs.dropWhile isBlank).rdropWhile isBlank := rfl

theorem words_trim (cs : List Char) : words (trim cs) = words cs := by
  have hfront : ∀ c ∈ cs.takeWhile isBlank, isBlank c = true := fun c => List.mem_takeWhile_imp
  have hback : ∀ c ∈ (cs.dropWhile isBlank).rtakeWhile isBlank, isBlank c = true := fun c => List.mem_rtakeWhile_imp
  calc words (trim cs) = words (trim cs ++ (cs.dropWhile isBlank).rtakeWhile isBlank) :=
        (words_append_blanks hback _).symm
    _ = words (cs.dropWhile isBlank) := by rw [trim_eq, List.rdropWhile_append_rtakeWhile]
    _ = words (cs.takeWhile isBlank ++ cs.dropWhile isBlank) := (words_blanks_append hfront _).symm
    _ = words cs := by rw [List.takeWhile_append_dropWhile]

theorem trim_trim (cs : List Char) : trim (trim cs) = trim cs := by
  have hfront : (trim cs).dropWhile isBlank = trim cs := by
    rw [List.dropWhile_eq_self_iff]
    intro hpos
    -- The first character of the trimmed text is the first one that is not blank.
    obtain ⟨r, hr⟩ := List.rdropWhile_prefix isBlank (cs.dropWhile isBlank)
    rw [← trim_eq] at hr
    have hhead := List.head?_dropWhile_not isBlank cs
    obtain ⟨c, ds, hds⟩ := List.exists_cons_of_length_pos hpos
    rw [← hr, hds, List.cons_append] at hhead
    simpa [hds] using hhead
  rw [trim_eq, hfront]
  exact List.rdropWhile_idempotent _ _

theorem trim_eq_nil_iff : trim cs = [] ↔ ∀ c ∈ cs, isBlank c = true := by
  have hself : (cs.dropWhile isBlank).dropWhile isBlank = cs.dropWhile isBlank := List.dropWhile_idempotent _ _
  rw [trim_eq, List.rdropWhile_eq_nil_iff, ← List.dropWhile_eq_nil_iff, hself, List.dropWhile_eq_nil_iff]

end Text

namespace Recurring

/-- An expression from which a trigger is made. -/
def Accepts (e : String) : Prop := ∃ t, parse e = .ok t

theorem accepts_iff_isSome {e : String} : Accepts e ↔ (Cron.Schedule.ofExpression? e).isSome = true := by
  unfold Accepts parse
  cases Cron.Schedule.ofExpression? e <;> simp

theorem not_accepts_of_error {e : String} {err : TriggerError} (h : parse e = .error err) : ¬ Accepts e := by
  rintro ⟨t, ht⟩
  cases h.symm.trans ht

/-- The blanks around an expression do not matter. -/
theorem accepts_trim_iff (e : String) : Accepts (.ofList (Text.trim e.toList)) ↔ Accepts e := by
  have hsame : Cron.normalize (Text.trim e.toList) = Cron.normalize e.toList := by
    rw [Cron.normalize, Text.words_trim, Text.trim_trim]
    rfl
  rw [accepts_iff_isSome, accepts_iff_isSome, Cron.Schedule.ofExpression?, Cron.Schedule.ofExpression?,
    String.toList_ofList, hsame]

end Recurring

open Recurring (Accepts)

/-! ## Routines -/

namespace Routine

variable {ρ : Routine}

/-- The expression for the incremental backups is blank: there are none. -/
def NoIncremental (ρ : Routine) : Prop := ∀ c ∈ ρ.incrementalCron.toList, Text.isBlank c = true

/-- The expressions of a routine are accepted. -/
def WellFormed (ρ : Routine) : Prop := Accepts ρ.fullCron ∧ (¬ ρ.NoIncremental → Accepts ρ.incrementalCron)

/-- An expression of a routine is malformed, for this reason; the full one comes first. -/
def Malformed (ρ : Routine) : Kind → TriggerError → Prop
  | .full, err => Recurring.parse ρ.fullCron = .error err
  | .incremental, err => Accepts ρ.fullCron ∧ ∃ i, ρ.incremental? = some i ∧ Recurring.parse i = .error err

theorem incremental?_eq_none_iff : ρ.incremental? = none ↔ ρ.NoIncremental := by
  rw [NoIncremental, ← Text.trim_eq_nil_iff, incremental?]
  cases Text.trim ρ.incrementalCron.toList <;> simp

/-- The expression for the incremental backups is accepted as it stands if it is as it is read. -/
theorem accepts_incremental_iff {i : String} (h : ρ.incremental? = some i) :
    Accepts i ↔ Accepts ρ.incrementalCron := by
  have htrim : i = .ofList (Text.trim ρ.incrementalCron.toList) := by
    unfold incremental? at h
    split at h
    · cases h
    · exact (Option.some.inj h).symm
  rw [htrim, Recurring.accepts_trim_iff]

theorem Malformed.not_wellFormed {kind : Kind} {err : TriggerError} (h : ρ.Malformed kind err) : ¬ ρ.WellFormed := by
  rintro ⟨hfull, hincremental⟩
  cases kind with
  | full => exact Recurring.not_accepts_of_error h hfull
  | incremental =>
    obtain ⟨-, i, hi, herr⟩ := h
    have hsome : ¬ ρ.NoIncremental := fun hnone => by
      rw [incremental?_eq_none_iff.2 hnone] at hi
      cases hi
    exact Recurring.not_accepts_of_error herr ((accepts_incremental_iff hi).2 (hincremental hsome))

/-- There is one reason. -/
theorem Malformed.unique {kind kind' : Kind} {err err' : TriggerError} (h : ρ.Malformed kind err)
    (h' : ρ.Malformed kind' err') : kind = kind' ∧ err = err' := by
  cases kind with
  | full =>
    cases kind' with
    | full => exact ⟨rfl, Except.error.inj (h.symm.trans h')⟩
    | incremental => exact absurd h'.1 (Recurring.not_accepts_of_error h)
  | incremental =>
    cases kind' with
    | full => exact absurd h.1 (Recurring.not_accepts_of_error h')
    | incremental =>
      obtain ⟨-, i, hi, herr⟩ := h
      obtain ⟨-, i', hi', herr'⟩ := h'
      obtain rfl := Option.some.inj (hi.symm.trans hi')
      exact ⟨rfl, Except.error.inj (herr.symm.trans herr')⟩

end Routine

namespace Plan

/-! ## Reading one routine -/

theorem read_of_ok {e : String} {t : Recurring} (h : Recurring.parse e = .ok t) (name : String) (kind : Kind) :
    read name kind e = .ok t := by
  rw [read, h]
  rfl

theorem read_of_error {e : String} {err : TriggerError} (h : Recurring.parse e = .error err) (name : String)
    (kind : Kind) : read name kind e = .error ⟨name, kind, err⟩ := by
  rw [read, h]
  rfl

/-- Reading a routine gives an entry, or the fault of a malformed expression. -/
theorem entry_cases (name : String) (ρ : Routine) :
    (∃ x, entry name ρ = .ok x ∧ ρ.WellFormed) ∨
      ∃ kind err, entry name ρ = .error ⟨name, kind, err⟩ ∧ ρ.Malformed kind err := by
  unfold entry
  cases hfull : Recurring.parse ρ.fullCron with
  | error err => exact .inr ⟨.full, err, by rw [read_of_error hfull]; rfl, hfull⟩
  | ok full =>
    rw [read_of_ok hfull]
    cases hi : ρ.incremental? with
    | none =>
      exact .inl ⟨_, rfl, ⟨full, hfull⟩, fun hsome => absurd (Routine.incremental?_eq_none_iff.1 hi) hsome⟩
    | some i =>
      cases hincremental : Recurring.parse i with
      | error err =>
        refine .inr ⟨.incremental, err, ?_, ⟨full, hfull⟩, i, hi, hincremental⟩
        simp only [bind, Except.bind, read_of_error hincremental]
      | ok t =>
        refine .inl ⟨⟨name, full, some t⟩, ?_, ⟨full, hfull⟩, fun _ =>
          (Routine.accepts_incremental_iff hi).1 ⟨t, hincremental⟩⟩
        simp only [bind, Except.bind, read_of_ok hincremental]

variable {name : String} {ρ : Routine} {f : Fault}

theorem exists_entry_iff : (∃ x, entry name ρ = .ok x) ↔ ρ.WellFormed := by
  rcases entry_cases name ρ with ⟨x, hx, hwell⟩ | ⟨kind, err, herr, hmal⟩
  · exact ⟨fun _ => hwell, fun _ => ⟨x, hx⟩⟩
  · exact ⟨fun ⟨x, hx⟩ => (by cases herr.symm.trans hx), fun hwell => absurd hwell hmal.not_wellFormed⟩

theorem malformed_of_entry (h : entry name ρ = .error f) : f.routine = name ∧ ρ.Malformed f.kind f.source := by
  rcases entry_cases name ρ with ⟨x, hx, -⟩ | ⟨kind, err, herr, hmal⟩
  · cases hx.symm.trans h
  · obtain rfl := Except.error.inj (herr.symm.trans h)
    exact ⟨rfl, hmal⟩

/-! ## Reading all routines -/

/-- A list is read without a fault if each of its members is. -/
theorem exists_mapM_iff {α β ε : Type} {f : α → Except ε β} {l : List α} :
    (∃ ys, l.mapM f = .ok ys) ↔ ∀ a ∈ l, ∃ b, f a = .ok b := by
  constructor
  · rintro ⟨ys, h⟩ a ha
    obtain ⟨i, hi, rfl⟩ := List.getElem_of_mem ha
    have hl := forall₂_of_mapM h
    exact ⟨_, hl.get hi (hl.length_eq ▸ hi)⟩
  · intro h
    induction l with
    | nil => exact ⟨[], rfl⟩
    | cons a l ih =>
      obtain ⟨⟨b, hb⟩, hl⟩ := List.forall_mem_cons.1 h
      obtain ⟨ys, hys⟩ := ih hl
      exact ⟨b :: ys, by rw [List.mapM_cons, hb, hys]; rfl⟩

/-- Reading a list ends with the fault of the first member that has one. -/
theorem exists_of_mapM_eq_error {α β ε : Type} {f : α → Except ε β} {l : List α} {e : ε} (h : l.mapM f = .error e) :
    ∃ as a bs, l = as ++ a :: bs ∧ (∀ x ∈ as, ∃ b, f x = .ok b) ∧ f a = .error e := by
  induction l with
  | nil => cases h
  | cons a l ih =>
    rw [List.mapM_cons] at h
    cases ha : f a with
    | error e' =>
      rw [ha] at h
      obtain rfl := Except.error.inj h
      exact ⟨[], a, l, rfl, List.forall_mem_nil _, ha⟩
    | ok b =>
      cases hl : l.mapM f with
      | ok bs => rw [ha, hl] at h; cases h
      | error e' =>
        rw [ha, hl] at h
        obtain rfl := Except.error.inj h
        obtain ⟨as, a', bs, rfl, has, ha'⟩ := ih hl
        exact ⟨a :: as, a', bs, rfl, List.forall_mem_cons.2 ⟨⟨b, ha⟩, has⟩, ha'⟩

/-- The first routine, in the order of the names, with a malformed expression is at fault. -/
structure FirstFault (c : Config) (f : Fault) : Prop where
  malformed : ∃ ρ, c.routines[f.routine]? = some ρ ∧ ρ.Malformed f.kind f.source
  first : ∀ (name : String) (ρ : Routine), name < f.routine → c.routines[name]? = some ρ → ρ.WellFormed

/-- Names are in the order of their code points. -/
theorem lt_iff_compare {a b : String} : a < b ↔ compare a b = .lt := compareOfLessAndEq_eq_lt.symm

/-- No two faults are the first one. -/
theorem FirstFault.unique {c : Config} {f g : Fault} (hf : FirstFault c f) (hg : FirstFault c g) : f = g := by
  obtain ⟨ρ, hρ, hmal⟩ := hf.malformed
  obtain ⟨σ, hσ, hmal'⟩ := hg.malformed
  cases hcompare : compare f.routine g.routine with
  | lt => exact absurd (hg.first _ ρ (lt_iff_compare.2 hcompare) hρ) hmal.not_wellFormed
  | gt =>
    have hgt : g.routine < f.routine := lt_iff_compare.2 (Std.OrientedCmp.gt_iff_lt.1 hcompare)
    exact absurd (hf.first _ σ hgt hσ) hmal'.not_wellFormed
  | eq =>
    have hroutine : f.routine = g.routine := Std.LawfulEqCmp.eq_of_compare hcompare
    rw [hroutine] at hρ
    obtain rfl := Option.some.inj (hρ.symm.trans hσ)
    obtain ⟨hkind, hsource⟩ := hmal.unique hmal'
    obtain ⟨_, _, _⟩ := f
    obtain ⟨_, _, _⟩ := g
    simp only at hroutine hkind hsource
    rw [hroutine, hkind, hsource]

section Build

variable {c : Config}

theorem exists_build_iff_mapM :
    (∃ p, build c = .ok p) ↔ ∃ ys, c.routines.toList.mapM (fun q => entry q.1 q.2) = .ok ys := by
  unfold build
  cases c.routines.toList.mapM (fun q => entry q.1 q.2) <;> simp [Except.map]

theorem build_eq_error_iff_mapM : build c = .error f ↔ c.routines.toList.mapM (fun q => entry q.1 q.2) = .error f := by
  unfold build
  cases c.routines.toList.mapM (fun q => entry q.1 q.2) <;> simp [Except.map]

/-- There is a plan if all routines are well formed. -/
theorem exists_build_iff : (∃ p, build c = .ok p) ↔
    ∀ (name : String) (ρ : Routine), c.routines[name]? = some ρ → ρ.WellFormed := by
  rw [exists_build_iff_mapM, exists_mapM_iff]
  constructor
  · intro h name ρ hρ
    exact exists_entry_iff.1 (h (name, ρ) (Std.ExtTreeMap.mem_toList_iff_getElem?_eq_some.2 hρ))
  · intro h q hq
    exact exists_entry_iff.2 (h q.1 q.2 (Std.ExtTreeMap.mem_toList_iff_getElem?_eq_some.1 hq))

theorem firstFault_of_build (h : build c = .error f) : FirstFault c f := by
  obtain ⟨as, a, bs, hsplit, has, ha⟩ := exists_of_mapM_eq_error (build_eq_error_iff_mapM.1 h)
  obtain ⟨hroutine, hmal⟩ := malformed_of_entry ha
  have hmem : ∀ q : String × Routine, q ∈ as ++ a :: bs ↔ c.routines[q.1]? = some q.2 := by
    intro q
    rw [← hsplit]
    exact Std.ExtTreeMap.mem_toList_iff_getElem?_eq_some
  have hfault : c.routines[f.routine]? = some a.2 := by
    rw [hroutine]
    exact (hmem a).1 (List.mem_append_right as List.mem_cons_self)
  refine ⟨⟨a.2, hfault, hmal⟩, fun name ρ hlt hρ => ?_⟩
  rw [hroutine] at hlt
  rcases List.mem_append.1 ((hmem (name, ρ)).2 hρ) with hin | hin
  · have hentry : ∃ x, entry name ρ = .ok x := has (name, ρ) hin
    exact exists_entry_iff.1 hentry
  · -- The names ascend, so what stands from the fault on has no lesser one.
    have hsorted := Std.ExtTreeMap.ordered_keys_toList (t := c.routines)
    rw [hsplit] at hsorted
    rw [lt_iff_compare] at hlt
    rcases List.mem_cons.1 hin with rfl | hin
    · cases hlt.symm.trans Std.ReflCmp.compare_self
    · have hgt := (List.pairwise_cons.1 (List.pairwise_append.1 hsorted).2.1).1 _ hin
      rw [← Std.OrientedCmp.gt_iff_lt, hlt] at hgt
      cases hgt

/-- Building a plan fails with the first fault. -/
theorem build_eq_error_iff : build c = .error f ↔ FirstFault c f := by
  refine ⟨firstFault_of_build, fun h => ?_⟩
  cases hbuild : build c with
  | error g => rw [(firstFault_of_build hbuild).unique h]
  | ok p =>
    obtain ⟨ρ, hρ, hmal⟩ := h.malformed
    exact absurd (exists_build_iff.1 ⟨p, hbuild⟩ _ ρ hρ) hmal.not_wellFormed

/-- The names of a plan ascend. -/
theorem names_pairwise_lt {p : Plan} (h : build c = .ok p) : p.names.Pairwise (· < ·) := by
  rw [names_eq h]
  exact (Std.ExtTreeMap.ordered_keys (t := c.routines)).imp lt_iff_compare.2

end Build

end Plan

/-! ## Putting a configuration together -/

namespace Config

/-- One call for a part of a configuration. -/
inductive Call
  | routine (name : String) (ρ : Routine)
  | policy (name : String) (p : Policy)
  | storage (name : String) (s : Storage)

def Call.name : Call → String
  | routine name _ => name
  | policy name _ => name
  | storage name _ => name

def Call.apply (c : Config) : Call → Config
  | routine name ρ => c.withRoutine name ρ
  | policy name p => c.withPolicy name p
  | storage name s => c.withStorage name s

/-- The configuration that calls put together. -/
def ofCalls (calls : List Call) : Config := calls.foldl Call.apply empty

/-- The routine that a call gives a name, if it is one for a routine of that name. -/
def Call.routine? (name : String) : Call → Option Routine
  | routine n ρ => if n = name then some ρ else none
  | _ => none

/-- The routine that the last call for a name gives it. -/
def lastRoutine? (name : String) (calls : List Call) : Option Routine := calls.reverse.findSome? (Call.routine? name)

variable {calls calls' : List Call}

/-- A configuration has the routines of the last calls. -/
theorem getElem?_ofCalls (calls : List Call) (name : String) :
    (ofCalls calls).routines[name]? = lastRoutine? name calls := by
  induction calls using List.reverseRecOn with
  | nil => exact Std.ExtTreeMap.getElem?_empty
  | append_singleton calls call ih =>
    rw [ofCalls, List.foldl_append, List.foldl_cons, List.foldl_nil, ← ofCalls, lastRoutine?, List.reverse_append,
      List.reverse_singleton, List.singleton_append, List.findSome?_cons, ← lastRoutine?, ← ih]
    cases call with
    | routine n ρ =>
      simp only [Call.apply, withRoutine, Std.ExtTreeMap.getElem?_insert, Std.LawfulEqCmp.compare_eq_iff_eq,
        Call.routine?]
      by_cases hn : n = name <;> simp [hn]
    | policy n p => rfl
    | storage n s => rfl

/-- The routines are the same if the last calls are. -/
theorem routines_ofCalls_congr (h : ∀ name, lastRoutine? name calls = lastRoutine? name calls') :
    (ofCalls calls).routines = (ofCalls calls').routines := by
  refine Std.ExtTreeMap.ext_getElem? fun name => ?_
  rw [getElem?_ofCalls, getElem?_ofCalls, h]

/-- The order of two calls for different names does not matter for the last ones. -/
theorem lastRoutine?_swap {x y : Call} (h : x.name ≠ y.name) (as bs : List Call) (name : String) :
    lastRoutine? name (as ++ x :: y :: bs) = lastRoutine? name (as ++ y :: x :: bs) := by
  have hone : x.routine? name = none ∨ y.routine? name = none := by
    cases x with
    | routine n ρ =>
      cases y with
      | routine m σ =>
        by_cases hn : n = name
        · exact .inr (if_neg fun hm => h (hn.trans hm.symm))
        · exact .inl (if_neg hn)
      | policy m p => exact .inr rfl
      | storage m s => exact .inr rfl
    | policy n p => exact .inl rfl
    | storage n s => exact .inl rfl
  simp only [lastRoutine?, List.reverse_append, List.reverse_cons, List.append_assoc, List.findSome?_append,
    List.findSome?_cons, List.findSome?_nil]
  rcases hone with hx | hy
  · simp [hx]
  · simp [hy]

end Config

/-! ## The law -/

namespace Plan

open Config (Call ofCalls lastRoutine?)

/-- When a plan is built from a configuration that calls put together, and what it holds. -/
structure BuildLaw (calls : List Call) : Prop where
  /-- There is a plan if the full expression of every routine is accepted, and the incremental one unless it is blank.
  -/
  exists_iff : (∃ p, build (ofCalls calls) = .ok p) ↔
    ∀ (name : String) (ρ : Routine), (ofCalls calls).routines[name]? = some ρ → ρ.WellFormed
  /-- The entries of a plan are in the order of the names, one for each routine, with the triggers of its expressions.
  -/
  entries : ∀ p, build (ofCalls calls) = .ok p → p.names.Pairwise (· < ·) ∧
    (∀ name, name ∈ p.names ↔ name ∈ (ofCalls calls).routines) ∧
    ∀ x ∈ p.entries, ∃ ρ, (ofCalls calls).routines[x.name]? = some ρ ∧ Recurring.parse ρ.fullCron = .ok x.full ∧
      Incremental ρ x.incremental
  /-- Otherwise there is a first fault, and it is the one that is told. -/
  fault_iff : ∀ f, build (ofCalls calls) = .error f ↔ FirstFault (ofCalls calls) f
  /-- The routine of a name is the one of the last call for it. -/
  last : ∀ name, (ofCalls calls).routines[name]? = lastRoutine? name calls
  /-- Of the calls only the last one for each name counts. -/
  congr : ∀ calls', (∀ name, lastRoutine? name calls' = lastRoutine? name calls) →
    build (ofCalls calls') = build (ofCalls calls)
  /-- The order of calls for different names does not count. -/
  swap : ∀ as x y bs, calls = as ++ x :: y :: bs → x.name ≠ y.name →
    build (ofCalls (as ++ y :: x :: bs)) = build (ofCalls calls)

theorem build_congr {c c' : Config} (h : c.routines = c'.routines) : build c = build c' := by
  rw [build, build, h]

/-- Any calls obey the law. -/
theorem buildLaw (calls : List Call) : BuildLaw calls where
  exists_iff := exists_build_iff
  entries p hp := by
    refine ⟨names_pairwise_lt hp, fun name => ?_, fun x hx => ?_⟩
    · rw [names_eq hp, Std.ExtTreeMap.mem_keys]
    · obtain ⟨ρ, hρ, hentry⟩ := mem_entries hp hx
      obtain ⟨-, hfull, hincremental⟩ := entry_eq_ok hentry
      exact ⟨ρ, hρ, hfull, hincremental⟩
  fault_iff f := build_eq_error_iff
  last := Config.getElem?_ofCalls calls
  congr calls' h := build_congr (Config.routines_ofCalls_congr h)
  swap as x y bs hcalls hne := by
    subst hcalls
    exact build_congr (Config.routines_ofCalls_congr fun name => Config.lastRoutine?_swap hne.symm as bs name)

-- Both routines have a malformed expression; the one of the first name is told, without the blank in front of it.
example : build (ofCalls [.routine "b" { fullCron := "never" },
    .routine "a" { fullCron := "@daily", incrementalCron := " often" }]) =
      .error ⟨"a", .incremental, .invalidCron "often" Recurring.malformed⟩ := by
  decide +kernel

end Plan

end Rota
