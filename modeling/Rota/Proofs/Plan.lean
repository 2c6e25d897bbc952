import Mathlib.Data.List.Forall2
import Rota.Config.Plan

/-!
# The entries of a plan

A plan has one entry for each routine of its configuration, in the order of the names:

- an entry is what is read for the routine of its name (`mem_entries`, `exists_entry`);
- it has a trigger for incremental backups exactly if the routine has an expression for them (`entry_eq_ok`);
- no name occurs twice (`names_nodup`).
-/

namespace Rota.Plan

/-! ## Reading one routine -/

theorem read_eq_ok {name : String} {kind : Kind} {expression : String} {t : Recurring}
    (h : read name kind expression = .ok t) : Recurring.parse expression = .ok t := by
  unfold read at h
  cases hp : Recurring.parse expression with
  | error err => rw [hp] at h; cases h
  | ok t' => rw [hp] at h; cases h; rfl

/-- The triggers of the incremental backups of a routine, if it has an expression for them. -/
def Incremental (ρ : Routine) (t? : Option Recurring) : Prop :=
  match ρ.incremental? with
  | none => t? = none
  | some i => ∃ t, Recurring.parse i = .ok t ∧ t? = some t

theorem Incremental.isSome {ρ : Routine} {t? : Option Recurring} (h : Incremental ρ t?) :
    t?.isSome = ρ.incremental?.isSome := by
  unfold Incremental at h
  cases hi : ρ.incremental? with
  | none => rw [hi] at h; rw [h]; rfl
  | some i =>
    rw [hi] at h
    obtain ⟨t, -, rfl⟩ := h
    rfl

/-- An entry has the name of its routine, and the triggers of its expressions. -/
theorem entry_eq_ok {name : String} {ρ : Routine} {x : Entry} (h : entry name ρ = .ok x) :
    x.name = name ∧ Recurring.parse ρ.fullCron = .ok x.full ∧ Incremental ρ x.incremental := by
  unfold entry at h
  cases hf : read name .full ρ.fullCron with
  | error f => rw [hf] at h; cases h
  | ok full =>
    rw [hf] at h
    unfold Incremental
    cases hi : ρ.incremental? with
    | none =>
      simp only [hi, bind, Except.bind] at h
      cases h
      exact ⟨rfl, read_eq_ok hf, rfl⟩
    | some i =>
      simp only [hi, bind, Except.bind] at h
      cases hr : read name .incremental i with
      | error f => rw [hr] at h; cases h
      | ok t =>
        rw [hr] at h
        cases h
        exact ⟨rfl, read_eq_ok hf, t, read_eq_ok hr, rfl⟩

/-! ## Reading all routines -/

/-- A list that is read without a fault gives what is read for each of its members. -/
theorem forall₂_of_mapM {α β ε : Type} {f : α → Except ε β} :
    ∀ {l : List α} {ys : List β}, l.mapM f = .ok ys → List.Forall₂ (fun a b => f a = .ok b) l ys
  | [], ys, h => by
    cases h
    exact .nil
  | a :: l, ys, h => by
    rw [List.mapM_cons] at h
    cases ha : f a with
    | error e => rw [ha] at h; cases h
    | ok b =>
      cases hl : l.mapM f with
      | error e => rw [ha, hl] at h; cases h
      | ok bs =>
        rw [ha, hl] at h
        cases h
        exact .cons ha (forall₂_of_mapM hl)

section Build

variable {c : Config} {p : Plan}

/-- The entries of a plan are read from the routines in turn. -/
theorem entries_forall₂ (h : build c = .ok p) :
    List.Forall₂ (fun q x => entry q.1 q.2 = .ok x) c.routines.toList p.entries := by
  unfold build at h
  cases hm : c.routines.toList.mapM (fun q => entry q.1 q.2) with
  | error f => rw [hm] at h; cases h
  | ok es =>
    rw [hm] at h
    cases h
    exact forall₂_of_mapM hm

/-- The names of a plan are those of the routines. -/
theorem names_eq (h : build c = .ok p) : p.names = c.routines.keys := by
  have hnames : ∀ {l : List (String × Routine)} {es : List Entry},
      List.Forall₂ (fun q x => entry q.1 q.2 = .ok x) l es → es.map Entry.name = l.map Prod.fst := by
    intro l es hl
    induction hl with
    | nil => rfl
    | cons hx _ ih => rw [List.map_cons, List.map_cons, ih, (entry_eq_ok hx).1]
  rw [← Std.ExtTreeMap.map_fst_toList_eq_keys]
  exact hnames (entries_forall₂ h)

/-- No name occurs twice in a plan. -/
theorem names_nodup (h : build c = .ok p) : p.names.Nodup := by
  rw [names_eq h]
  refine (Std.ExtTreeMap.distinct_keys (t := c.routines)).imp fun hne heq => hne ?_
  rw [heq]
  exact Std.ReflCmp.compare_self

/-- An entry is what is read for the routine of its name. -/
theorem mem_entries (h : build c = .ok p) {x : Entry} (hx : x ∈ p.entries) :
    ∃ ρ, c.routines[x.name]? = some ρ ∧ entry x.name ρ = .ok x := by
  obtain ⟨i, hi, rfl⟩ := List.getElem_of_mem hx
  have hl := entries_forall₂ h
  have hi' : i < c.routines.toList.length := by rw [hl.length_eq]; exact hi
  have he := hl.get hi' hi
  simp only [List.get_eq_getElem] at he
  have hn := (entry_eq_ok he).1
  refine ⟨c.routines.toList[i].2, ?_, ?_⟩
  · rw [hn]
    exact Std.ExtTreeMap.mem_toList_iff_getElem?_eq_some.1 (List.getElem_mem hi')
  · rw [hn]
    exact he

/-- Every routine has an entry. -/
theorem exists_entry (h : build c = .ok p) {name : String} {ρ : Routine} (hρ : c.routines[name]? = some ρ) :
    ∃ x ∈ p.entries, entry name ρ = .ok x := by
  obtain ⟨i, hi, he⟩ := List.getElem_of_mem (Std.ExtTreeMap.mem_toList_iff_getElem?_eq_some.2 hρ)
  have hl := entries_forall₂ h
  have hi' : i < p.entries.length := by rw [← hl.length_eq]; exact hi
  have hx := hl.get hi hi'
  simp only [List.get_eq_getElem, he] at hx
  exact ⟨p.entries[i], List.getElem_mem hi', hx⟩

end Build

end Rota.Plan
