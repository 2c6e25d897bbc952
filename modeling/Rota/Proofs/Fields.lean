import Rota.Proofs.Edits

/-!
# Records and edits

A record is read field by field. An edit of a record moves the value of a field at most in a way that the reader of the
field respects (`Json.fields?_of_step`), whether the record is written as an object or as an array.

- the value of a field is the one member with its name (`Json.given?`), and an edit moves it or leaves it where it is
  (`Json.given?_of_step`);
- to put members in another order is an edit of a record (`Json.Reorders.step`).
-/

namespace Rota

namespace Json

/-! ## Records -/

/-- What an edit may do to the value of a field, given or not: it stays, it is edited itself, or it is left out. -/
inductive Moves (R : Json → Json → Prop) (isDefault : Json → Prop) : Option Json → Option Json → Prop
  | stays (x : Option Json) : Moves R isDefault x x
  | edited {v v' : Json} : R v v' → Moves R isDefault (some v) (some v')
  | dropped {v : Json} : isDefault v → Moves R isDefault (some v) none

/-- A field is read after an edit as before, if its reader respects what is done to its value. -/
theorem orDefault_of_moves {α : Type} {R : Json → Json → Prop} {isDefault : Json → Prop} {f : Json → Option α} {d a : α}
    (hf : Respects R f) (hdefault : ∀ v, isDefault v → f v = some d) {x x' : Option Json}
    (h : Moves R isDefault x x') (ha : orDefault d f x = some a) : orDefault d f x' = some a := by
  cases h with
  | stays => exact ha
  | edited hv => exact hf hv a ha
  | dropped hv => exact (hdefault _ hv).symm.trans ha

/-- An edit of a record, if the values of its fields are edited by `R`. -/
inductive Step (names : List String) (isDefault : String → Json → Prop) (R : String → Json → Json → Prop) :
    Json → Json → Prop
  | reorder {ms ms' : List (Option String × Json)} : ms.Perm ms' →
      Step names isDefault R (.object ms) (.object ms')
  | retouch {v v' : Json} : Retouches names isDefault v v' → Step names isDefault R v v'
  | member {as bs : List (Option String × Json)} {n : Option String} {v v' : Json} :
      (∀ name, n = some name → R name v v') →
        Step names isDefault R (.object (as ++ (n, v) :: bs)) (.object (as ++ (n, v') :: bs))
  | item {as bs : List Json} {v v' : Json} : (∀ name, names[as.length]? = some name → R name v v') →
      Step names isDefault R (.array (as ++ v :: bs)) (.array (as ++ v' :: bs))

section Records

variable {names : List String} {isDefault : String → Json → Prop} {R : String → Json → Json → Prop}
  {ms ms' : List (Option String × Json)} {name : String}

/-- The value of the one member with a name, if there is none or one. -/
def given? (ms : List (Option String × Json)) (name : String) : Option (Option Json) :=
  match ms.filter fun m => m.1 == some name with
  | [] => some none
  | [(_, v)] => some (some v)
  | _ => none

theorem knownMembers?_eq_some_iff {vs : List (Option Json)} : knownMembers? names ms = some vs ↔
    (∀ m ∈ ms, m.1.isSome = true) ∧ names.mapM (given? ms) = some vs := by
  rw [knownMembers?, Option.ite_none_right_eq_some, List.all_eq_true]
  rfl

theorem filter_cons_self (as bs : List (Option String × Json)) (name : String) (v : Json) :
    (as ++ (some name, v) :: bs).filter (fun m => m.1 == some name) =
      as.filter (fun m => m.1 == some name) ++ (some name, v) :: bs.filter (fun m => m.1 == some name) := by
  rw [List.filter_append, List.filter_cons_of_pos (by simp)]

/-- A member counts for its own name only. -/
theorem given?_of_ne {n : Option String} (h : n ≠ some name) (as bs : List (Option String × Json)) (v : Json) :
    given? (as ++ (n, v) :: bs) name = given? (as ++ bs) name := by
  rw [given?, given?, List.filter_append, List.filter_append, List.filter_cons_of_neg (by simpa using h)]

/-- The value of a member is the one given for its name, and without it none is. -/
theorem given?_self {as bs : List (Option String × Json)} {v : Json} {x : Option Json}
    (h : given? (as ++ (some name, v) :: bs) name = some x) :
    x = some v ∧ (∀ w, given? (as ++ (some name, w) :: bs) name = some (some w)) ∧
      given? (as ++ bs) name = some none := by
  have halone : as.filter (fun m => m.1 == some name) = [] ∧ bs.filter (fun m => m.1 == some name) = [] := by
    rw [given?, filter_cons_self] at h
    split at h
    next heq => simp at heq
    next heq =>
      have hlength := congrArg List.length heq
      simp only [List.length_append, List.length_cons, List.length_nil] at hlength
      exact ⟨List.eq_nil_of_length_eq_zero (by omega), List.eq_nil_of_length_eq_zero (by omega)⟩
    next => cases h
  have hself : ∀ w, given? (as ++ (some name, w) :: bs) name = some (some w) := fun w => by
    rw [given?, filter_cons_self, halone.1, halone.2]
    rfl
  refine ⟨Option.some.inj (h.symm.trans (hself v)), hself, ?_⟩
  rw [given?, List.filter_append, halone.1, halone.2]
  rfl

theorem given?_perm (h : ms.Perm ms') (name : String) : given? ms name = given? ms' name := by
  have hperm := h.filter fun m => m.1 == some name
  unfold given?
  cases hms : ms.filter fun m => m.1 == some name with
  | nil => rw [hms] at hperm; rw [List.nil_perm.1 hperm]
  | cons m l =>
    cases l with
    | nil => rw [hms] at hperm; rw [List.singleton_perm.1 hperm]
    | cons m' l =>
      rw [hms] at hperm
      have hlength := hperm.length_eq
      cases hms' : ms'.filter fun m => m.1 == some name with
      | nil => rw [hms'] at hlength; cases hlength
      | cons k l' =>
        cases l' with
        | nil => rw [hms'] at hlength; cases hlength
        | cons k' l' => rfl

/-- What an edit of an object does to the value of a field. -/
theorem given?_of_step (h : Step names isDefault R (.object ms) (.object ms')) (hname : name ∈ names) {x : Option Json}
    (hx : given? ms name = some x) :
    ∃ x', given? ms' name = some x' ∧ Moves (R name) (isDefault name) x x' := by
  generalize hv : Json.object ms = v at h
  generalize hv' : Json.object ms' = v' at h
  cases h with
  | reorder hperm =>
    cases hv
    cases hv'
    exact ⟨x, given?_perm hperm name ▸ hx, .stays x⟩
  | retouch hretouch =>
    cases hretouch with
    | @add as bs n w hn =>
      cases hv
      cases hv'
      have hne : some n ≠ some name := fun heq => hn (Option.some.inj heq ▸ hname)
      exact ⟨x, (given?_of_ne hne as bs w).trans hx, .stays x⟩
    | @drop as bs n w hw =>
      cases hv
      cases hv'
      by_cases heq : n = name
      · subst heq
        obtain ⟨rfl, -, hnone⟩ := given?_self hx
        exact ⟨none, hnone, .dropped hw⟩
      · exact ⟨x, (given?_of_ne (fun h => heq (Option.some.inj h)) as bs w).symm.trans hx, .stays x⟩
  | @member as bs n w w' hw =>
    cases hv
    cases hv'
    by_cases heq : n = some name
    · subst heq
      obtain ⟨rfl, hself, -⟩ := given?_self hx
      exact ⟨some w', hself w', .edited (hw name rfl)⟩
    · rw [given?_of_ne heq] at hx
      exact ⟨x, (given?_of_ne heq as bs w').trans hx, .stays x⟩
  | item _ => cases hv

theorem isSome_of_step (h : Step names isDefault R (.object ms) (.object ms')) (hall : ∀ m ∈ ms, m.1.isSome = true) :
    ∀ m ∈ ms', m.1.isSome = true := by
  generalize hv : Json.object ms = v at h
  generalize hv' : Json.object ms' = v' at h
  cases h with
  | reorder hperm =>
    cases hv
    cases hv'
    exact fun m hm => hall m (hperm.mem_iff.2 hm)
  | retouch hretouch =>
    cases hretouch with
    | add _ =>
      cases hv
      cases hv'
      simp only [List.forall_mem_append, List.forall_mem_cons] at hall ⊢
      exact ⟨hall.1, rfl, hall.2⟩
    | drop _ =>
      cases hv
      cases hv'
      simp only [List.forall_mem_append, List.forall_mem_cons] at hall ⊢
      exact ⟨hall.1, hall.2.2⟩
  | member _ =>
    cases hv
    cases hv'
    simpa only [List.forall_mem_append, List.forall_mem_cons] using hall
  | item _ => cases hv

/-- An edit of an object moves the values of all known fields. -/
theorem mapM_of_step (h : Step names isDefault R (.object ms) (.object ms')) {known : List String}
    (hknown : ∀ name ∈ known, name ∈ names) {vs : List (Option Json)} (hvs : known.mapM (given? ms) = some vs) :
    ∃ vs', known.mapM (given? ms') = some vs' ∧
      List.Forall₂ (fun p x' => Moves (R p.1) (isDefault p.1) p.2 x') (known.zip vs) vs' := by
  induction known generalizing vs with
  | nil =>
    obtain rfl := Option.some.inj hvs
    exact ⟨[], rfl, .nil⟩
  | cons name known ih =>
    rw [List.mapM_cons] at hvs
    obtain ⟨x, hx, hvs⟩ := Option.bind_eq_some_iff.1 hvs
    obtain ⟨xs, hxs, hvs⟩ := Option.bind_eq_some_iff.1 hvs
    obtain rfl := Option.some.inj hvs
    obtain ⟨hname, hknown⟩ := List.forall_mem_cons.1 hknown
    obtain ⟨x', hx', hmove⟩ := given?_of_step h hname hx
    obtain ⟨xs', hxs', hmoves⟩ := ih hknown hxs
    refine ⟨x' :: xs', ?_, .cons hmove hmoves⟩
    rw [List.mapM_cons, hx', hxs']
    rfl

theorem moves_self {xs : List (Option Json)} (hlength : xs.length = names.length) :
    List.Forall₂ (fun p x' => Moves (R p.1) (isDefault p.1) p.2 x') (names.zip xs) xs := by
  induction names generalizing xs with
  | nil =>
    obtain rfl := List.eq_nil_of_length_eq_zero hlength
    exact .nil
  | cons name names ih =>
    cases xs with
    | nil => cases hlength
    | cons x xs => exact .cons (.stays x) (ih (Nat.succ.inj hlength))

/-- An edit of one item of an array moves the value of the field at its place. -/
theorem moves_of_item {as bs : List (Option Json)} {x x' : Option Json}
    (hlength : (as ++ x :: bs).length = names.length)
    (hmove : ∀ name, names[as.length]? = some name → Moves (R name) (isDefault name) x x') :
    List.Forall₂ (fun p x' => Moves (R p.1) (isDefault p.1) p.2 x') (names.zip (as ++ x :: bs)) (as ++ x' :: bs) := by
  induction as generalizing names with
  | nil =>
    cases names with
    | nil => cases hlength
    | cons name names => exact .cons (hmove name rfl) (moves_self (Nat.succ.inj hlength))
  | cons a as ih =>
    cases names with
    | nil => cases hlength
    | cons name names =>
      exact .cons (.stays a) (ih (Nat.succ.inj hlength) fun n hn => hmove n (by rwa [List.length_cons,
        List.getElem?_cons_succ]))

/-- What an edit of a record does to the values of its fields. -/
theorem fields?_of_step {v v' : Json} (h : Step names isDefault R v v') {vs : List (Option Json)}
    (hvs : fields? false names v = some vs) :
    ∃ vs', fields? false names v' = some vs' ∧
      List.Forall₂ (fun p x' => Moves (R p.1) (isDefault p.1) p.2 x') (names.zip vs) vs' := by
  have hobject : ∀ {ms ms'}, Step names isDefault R (.object ms) (.object ms') → knownMembers? names ms = some vs →
      ∃ vs', knownMembers? names ms' = some vs' ∧
        List.Forall₂ (fun p x' => Moves (R p.1) (isDefault p.1) p.2 x') (names.zip vs) vs' := by
    intro ms ms' h hvs
    obtain ⟨hall, hvs⟩ := knownMembers?_eq_some_iff.1 hvs
    obtain ⟨vs', hvs', hmoves⟩ := mapM_of_step h (fun _ hname => hname) hvs
    exact ⟨vs', knownMembers?_eq_some_iff.2 ⟨isSome_of_step h hall, hvs'⟩, hmoves⟩
  have hstep := h
  cases h with
  | reorder _ => exact hobject hstep hvs
  | retouch hretouch => cases hretouch <;> exact hobject hstep hvs
  | member _ => exact hobject hstep hvs
  | @item as bs w w' hw =>
    obtain ⟨hle, hvs⟩ := Option.ite_none_left_eq_some.1 hvs
    obtain rfl := Option.some.inj hvs
    refine ⟨_, by rw [fields?, if_neg (by simpa using hle)], ?_⟩
    simp only [List.length_append, List.length_cons, List.map_append, List.map_cons, List.append_assoc,
      List.cons_append] at hle ⊢
    refine moves_of_item ?_ fun name hname => .edited (hw name (by rwa [List.length_map] at hname))
    simp only [List.length_append, List.length_map, List.length_cons, List.length_replicate]
    omega

theorem fields?_singleton (names : List String) (n : String) (v : Json) :
    fields? false names (.object [(some n, v)]) = some (names.map fun name => if n = name then some v else none) := by
  have hgiven : ∀ name, given? [(some n, v)] name = some (if n = name then some v else none) := fun name => by
    by_cases h : n = name
    · simp [given?, h]
    · simp [given?, h]
  refine knownMembers?_eq_some_iff.2 ⟨by simp, mapM_eq_some_iff.2 ⟨fun name _ => by simp [hgiven], ?_⟩⟩
  simp [funext hgiven]

theorem Distinct.nodup {v : Json} (h : v.Distinct) : v.names.Nodup := by
  cases h with
  | object hnodup _ => exact hnodup
  | _ => exact List.nodup_nil

/-- The value given for a name is that of a member. -/
theorem mem_of_given? {v : Json} (h : given? ms name = some (some v)) : (some name, v) ∈ ms := by
  unfold given? at h
  split at h
  next => cases Option.some.inj h
  next n w heq =>
    cases h
    obtain ⟨hmem, hname⟩ := List.mem_filter.1 (heq ▸ List.mem_singleton_self (n, v) : (n, v) ∈ ms.filter _)
    rwa [← eq_of_beq hname]
  next => cases h

/-- The values of the fields of a record stand in it, so they repeat no name either. -/
theorem Distinct.of_mem_fields? {v : Json} (h : v.Distinct) {vs : List (Option Json)}
    (hvs : fields? false names v = some vs) {w : Json} (hw : some w ∈ vs) : w.Distinct := by
  cases h with
  | object _ hall =>
    obtain ⟨-, rfl⟩ := mapM_eq_some_iff.1 (knownMembers?_eq_some_iff.1 hvs).2
    obtain ⟨name, -, hgiven⟩ := List.mem_filterMap.1 hw
    exact hall _ (mem_of_given? hgiven)
  | array hall =>
    obtain ⟨-, hvs⟩ := Option.ite_none_left_eq_some.1 hvs
    obtain rfl := Option.some.inj hvs
    simp only [List.mem_append, List.mem_map, Option.some.injEq, exists_eq_right, List.mem_replicate, reduceCtorEq,
      and_false, or_false] at hw
    exact hall w hw
  | _ => cases hvs

/-- To put members in another order is an edit of a record, and of the values of its fields. -/
theorem Reorders.step {v v' : Json} (h : Reorders v v') : Step names isDefault (fun _ => Reorders) v v' := by
  cases h with
  | members hperm => exact .reorder hperm
  | inside hv => exact .member fun _ _ => hv
  | item hv => exact .item fun _ _ => hv

end Records

end Json

end Rota
