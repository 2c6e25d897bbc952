import Mathlib.Data.List.Forall2
import Mathlib.Data.List.Nodup
import Rota.Config.Codec
import Rota.Proofs.Written

/-!
# Readers and edits

An edit puts the members of an object in another order, puts one in that nobody knows, or leaves one out that says what
would be read without it. A reader `Respects` an edit if it reads the same from a value as from the edited one.

- leaves and lists respect that members are put in another order (`Json.respects_of_leaf`, `Json.Respects.list`);
- so do maps without repeated names (`Json.Respects.distinctMap`), which also respect what the reader of their entries
  does (`Json.Respects.inEntry`).

Maps are read here by a reader that refuses repeated names, which edits do not bring about.
-/

namespace Rota

namespace Json

/-! ## Edits -/

/-- The members of one object, at any depth, are put in another order. -/
inductive Reorders : Json → Json → Prop
  | members {ms ms' : List (Option String × Json)} : ms.Perm ms' → Reorders (.object ms) (.object ms')
  | inside {as bs : List (Option String × Json)} {n : Option String} {v v' : Json} : Reorders v v' →
      Reorders (.object (as ++ (n, v) :: bs)) (.object (as ++ (n, v') :: bs))
  | item {as bs : List Json} {v v' : Json} : Reorders v v' → Reorders (.array (as ++ v :: bs)) (.array (as ++ v' :: bs))

/-- The value of a member is its default: alone it gives the record of which all values are. -/
def IsDefault {α : Type} (read : Json → Option α) (default : α) (n : String) (v : Json) : Prop :=
  read (.object [(some n, v)]) = some default

/-- A member with a name that a record does not know is put into it, or one with its default value is left out. -/
inductive Retouches (names : List String) (isDefault : String → Json → Prop) : Json → Json → Prop
  | add {as bs : List (Option String × Json)} {n : String} {v : Json} : n ∉ names →
      Retouches names isDefault (.object (as ++ bs)) (.object (as ++ (some n, v) :: bs))
  | drop {as bs : List (Option String × Json)} {n : String} {v : Json} : isDefault n v →
      Retouches names isDefault (.object (as ++ (some n, v) :: bs)) (.object (as ++ bs))

/-- One entry of a map is edited. -/
inductive InEntry (R : Json → Json → Prop) : Json → Json → Prop
  | mk {as bs : List (Option String × Json)} {n : Option String} {v v' : Json} : R v v' →
      InEntry R (.object (as ++ (n, v) :: bs)) (.object (as ++ (n, v') :: bs))

/-- One field of a record is edited, whether the record is an object or an array. -/
inductive InField (names : List String) (field : String) (R : Json → Json → Prop) : Json → Json → Prop
  | member {as bs : List (Option String × Json)} {v v' : Json} : R v v' →
      InField names field R (.object (as ++ (some field, v) :: bs)) (.object (as ++ (some field, v') :: bs))
  | item {as bs : List Json} {v v' : Json} : names[as.length]? = some field → R v v' →
      InField names field R (.array (as ++ v :: bs)) (.array (as ++ v' :: bs))

/-- The names of the members of an object. -/
def names : Json → List String
  | .object ms => ms.filterMap Prod.fst
  | _ => []

/-- No object repeats a name. -/
inductive Distinct : Json → Prop
  | null : Distinct .null
  | bool (b : Bool) : Distinct (.bool b)
  | number (ds : List Char) : Distinct (.number ds)
  | string (s : Option String) : Distinct (.string s)
  | array {xs : List Json} : (∀ x ∈ xs, Distinct x) → Distinct (.array xs)
  | object {ms : List (Option String × Json)} : (names (.object ms)).Nodup → (∀ m ∈ ms, Distinct m.2) →
      Distinct (.object ms)

/-! ## Readers that respect an edit -/

/-- What is read from a value is read from the edited one. -/
def Respects {α : Type} (R : Json → Json → Prop) (f : Json → Option α) : Prop :=
  ∀ ⦃v v' : Json⦄, R v v' → ∀ a, f v = some a → f v' = some a

section Readers

variable {α β : Type} {R : Json → Json → Prop} {f : Json → Option α}

/-- A reader of leaves reads nothing that can be put in another order. -/
theorem respects_of_leaf (hobject : ∀ ms, f (.object ms) = none) (harray : ∀ xs, f (.array xs) = none) :
    Respects Reorders f := by
  intro v v' h a ha
  cases h with
  | members _ => rw [hobject] at ha; cases ha
  | inside _ => rw [hobject] at ha; cases ha
  | item _ => rw [harray] at ha; cases ha

theorem respects_text : Respects Reorders asText? := respects_of_leaf (fun _ => rfl) fun _ => rfl

theorem respects_bool : Respects Reorders asBool? := respects_of_leaf (fun _ => rfl) fun _ => rfl

theorem respects_word32 : Respects Reorders asWord32? := respects_of_leaf (fun _ => rfl) fun _ => rfl

theorem respects_word64 : Respects Reorders asWord64? := respects_of_leaf (fun _ => rfl) fun _ => rfl

theorem Respects.option (hf : Respects Reorders f) : Respects Reorders (asOption? f) := by
  intro v v' h a ha
  have hread : (f v).map some = some a → (f v').map some = some a := by
    rw [Option.map_eq_some_iff, Option.map_eq_some_iff]
    exact fun ⟨b, hb, heq⟩ => ⟨b, hf h b hb, heq⟩
  cases h <;> exact hread ha

/-- A word is read from a text, or from an object whose only member has no other order. -/
theorem respects_word (words : List (String × α)) : Respects Reorders (asWord? words) := by
  intro v v' h a ha
  have hsingle : ∀ {ms}, asWord? words (.object ms) = some a → ∃ s, ms = [(some s, .null)] := by
    intro ms hms
    unfold asWord? at hms
    split at hms
    next heq => cases heq
    next s heq => exact ⟨s, by cases heq; rfl⟩
    next => cases hms
  cases h with
  | members hperm =>
    obtain ⟨s, rfl⟩ := hsingle ha
    rwa [← List.singleton_perm.1 hperm]
  | @inside as bs n v v' hv =>
    obtain ⟨s, heq⟩ := hsingle ha
    -- Nothing is inside of null.
    have hmem : (n, v) ∈ [(some s, Json.null)] := heq ▸ List.mem_append_right as List.mem_cons_self
    obtain ⟨-, rfl⟩ := Prod.mk.inj (List.mem_singleton.1 hmem)
    cases hv
  | item _ => cases ha

/-- A list is read if each of its items is. -/
theorem mapM_eq_some_iff {g : α → Option β} {l : List α} {ys : List β} :
    l.mapM g = some ys ↔ (∀ a ∈ l, (g a).isSome = true) ∧ ys = l.filterMap g := by
  induction l generalizing ys with
  | nil =>
    rw [List.mapM_nil]
    exact ⟨fun h => ⟨List.forall_mem_nil _, (Option.some.inj h).symm⟩, fun h => congrArg some h.2.symm⟩
  | cons a l ih =>
    rw [List.mapM_cons, List.forall_mem_cons, List.filterMap_cons]
    cases ha : g a with
    | none => simp
    | some b =>
      cases hl : l.mapM g with
      | none =>
        have hnot : ¬ ∀ a ∈ l, (g a).isSome = true := fun hall => by
          cases hl.symm.trans (ih.2 ⟨hall, rfl⟩)
        simp [hnot]
      | some bs =>
        obtain ⟨hall, rfl⟩ := ih.1 hl
        simpa using ⟨fun h => ⟨hall, h.symm⟩, fun h => h.2.symm⟩

/-- Another item from which the same is read may stand in a list. -/
theorem mapM_replace {g : α → Option β} {x x' : α} (h : ∀ b, g x = some b → g x' = some b) {as bs : List α}
    {ys : List β} (hys : (as ++ x :: bs).mapM g = some ys) : (as ++ x' :: bs).mapM g = some ys := by
  obtain ⟨hall, rfl⟩ := mapM_eq_some_iff.1 hys
  simp only [List.forall_mem_append, List.forall_mem_cons] at hall
  obtain ⟨has, hx, hbs⟩ := hall
  obtain ⟨b, hb⟩ := Option.isSome_iff_exists.1 hx
  refine mapM_eq_some_iff.2 ⟨?_, ?_⟩
  · simp only [List.forall_mem_append, List.forall_mem_cons]
    exact ⟨has, by rw [h b hb]; rfl, hbs⟩
  · rw [List.filterMap_append, List.filterMap_append, List.filterMap_cons_some hb, List.filterMap_cons_some (h b hb)]

theorem Respects.list (hf : Respects Reorders f) : Respects Reorders (asList? f) := by
  intro v v' h a ha
  cases h with
  | members _ => cases ha
  | inside _ => cases ha
  | item hv => exact mapM_replace (hf hv) ha

/-! ## Maps -/

/-- The entry that is read from a member of a map. -/
def pair? (f : Json → Option α) (m : Option String × Json) : Option (String × α) := do
  some (← m.1, ← f m.2)

/-- The map with one more member. -/
def addMember? (f : Json → Option α) (acc : Option (Std.ExtTreeMap String α)) (m : Option String × Json) :
    Option (Std.ExtTreeMap String α) := do
  some ((← acc).insert (← m.1) (← f m.2))

theorem asMap?_object (f : Json → Option α) (ms : List (Option String × Json)) :
    asMap? f (.object ms) = (ms.mapM (pair? f)).map fun es => .ofList es := by
  have hnone : ∀ ms : List (Option String × Json), ms.foldl (addMember? f) none = none := by
    intro ms
    induction ms with
    | nil => rfl
    | cons m ms ih => exact ih
  have hfold : ∀ (ms : List (Option String × Json)) (acc : Std.ExtTreeMap String α),
      ms.foldl (addMember? f) (some acc) =
        (ms.mapM (pair? f)).map fun es => es.foldl (fun acc p => acc.insert p.1 p.2) acc := by
    intro ms
    induction ms with
    | nil => exact fun _ => rfl
    | cons m ms ih =>
      intro acc
      have hmember : addMember? f (some acc) m = (pair? f m).map fun p => acc.insert p.1 p.2 := by
        rw [addMember?, pair?]
        cases m.1 <;> cases f m.2 <;> rfl
      rw [List.foldl_cons, List.mapM_cons, hmember]
      cases pair? f m with
      | none => exact hnone ms
      | some p =>
        refine (ih (acc.insert p.1 p.2)).trans ?_
        cases ms.mapM (pair? f) <;> rfl
  have hread : asMap? f (.object ms) = ms.foldl (addMember? f) (some ∅) := rfl
  rw [hread, hfold]
  refine congrArg (fun g => (ms.mapM (pair? f)).map g) (funext fun es => ?_)
  rw [Std.ExtTreeMap.ofList_eq_insertMany_empty, Std.ExtTreeMap.insertMany_list_eq_foldl]

/-- A map without repeated names. -/
def asDistinctMap? (f : Json → Option α) (v : Json) : Option (Std.ExtTreeMap String α) :=
  if v.names.Nodup then asMap? f v else none

theorem asDistinctMap?_eq_some_iff {v : Json} {m : Std.ExtTreeMap String α} :
    asDistinctMap? f v = some m ↔ v.names.Nodup ∧ asMap? f v = some m := by
  rw [asDistinctMap?, Option.ite_none_right_eq_some]

/-- The names of the entries are those of the members. -/
theorem map_fst_filterMap_pair? {ms : List (Option String × Json)} (h : ∀ m ∈ ms, (pair? f m).isSome = true) :
    (ms.filterMap (pair? f)).map Prod.fst = names (.object ms) := by
  rw [List.map_filterMap, names]
  refine List.filterMap_congr fun m hm => ?_
  obtain ⟨e, he⟩ := Option.isSome_iff_exists.1 (h m hm)
  rw [he]
  obtain ⟨n, hn, he⟩ := Option.bind_eq_some_iff.1 he
  obtain ⟨a, -, he⟩ := Option.bind_eq_some_iff.1 he
  obtain rfl := Option.some.inj he
  exact hn.symm

/-- What a map holds, if no name occurs twice. -/
theorem getElem?_ofList_iff {es : List (String × α)} (h : (es.map Prod.fst).Nodup) {k : String} {a : α} :
    (Std.ExtTreeMap.ofList es)[k]? = some a ↔ (k, a) ∈ es := by
  have hpairs : es.Pairwise fun p q => ¬ compare p.1 q.1 = .eq := by
    refine (List.pairwise_map.1 h).imp fun hne heq => hne ?_
    exact Std.LawfulEqCmp.eq_of_compare heq
  have hmem : ∀ {b}, (k, b) ∈ es → (Std.ExtTreeMap.ofList es)[k]? = some b := fun hb =>
    Std.ExtTreeMap.getElem?_ofList_of_mem Std.ReflCmp.compare_self hpairs hb
  refine ⟨fun hget => ?_, hmem⟩
  by_cases hk : k ∈ es.map Prod.fst
  · obtain ⟨⟨k', b⟩, hb, rfl⟩ := List.mem_map.1 hk
    rw [hmem hb] at hget
    exact Option.some.inj hget ▸ hb
  · rw [Std.ExtTreeMap.getElem?_ofList_of_contains_eq_false] at hget
    · cases hget
    · rwa [Bool.eq_false_iff, Ne, List.contains_iff_mem]

/-- The entries of a map may come in any order. -/
theorem ofList_perm {es es' : List (String × α)} (h : es.Perm es') (hnodup : (es.map Prod.fst).Nodup) :
    Std.ExtTreeMap.ofList es = Std.ExtTreeMap.ofList es' := by
  refine Std.ExtTreeMap.ext_getElem? fun k => Option.ext fun a => ?_
  rw [getElem?_ofList_iff hnodup, getElem?_ofList_iff ((h.map _).nodup_iff.1 hnodup), h.mem_iff]

/-- The names are the same whatever the value of a member. -/
theorem names_replace (as bs : List (Option String × Json)) (n : Option String) (v v' : Json) :
    names (.object (as ++ (n, v') :: bs)) = names (.object (as ++ (n, v) :: bs)) := by
  cases n <;> simp [names]

theorem Respects.inEntry (hf : Respects R f) : Respects (InEntry R) (asDistinctMap? f) := by
  rintro _ _ ⟨hv⟩ m hm
  obtain ⟨hnodup, hm⟩ := asDistinctMap?_eq_some_iff.1 hm
  refine asDistinctMap?_eq_some_iff.2 ⟨by rwa [names_replace], ?_⟩
  rw [asMap?_object] at hm ⊢
  obtain ⟨es, hes, rfl⟩ := Option.map_eq_some_iff.1 hm
  rw [mapM_replace (fun e he => ?_) hes]
  · rfl
  · obtain ⟨n, hn, he⟩ := Option.bind_eq_some_iff.1 he
    obtain ⟨a, ha, he⟩ := Option.bind_eq_some_iff.1 he
    exact Option.bind_eq_some_iff.2 ⟨n, hn, Option.bind_eq_some_iff.2 ⟨a, hf hv a ha, he⟩⟩

theorem Respects.distinctMap (hf : Respects Reorders f) : Respects Reorders (asDistinctMap? f) := by
  intro v v' h m hm
  cases h with
  | members hperm =>
    obtain ⟨hnodup, hm⟩ := asDistinctMap?_eq_some_iff.1 hm
    refine asDistinctMap?_eq_some_iff.2 ⟨(hperm.filterMap _).nodup_iff.1 hnodup, ?_⟩
    rw [asMap?_object] at hm ⊢
    obtain ⟨es, hes, rfl⟩ := Option.map_eq_some_iff.1 hm
    obtain ⟨hall, rfl⟩ := mapM_eq_some_iff.1 hes
    rw [mapM_eq_some_iff.2 ⟨fun e he => hall e (hperm.mem_iff.2 he), rfl⟩, Option.map_some]
    exact congrArg some (ofList_perm (hperm.filterMap _) (by rwa [map_fst_filterMap_pair? hall])).symm
  | inside hv => exact hf.inEntry (.mk hv) m hm
  | item _ =>
    obtain ⟨-, hm⟩ := asDistinctMap?_eq_some_iff.1 hm
    cases hm

/-- Only an object without members is the empty map. -/
theorem eq_of_asMap?_eq_empty {v : Json} (h : asMap? f v = some ∅) : v = .object [] := by
  cases v with
  | object ms =>
    rw [asMap?_object] at h
    obtain ⟨es, hes, hempty⟩ := Option.map_eq_some_iff.1 h
    obtain ⟨hall, rfl⟩ := mapM_eq_some_iff.1 hes
    cases ms with
    | nil => rfl
    | cons m ms =>
      obtain ⟨e, he⟩ := Option.isSome_iff_exists.1 (hall m List.mem_cons_self)
      have hmem : e.1 ∈ Std.ExtTreeMap.ofList ((m :: ms).filterMap (pair? f)) := by
        rw [Std.ExtTreeMap.mem_ofList, List.contains_iff_mem, List.filterMap_cons_some he]
        exact List.mem_cons_self
      rw [hempty] at hmem
      exact absurd hmem Std.ExtTreeMap.not_mem_empty
  | _ => cases h

end Readers

end Json

end Rota
