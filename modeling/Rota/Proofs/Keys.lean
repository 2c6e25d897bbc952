import Mathlib.Data.List.Sort
import Rota.Proofs.Answer
import Rota.Proofs.Commands

/-!
# Keys as text and in order

A key is shown as its group and its name with two colons between them. Whatever a name looks like, the text tells the
key, since the three groups begin with different letters (`Key.text_injective`).

- keys are in the order of the code points of their names and then of their groups (`Key.compare_eq_lt_iff`), which is a
  strict total order (`Key.Precedes.trans`, `Key.precedes_trichotomy`);
- the keys of a map are listed in this order, once each, and there is one such list only (`Key.lists_keys`);
- a command about one key leaves the jobs under other keys alone, and they make no difference to its answer
  (`Dispatcher.getElem?_handle_of_concerns`, `Dispatcher.snd_handle_of_concerns`);
- so registries and dispatchers list their keys in order, and keys of different groups are never taken for one another
  (`Key.keyLaw`).
-/

namespace Rota

/-! ## Texts in order -/

/-- The code points of a text. Lists of them are in lexicographic order. -/
def codePoints (s : String) : List Nat := s.toList.map Char.toNat

/-- Texts are in the order of their code points. -/
theorem codePoints_lt_iff {s t : String} : codePoints s < codePoints t ↔ s < t := by
  rw [String.lt_iff, codePoints, codePoints]
  generalize s.toList = l
  generalize t.toList = l'
  induction l generalizing l' with
  | nil => cases l' <;> simp
  | cons c l ih =>
    cases l' with
    | nil => simp
    | cons c' l' =>
      rw [List.map_cons, List.map_cons, List.cons_lt_cons_iff, List.cons_lt_cons_iff, ih, Char.toNat_inj]
      rfl

namespace Key

variable {a b c : Key}

/-! ## Keys as text -/

/-- The letter that the text of a key begins with. -/
def initial (k : Key) : Char :=
  match k.kind with
  | none => 'd'
  | some .full => 'f'
  | some .incremental => 'i'

theorem head?_text (k : Key) : k.text.toList.head? = some k.initial := by
  obtain ⟨name, kind⟩ := k
  rcases kind with _ | _ | _ <;> simp [text, group, Kind.text, initial]

theorem kind_eq_of_initial (h : a.initial = b.initial) : a.kind = b.kind := by
  obtain ⟨_, a⟩ := a
  obtain ⟨_, b⟩ := b
  rcases a with _ | _ | _ <;> rcases b with _ | _ | _ <;> first | rfl | cases h

/-- The text of a key tells the key. -/
theorem text_injective (h : a.text = b.text) : a = b := by
  have hinitial : some a.initial = some b.initial := by rw [← head?_text, ← head?_text, h]
  have hkind : a.kind = b.kind := kind_eq_of_initial (Option.some.inj hinitial)
  have hgroup : a.group = b.group := by rw [group, group, hkind]
  rw [text, text, hgroup, String.append_right_inj] at h
  obtain ⟨an, ak⟩ := a
  obtain ⟨bn, bk⟩ := b
  simp only at h hkind
  rw [h, hkind]

/-- A name that looks like the text of another key. -/
example : (catchUp "full::hourly").text = "default::full::hourly" ∧ (full "hourly").text = "full::hourly" := by decide

/-! ## Keys in order -/

/-- The groups in their order. -/
def groups : List (Option Kind) := [none, some .full, some .incremental]

/-- A key comes before another: its name has the lesser code points, or the names are the same and its group comes
first. -/
def Precedes (a b : Key) : Prop :=
  codePoints a.name < codePoints b.name ∨ a.name = b.name ∧ groups.idxOf a.kind < groups.idxOf b.kind

theorem rank_eq_idxOf (k : Key) : k.rank = groups.idxOf k.kind := by
  obtain ⟨_, kind⟩ := k
  rcases kind with _ | _ | _ <;> rfl

/-- Keys are compared in this order. -/
theorem compare_eq_lt_iff : compare a b = .lt ↔ a.Precedes b := by
  show (compare a.name b.name).then (compare a.rank b.rank) = .lt ↔ _
  rw [Ordering.then_eq_lt, Std.compare_eq_iff_eq, Nat.compare_eq_lt, rank_eq_idxOf, rank_eq_idxOf, Precedes,
    codePoints_lt_iff]
  exact or_congr_left compareOfLessAndEq_eq_lt

theorem not_precedes_self (a : Key) : ¬ a.Precedes a := by
  rw [← compare_eq_lt_iff, Std.compare_self]
  exact nofun

theorem Precedes.trans (hab : a.Precedes b) (hbc : b.Precedes c) : a.Precedes c := by
  rw [← compare_eq_lt_iff] at *
  exact Std.TransCmp.lt_trans hab hbc

/-- Of two keys that differ one comes before the other. -/
theorem precedes_trichotomy (a b : Key) : a.Precedes b ∨ a = b ∨ b.Precedes a := by
  rw [← compare_eq_lt_iff, ← compare_eq_lt_iff]
  cases h : compare a b with
  | lt => exact .inl rfl
  | eq => exact .inr (.inl (Std.LawfulEqOrd.eq_of_compare h))
  | gt => exact .inr (.inr (Std.OrientedCmp.gt_iff_lt.1 h))

/-! ## Lists of keys -/

/-- A list of keys is the list of a set of keys in their order. -/
structure Lists (ks : List Key) (S : Key → Prop) : Prop where
  ascending : ks.Pairwise Precedes
  nodup : ks.Nodup
  mem_iff : ∀ k, k ∈ ks ↔ S k
  /-- It is what comes of sorting the keys, however they are gathered. -/
  sorted : ∀ l : List Key, l.Nodup → (∀ k, k ∈ l ↔ S k) → l.mergeSort (fun a b => (compare a b).isLE) = ks

theorem isLE_total (a b : Key) : ((compare a b).isLE || (compare b a).isLE) = true := by
  rcases precedes_trichotomy a b with h | rfl | h
  · rw [compare_eq_lt_iff.2 h]
    rfl
  · rw [Std.compare_self]
    rfl
  · rw [compare_eq_lt_iff.2 h, Bool.or_comm]
    rfl

/-- Keys that are sorted are the keys in their order. -/
theorem mergeSort_eq {ks l : List Key} (hks : ks.Pairwise Precedes) (hperm : l.Perm ks) :
    l.mergeSort (fun a b => (compare a b).isLE) = ks := by
  have htrans : ∀ a b c : Key, (compare a b).isLE → (compare b c).isLE → (compare a c).isLE := fun _ _ _ hab hbc =>
    Std.TransCmp.isLE_trans hab hbc
  have hantisymm : ∀ a b : Key, (compare a b).isLE → (compare b a).isLE → a = b := fun _ _ hab hba =>
    Std.LawfulEqOrd.eq_of_compare (Std.OrientedCmp.isLE_antisymm hab hba)
  have hascending : ks.Pairwise fun a b => (compare a b).isLE := hks.imp fun hab => by
    rw [compare_eq_lt_iff.2 hab]
    rfl
  exact ((List.mergeSort_perm l _).trans hperm).eq_of_pairwise (fun a b _ _ => hantisymm a b)
    (List.pairwise_mergeSort htrans isLE_total l) hascending

/-- The keys of a map are listed in their order. -/
theorem lists_keys {β : Type} (t : Std.ExtTreeMap Key β) : Lists t.keys fun k => t[k]?.isSome where
  ascending := Std.ExtTreeMap.ordered_keys.imp compare_eq_lt_iff.1
  nodup := Std.ExtTreeMap.nodup_keys
  mem_iff _ := Std.ExtTreeMap.mem_keys.trans Std.ExtTreeMap.mem_iff_isSome_getElem?
  sorted l hl hmem := by
    refine mergeSort_eq (Std.ExtTreeMap.ordered_keys.imp compare_eq_lt_iff.1) ?_
    refine (List.perm_ext_iff_of_nodup hl Std.ExtTreeMap.nodup_keys).2 fun k => (hmem k).trans ?_
    rw [Std.ExtTreeMap.mem_keys, Std.ExtTreeMap.mem_iff_isSome_getElem?]

end Key

/-! ## Registrations in a row -/

namespace Registry

/-- What is put into a registry is there, and the rest stays. -/
theorem get?_put (r : Registry) (key k : Key) (detail : Detail) :
    (r.put key detail).get? k = Function.update r.get? key (some detail) k := by
  simp only [get?, put, Std.ExtTreeMap.getElem?_insert, Std.LawfulEqCmp.compare_eq_iff_eq, Function.update_apply,
    eq_comm (a := k)]

/-- A registry with registrations in a row. -/
def putAll (r : Registry) (xs : List (Key × Detail)) : Registry := xs.foldl (fun r x => r.put x.1 x.2) r

theorem isSome_get?_putAll (r : Registry) (xs : List (Key × Detail)) (k : Key) :
    ((r.putAll xs).get? k).isSome ↔ (r.get? k).isSome ∨ k ∈ xs.map Prod.fst := by
  induction xs generalizing r with
  | nil => simp [putAll]
  | cons x xs ih =>
    have hput : ((r.put x.1 x.2).get? k).isSome ↔ k = x.1 ∨ (r.get? k).isSome := by
      rw [get?_put, Function.update_apply]
      split <;> simp [*]
    rw [putAll, List.foldl_cons, ← putAll, ih, hput, List.map_cons, List.mem_cons, or_assoc, or_left_comm]

end Registry

/-! ## Keys apart -/

/-- A command is about one key: it registers a job under it, or deletes or asks for the one that is. -/
def Command.Concerns (k : Key) : Command → Prop
  | .schedule detail _ => detail.key = k
  | .delete key => key = k
  | .info key => key = k
  | .clear => False
  | .keys => False

namespace Dispatcher

variable {d d' : Dispatcher} {now : Instant} {k k' : Key} {c : Command}

/-- A command about one key leaves the jobs under other keys alone. -/
theorem getElem?_handle_of_concerns {reply : Except SchedulerError Answer} (hc : c.Concerns k) (hne : k ≠ k')
    (h : d.handle now c = some (d', reply)) : d'.jobs[k']? = d.jobs[k']? := by
  rcases handle_cases h with ⟨rfl, -⟩ | ⟨r, t, rfl, -, -, rfl, -⟩ | ⟨key, rfl, -, rfl, -⟩ | ⟨rfl, -⟩
  · rfl
  · obtain rfl : r.detail.key = k := hc
    rw [enter, Std.ExtTreeMap.getElem?_insert, if_neg (mt Std.LawfulEqOrd.eq_of_compare hne)]
  · obtain rfl : key = k := hc
    rw [Std.ExtTreeMap.getElem?_erase, if_neg (mt Std.LawfulEqOrd.eq_of_compare hne)]
  · cases hc

theorem mem_iff_of_getElem? (h : d.jobs[k]? = d'.jobs[k]?) : k ∈ d.jobs ↔ k ∈ d'.jobs := by
  rw [Std.ExtTreeMap.mem_iff_isSome_getElem?, Std.ExtTreeMap.mem_iff_isSome_getElem?, h]

/-- The answer to a command about one key depends on the job under this key only. -/
theorem snd_handle_of_concerns (hc : c.Concerns k) (h : d.jobs[k]? = d'.jobs[k]?) :
    (d.handle now c).map Prod.snd = (d'.handle now c).map Prod.snd := by
  cases c with
  | schedule detail t =>
    obtain rfl : detail.key = k := hc
    simp only [handle, schedule, mem_iff_of_getElem? h]
    split
    · rfl
    · split <;> rfl
  | delete key =>
    obtain rfl : key = k := hc
    simp only [handle, delete, mem_iff_of_getElem? h]
    split <;> rfl
  | info key =>
    obtain rfl : key = k := hc
    rw [handle, handle, h]
    rfl
  | clear => cases hc
  | keys => cases hc

/-- An answer of keys lists the keys of the jobs. -/
theorem eq_of_handle_keys {ks : List Key} (h : d.handle now c = some (d', .ok (.keys ks))) : ks = d.jobs.keys := by
  cases c with
  | schedule detail t =>
    rcases schedule_cases d now detail t with ⟨-, h'⟩ | ⟨-, ⟨_, _, -, h'⟩ | ⟨_, -, h'⟩ | ⟨-, h'⟩⟩ <;>
      cases h'.symm.trans h
  | delete key =>
    by_cases hk : key ∈ d.jobs
    · cases (handle_delete_of_mem hk now).symm.trans h
    · cases (handle_delete_of_not_mem hk now).symm.trans h
  | clear => cases h
  | keys =>
    cases h
    rfl
  | info key =>
    rw [handle] at h
    cases hk : d.jobs[key]? <;> rw [hk] at h <;> cases h

end Dispatcher

namespace Key

variable {a b : Key}

/-- Two keys are never taken for one another. -/
structure Apart (a b : Key) : Prop where
  text : a.text ≠ b.text
  order : a.Precedes b ∨ b.Precedes a
  /-- What is put into a registry or removed from it under the one leaves the other alone. -/
  registry : ∀ (r : Registry) (detail : Detail), (r.put a detail).get? b = r.get? b ∧ (r.remove a).get? b = r.get? b
  /-- A command about the one leaves the job under the other alone. -/
  commands : ∀ (d d' : Dispatcher) (now : Instant) (c : Command) (reply : Except SchedulerError Answer),
    c.Concerns a → d.handle now c = some (d', reply) → d'.jobs[b]? = d.jobs[b]?
  /-- Whether there is a job under the other, and which, makes no difference to the answer. -/
  answers : ∀ (d d' : Dispatcher) (now : Instant) (c : Command), c.Concerns a →
    (∀ k, k ≠ b → d.jobs[k]? = d'.jobs[k]?) → (d.handle now c).map Prod.snd = (d'.handle now c).map Prod.snd

theorem apart_of_ne (h : a ≠ b) : Apart a b where
  text htext := h (text_injective htext)
  order := (precedes_trichotomy a b).imp_right (·.resolve_left h)
  registry r detail := by
    rw [r.get?_put, Dispatcher.get?_remove, Function.update_of_ne h.symm, Function.update_of_ne h.symm]
    exact ⟨rfl, rfl⟩
  commands _ _ _ _ _ hc hhandle := Dispatcher.getElem?_handle_of_concerns hc h hhandle
  answers d d' now c hc hjobs := Dispatcher.snd_handle_of_concerns hc (hjobs a h)

/-! ## The law -/

/-- Keys are faithfully shown and totally ordered. -/
structure KeyLaw : Prop where
  /-- Two keys have the same text exactly if they are the same. -/
  text : ∀ a b : Key, a.text = b.text ↔ a = b
  /-- Keys are compared by the code points of their names, and then by their groups. -/
  order : ∀ a b : Key, compare a b = .lt ↔ a.Precedes b
  consistent : ∀ a b : Key, compare a b = .eq ↔ a = b
  irrefl : ∀ a : Key, ¬ a.Precedes a
  trans : ∀ a b c : Key, a.Precedes b → b.Precedes c → a.Precedes c
  trichotomy : ∀ a b : Key, a.Precedes b ∨ a = b ∨ b.Precedes a
  /-- A registry lists the keys of its jobs. -/
  registry : ∀ r : Registry, Lists r.keys fun k => (r.get? k).isSome
  /-- So one in which jobs were registered in a row lists the keys that they were registered under. -/
  registrations : ∀ xs : List (Key × Detail), Lists (({} : Registry).putAll xs).keys (· ∈ xs.map Prod.fst)
  /-- A dispatcher that is asked for its keys lists those of its jobs. -/
  jobs : ∀ (d : Dispatcher) (now : Instant),
    ∃ ks, d.handle now .keys = some (d, .ok (.keys ks)) ∧ Lists ks fun k => d.jobs[k]?.isSome
  /-- So does whatever turn of a loop answers with keys. -/
  turns : ∀ (s : Scheduler) (now : Instant) (ticket : Nat) (ks : List Key),
    (ticket, .ok (.keys ks)) ∈ (s.turn now).2 → Lists ks fun k => s.dispatcher.jobs[k]?.isSome
  /-- Keys of different groups with one name are never taken for one another. -/
  apart : ∀ (name : String) (g h : Option Kind), g ≠ h → Apart ⟨name, g⟩ ⟨name, h⟩

/-- Keys obey the law, whatever their names. -/
theorem keyLaw : KeyLaw where
  text a b := ⟨text_injective, congrArg _⟩
  order a b := compare_eq_lt_iff
  consistent a b := Std.compare_eq_iff_eq
  irrefl := not_precedes_self
  trans a b c := Precedes.trans
  trichotomy := precedes_trichotomy
  registry r := lists_keys r.details
  registrations xs := by
    have hset : (fun k => ((({} : Registry).putAll xs).get? k).isSome = true) = (· ∈ xs.map Prod.fst) := by
      funext k
      rw [Registry.isSome_get?_putAll]
      exact propext (or_iff_right (by simp [Registry.get?]))
    rw [← hset]
    exact lists_keys (({} : Registry).putAll xs).details
  jobs d now := ⟨_, rfl, lists_keys d.jobs⟩
  turns s now ticket ks h := by
    obtain ⟨c, inbox, d, -, -, -, hhandle, -⟩ := Scheduler.turn_of_reply h
    rw [Dispatcher.eq_of_handle_keys hhandle]
    exact lists_keys s.dispatcher.jobs
  apart name g h hne := apart_of_ne fun hkey => hne (congrArg kind hkey)

end Key

end Rota
