import Rota.Proofs.Adhoc

/-!
# Backups derived from one registry

A registry goes through a history: jobs are put in and taken out, its clock is set forward or back, and backups out of
turn are requested. A request that is granted takes the next number of the sequence.

- what a registry holds of a key is what the events on this key leave (`Clocked.get?_run`);
- the derived keys have the numbers of the sequence one after the other (`Clocked.key_of_getElem?_derived`), so that
  they differ as long as the numbers do;
- requests, their answers and the derived keys of every history (`Clocked.derivationLaw`).
-/

namespace Rota.Registry

/-! ## Histories -/

/-- What can happen to a registry and to its clock. -/
inductive Event
  | put (key : Key) (d : Detail)
  | remove (key : Key)
  | clear
  /-- The clock is set to a reading, earlier or later than the last one. -/
  | clock (now : Instant)
  /-- A backup of a routine out of turn is requested. -/
  | request (routine : String)
deriving DecidableEq

/-- What an event leaves of the job of a key. -/
def Event.leaves (key : Key) (held : Option Detail) : Event → Option Detail
  | put k d => if k = key then some d else held
  | remove k => if k = key then none else held
  | clear => none
  | clock _ => held
  | request _ => held

/-- A registry and the reading of its clock. -/
structure Clocked where
  registry : Registry := {}
  now : Instant

namespace Clocked

def happen (c : Clocked) : Event → Clocked
  | .put key d => { c with registry := c.registry.put key d }
  | .remove key => { c with registry := c.registry.remove key }
  | .clear => { c with registry := c.registry.clear }
  | .clock now => { c with now }
  | .request routine => { c with registry := (c.registry.deriveAdhoc routine c.now).1 }

/-- The job that is derived at an event, if it is a request that is granted. -/
def answer (c : Clocked) : Event → Option Detail
  | .request routine => (c.registry.deriveAdhoc routine c.now).2
  | _ => none

def run (c : Clocked) (evs : List Event) : Clocked := evs.foldl happen c

/-- The jobs that are derived in a history, one after the other. -/
def derived : Clocked → List Event → List Detail
  | _, [] => []
  | c, ev :: evs => (c.answer ev).toList ++ (c.happen ev).derived evs

section Steps

variable (c : Clocked)

theorem run_append (evs evs' : List Event) : c.run (evs ++ evs') = (c.run evs).run evs' := List.foldl_append ..

theorem request_of_none {routine : String} (h : c.registry.get? (.full routine) = none) :
    c.happen (.request routine) = c ∧ c.answer (.request routine) = none := by
  simp only [happen, answer, deriveAdhoc, h, and_self]

theorem request_of_some {routine : String} {d : Detail} (h : c.registry.get? (.full routine) = some d) :
    c.happen (.request routine) = { c with registry := { c.registry with sequence := c.registry.sequence + 1 } } ∧
      c.answer (.request routine) = some ⟨adhocKey routine c.now c.registry.sequence, d.job⟩ := by
  simp only [happen, answer, deriveAdhoc, h, and_self]

/-- A request leaves what is held as it is. -/
theorem details_request (routine : String) :
    (c.happen (.request routine)).registry.details = c.registry.details := by
  cases h : c.registry.get? (.full routine) with
  | none => rw [(c.request_of_none h).1]
  | some d => rw [(c.request_of_some h).1]

theorem get?_happen (ev : Event) (key : Key) :
    (c.happen ev).registry.get? key = ev.leaves key (c.registry.get? key) := by
  cases ev with
  | put k d =>
    simp only [happen, get?, put, Std.ExtTreeMap.getElem?_insert, Std.LawfulEqCmp.compare_eq_iff_eq, Event.leaves]
  | remove k =>
    simp only [happen, get?, remove, Std.ExtTreeMap.getElem?_erase, Std.LawfulEqCmp.compare_eq_iff_eq, Event.leaves]
  | clear => exact Std.ExtTreeMap.getElem?_empty
  | clock now => rfl
  | request routine => exact congrArg (·[key]?) (c.details_request routine)

/-- What a registry holds of a key after a history. -/
theorem get?_run (evs : List Event) (key : Key) :
    (c.run evs).registry.get? key = evs.foldl (Event.leaves key) (c.registry.get? key) := by
  induction evs generalizing c with
  | nil => rfl
  | cons ev evs ih => exact (ih (c.happen ev)).trans (congrArg (evs.foldl (Event.leaves key)) (c.get?_happen ev key))

/-! ## Numbers -/

/-- An event takes a number exactly if a job is derived at it. -/
theorem sequence_happen (ev : Event) :
    (c.happen ev).registry.sequence = c.registry.sequence + .ofNat (c.answer ev).toList.length := by
  cases ev with
  | request routine =>
    cases h : c.registry.get? (.full routine) with
    | none =>
      rw [(c.request_of_none h).1, (c.request_of_none h).2]
      exact (UInt64.add_zero _).symm
    | some d =>
      rw [(c.request_of_some h).1, (c.request_of_some h).2]
      rfl
  | _ => exact (UInt64.add_zero _).symm

theorem sequence_run (evs : List Event) :
    (c.run evs).registry.sequence = c.registry.sequence + .ofNat (c.derived evs).length := by
  induction evs generalizing c with
  | nil => exact (UInt64.add_zero _).symm
  | cons ev evs ih =>
    have hlast : ((c.happen ev).run evs).registry.sequence = _ := ih (c.happen ev)
    rw [c.sequence_happen ev, UInt64.add_assoc, ← UInt64.ofNat_add] at hlast
    rw [derived, List.length_append]
    exact hlast

/-- A job that is derived at an event has the next number in its key. -/
theorem key_of_answer {c : Clocked} {ev : Event} {d : Detail} (h : c.answer ev = some d) :
    ∃ routine, ev = .request routine ∧ d.key = adhocKey routine c.now c.registry.sequence := by
  cases ev with
  | request routine =>
    cases hget : c.registry.get? (.full routine) with
    | none => cases (c.request_of_none hget).2.symm.trans h
    | some d' =>
      obtain rfl := Option.some.inj ((c.request_of_some hget).2.symm.trans h)
      exact ⟨routine, rfl, rfl⟩
  | _ => cases h

/-- The derived keys have the numbers of the sequence one after the other. -/
theorem key_of_getElem?_derived {evs : List Event} {i : Nat} {d : Detail} (h : (c.derived evs)[i]? = some d) :
    ∃ routine now, d.key = adhocKey routine now (c.registry.sequence + .ofNat i) := by
  induction evs generalizing c i with
  | nil => cases h
  | cons ev evs ih =>
    have hsequence := c.sequence_happen ev
    cases hanswer : c.answer ev with
    | none =>
      simp only [derived, hanswer, Option.toList_none, List.nil_append] at h
      obtain ⟨routine, now, hkey⟩ := ih (c.happen ev) h
      rw [hsequence, hanswer] at hkey
      exact ⟨routine, now, hkey.trans (by simp)⟩
    | some d' =>
      simp only [derived, hanswer, Option.toList_some, List.singleton_append] at h
      cases i with
      | zero =>
        obtain rfl := Option.some.inj h
        obtain ⟨routine, -, hkey⟩ := key_of_answer hanswer
        exact ⟨routine, c.now, hkey.trans (by simp)⟩
      | succ i =>
        obtain ⟨routine, now, hkey⟩ := ih (c.happen ev) h
        rw [hsequence, hanswer, UInt64.add_assoc, ← UInt64.ofNat_add, Nat.add_comm] at hkey
        exact ⟨routine, now, hkey⟩

/-- As long as the numbers do not run out, no key is derived twice. -/
theorem nodup_derived {evs : List Event} (h : (c.derived evs).length ≤ UInt64.size) :
    ((c.derived evs).map Detail.key).Nodup := by
  refine List.nodup_iff_getElem?_ne_getElem?.2 fun i j hij hj heq => ?_
  rw [List.length_map] at hj
  have hi : i < (c.derived evs).length := Nat.lt_trans hij hj
  rw [List.getElem?_map, List.getElem?_map, List.getElem?_eq_getElem hj, List.getElem?_eq_getElem hi] at heq
  obtain ⟨r, t, hi'⟩ := c.key_of_getElem?_derived (List.getElem?_eq_getElem hi)
  obtain ⟨r', t', hj'⟩ := c.key_of_getElem?_derived (List.getElem?_eq_getElem hj)
  have hnumber := adhocKey_number (hi'.symm.trans ((Option.some.inj heq).trans hj'))
  have hsame : UInt64.ofNat i = .ofNat j := (UInt64.add_right_inj _).1 hnumber
  -- Numbers below the size of a word are words of their own.
  have hvalues := congrArg UInt64.toNat hsame
  rw [UInt64.toNat_ofNat_of_lt' (by omega), UInt64.toNat_ofNat_of_lt' (by omega)] at hvalues
  omega

end Steps

end Clocked

/-- A derived key is not the one of the full backup that it is derived from. -/
theorem adhocKey_ne_full (routine : String) (now : Instant) (n : UInt64) : adhocKey routine now n ≠ .full routine := by
  intro h
  have hname := congrArg (fun k => k.name.length) h
  simp only [adhocKey, Key.full, String.length_append] at hname
  have hdash : "-".length = 1 := rfl
  omega

namespace Clocked

/-! ## The law -/

/-- How requests for backups out of turn are answered in a history, whatever the routines are called and the clock
reads. -/
structure DerivationLaw (c : Clocked) (evs : List Event) : Prop where
  /-- The answer to a request shares the job that the events before it leave of the full backup of the routine; without
  one it is refused. -/
  shares : ∀ before routine after, evs = before ++ .request routine :: after →
    ((c.run before).answer (.request routine)).map Detail.job =
      (before.foldl (Event.leaves (.full routine)) (c.registry.get? (.full routine))).map Detail.job
  /-- A request changes nothing that the registry holds. -/
  unchanged : ∀ before routine after, evs = before ++ .request routine :: after →
    (c.run (before ++ [.request routine])).registry.details = (c.run before).registry.details
  /-- A request that is refused takes no number. -/
  refused : ∀ before routine after, evs = before ++ .request routine :: after →
    (c.run before).answer (.request routine) = none → c.run (before ++ [.request routine]) = c.run before
  /-- The key that is derived is made of the routine, the reading and the number of jobs derived before. It is not the
  key of the full backup it is derived from. -/
  key : ∀ before routine after, evs = before ++ .request routine :: after →
    ∀ d, (c.run before).answer (.request routine) = some d →
      d.key = adhocKey routine (c.run before).now (c.registry.sequence + .ofNat (c.derived before).length) ∧
      d.key ≠ .full routine
  /-- All keys that are derived differ, if there are no more than there are numbers. -/
  distinct : (c.derived evs).length ≤ UInt64.size → ((c.derived evs).map Detail.key).Nodup

/-- Any history obeys the law. -/
theorem derivationLaw (c : Clocked) (evs : List Event) : DerivationLaw c evs where
  shares before routine after _ := by
    rw [← c.get?_run]
    cases h : (c.run before).registry.get? (.full routine) with
    | none => exact congrArg (Option.map Detail.job) ((c.run before).request_of_none h).2
    | some d =>
      rw [((c.run before).request_of_some h).2]
      rfl
  unchanged before routine after _ := by
    rw [run_append]
    exact (c.run before).details_request routine
  refused before routine after _ hrefused := by
    rw [run_append]
    cases h : (c.run before).registry.get? (.full routine) with
    | none => exact ((c.run before).request_of_none h).1
    | some d => cases ((c.run before).request_of_some h).2.symm.trans hrefused
  key before routine after _ d hd := by
    obtain ⟨routine', heq, hkey⟩ := key_of_answer hd
    cases heq
    rw [c.sequence_run] at hkey
    exact ⟨hkey, hkey ▸ adhocKey_ne_full _ _ _⟩
  distinct := c.nodup_derived

/-- The full backups of a routine and of one whose name is the routine's with a reading. -/
def daily : Detail := ⟨.full "daily", .backup ⟨0, "daily", .full⟩⟩

def dailyAdhoc : Detail := ⟨.full "daily-adhoc-5", .backup ⟨1, "daily-adhoc-5", .full⟩⟩

/-- The clock stands still and goes back, and one request comes after the job was taken out. -/
def lookalikes : List Event :=
  [.put daily.key daily, .put dailyAdhoc.key dailyAdhoc, .request "daily", .request "daily-adhoc-5", .request "daily",
    .clock ⟨-1⟩, .remove daily.key, .request "daily", .request "daily-adhoc-5"]

/-- Four jobs are derived, under four keys. -/
theorem derivationLaw_lookalikes :
    ((⟨{}, ⟨5000000⟩⟩ : Clocked).derived lookalikes).map Detail.key =
        [.full "daily-adhoc-5-0", .full "daily-adhoc-5-adhoc-5-1", .full "daily-adhoc-5-2",
          .full "daily-adhoc-5-adhoc--1-3"] ∧
      (((⟨{}, ⟨5000000⟩⟩ : Clocked).derived lookalikes).map Detail.key).Nodup :=
  ⟨by decide +kernel, (derivationLaw ⟨{}, ⟨5000000⟩⟩ lookalikes).distinct (by decide +kernel)⟩

end Clocked

end Rota.Registry
