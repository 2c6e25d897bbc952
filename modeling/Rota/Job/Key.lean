/-!
# Job keys

A job is known by its `Key`: a name and an optional kind of backup. Keys are ordered by name, by code points, and then
by kind: no kind comes first, full before incremental. This is a linear order, so keys index ordered maps.
-/

namespace Rota

/-! ## Kinds of backup -/

/-- The two kinds of backup of a routine. -/
inductive Kind
  | full
  | incremental
deriving DecidableEq, Inhabited

namespace Kind

def text : Kind → String
  | full => "full"
  | incremental => "incremental"

/-- The place of a kind among the keys of one name. -/
def rank : Kind → Nat
  | full => 1
  | incremental => 2

theorem rank_injective {a b : Kind} (h : a.rank = b.rank) : a = b := by
  cases a <;> cases b <;> simp_all [rank]

end Kind

/-! ## Keys -/

/-- The identity of a job. A key without a kind belongs to the default group. -/
structure Key where
  name : String
  kind : Option Kind
deriving DecidableEq, Inhabited

namespace Key

def full (routine : String) : Key := ⟨routine, some .full⟩

def incremental (routine : String) : Key := ⟨routine, some .incremental⟩

/-- The key of the catch-up run of a routine. -/
def catchUp (routine : String) : Key := ⟨routine, none⟩

def group (k : Key) : String := (k.kind.map Kind.text).getD "default"

def text (k : Key) : String := k.group ++ "::" ++ k.name

/-- The place of a key among the keys of its name. -/
def rank (k : Key) : Nat := (k.kind.map Kind.rank).getD 0

theorem kind_eq_of_rank {a b : Key} (h : a.rank = b.rank) : a.kind = b.kind := by
  obtain ⟨_, a⟩ := a
  obtain ⟨_, b⟩ := b
  cases a with
  | none =>
    cases b with
    | none => rfl
    | some b => cases b <;> cases h
  | some a =>
    cases b with
    | none => cases a <;> cases h
    | some b => exact congrArg some (Kind.rank_injective h)

/-- Name first, then kind. -/
instance : Ord Key := ⟨compareLex (compareOn name) (compareOn rank)⟩

instance : Std.TransOrd Key := inferInstanceAs (Std.TransCmp (compareLex (compareOn name) (compareOn rank)))

instance : Std.LawfulEqOrd Key where
  eq_of_compare {a b} h := by
    have h' : compareLex (compareOn name) (compareOn rank) a b = .eq := h
    rw [compareLex_eq_eq] at h'
    obtain ⟨hn, hr⟩ := h'
    have hname : a.name = b.name := Std.LawfulEqOrd.eq_of_compare hn
    have hkind : a.kind = b.kind := kind_eq_of_rank (Std.LawfulEqOrd.eq_of_compare hr)
    obtain ⟨an, ak⟩ := a
    obtain ⟨bn, bk⟩ := b
    simp only at hname hkind
    rw [hname, hkind]

end Key

end Rota
