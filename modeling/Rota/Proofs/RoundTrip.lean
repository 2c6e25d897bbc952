import Rota.Job.Codec
import Rota.Metrics.Codec
import Rota.Proofs.Written

/-!
# Round trips

Configurations, keys and metrics are written as records of texts, numbers, words, lists, maps and other records. Each
of these is `Coded`: what is written of it is plain, and is read back.

- records are read by their names (`Json.fields?_ofMembers`), and maps by their entries (`Json.Coded.map`);
- so the text of a configuration, of a key or of metrics holds just that (`roundTrips`).
-/

namespace Rota

namespace Json

variable {α β : Type}

/-- What is written of a sort of values is plain, and is read back. -/
structure Coded (f : α → Json) (g : Json → Option α) : Prop where
  plain : ∀ a, Plain (f a)
  reads : ∀ a, g (f a) = some a

theorem mapM_eq_some_map {f : α → Option β} {g : α → β} {l : List α} (h : ∀ a ∈ l, f a = some (g a)) :
    l.mapM f = some (l.map g) := by
  induction l with
  | nil => rfl
  | cons a l ih =>
    rw [List.mapM_cons, h a List.mem_cons_self, ih fun b hb => h b (List.mem_cons_of_mem a hb)]
    rfl

namespace Coded

variable {f : α → Json} {g : Json → Option α}

/-! ## Leaves -/

theorem text : Coded Json.text asText? := ⟨.text, fun _ => rfl⟩

theorem bool : Coded Json.bool asBool? := ⟨.bool, fun _ => rfl⟩

theorem asNat?_nat {bound n : Nat} (h : n < bound) : asNat? bound (nat n) = some n := by
  show (Text.digits? (toString n).toList).filter (· < bound) = some n
  rw [Text.digits?_decimal, Option.filter_some, if_pos (decide_eq_true h)]

theorem word32 : Coded (fun n : UInt32 => nat n.toNat) asWord32? := by
  refine ⟨fun n => .nat _, fun n => ?_⟩
  rw [asWord32?, asNat?_nat n.toNat_lt_size, Option.map_some, UInt32.ofNat_toNat]

theorem word64 : Coded (fun n : UInt64 => nat n.toNat) asWord64? := by
  refine ⟨fun n => .nat _, fun n => ?_⟩
  rw [asWord64?, asNat?_nat n.toNat_lt_size, Option.map_some, UInt64.ofNat_toNat]

/-- A word of a list of words, each of which is its own. -/
theorem word {word : α → String} {words : List (String × α)} (h : ∀ a, words.lookup (word a) = some a) :
    Coded (fun a => Json.text (word a)) (asWord? words) :=
  ⟨fun _ => .text _, h⟩

/-! ## Options, lists and maps -/

/-- A value that may be missing, if the value itself is not read from null. -/
theorem option (h : Coded f g) (hnull : g .null = none) : Coded (ofOption f) (asOption? g) := by
  refine ⟨fun a => ?_, fun a => ?_⟩
  · cases a with
    | none => exact .null
    | some a => exact h.plain a
  · cases a with
    | none => rfl
    | some a =>
      show asOption? g (f a) = _
      unfold asOption?
      split
      next heq =>
        have hreads := h.reads a
        rw [heq, hnull] at hreads
        cases hreads
      next => rw [h.reads, Option.map_some]

theorem list (h : Coded f g) : Coded (fun as => .array (as.map f)) (asList? g) := by
  refine ⟨fun as => .array fun x hx => ?_, fun as => ?_⟩
  · obtain ⟨a, -, rfl⟩ := List.mem_map.1 hx
    exact h.plain a
  · have hreads : as.mapM (g ∘ f) = some (as.map id) := mapM_eq_some_map fun a _ => h.reads a
    rw [asList?, List.mapM_map, hreads, List.map_id]

/-- A map holds the entries of its list. -/
theorem foldl_insert_toList (m : Std.ExtTreeMap String α) :
    m.toList.foldl (fun acc p => acc.insert p.1 p.2) ∅ = m := by
  rw [← Std.ExtTreeMap.insertMany_list_eq_foldl, ← Std.ExtTreeMap.ofList_eq_insertMany_empty]
  refine Std.ExtTreeMap.ext_getElem? fun k => ?_
  cases hk : m[k]? with
  | some a =>
    exact Std.ExtTreeMap.getElem?_ofList_of_mem Std.ReflCmp.compare_self Std.ExtTreeMap.distinct_keys_toList
      (Std.ExtTreeMap.mem_toList_iff_getElem?_eq_some.2 hk)
  | none =>
    refine Std.ExtTreeMap.getElem?_ofList_of_contains_eq_false ?_
    rw [Bool.eq_false_iff, Ne, List.contains_iff_mem, List.mem_map]
    rintro ⟨⟨k', a⟩, hmem, rfl⟩
    rw [Std.ExtTreeMap.mem_toList_iff_getElem?_eq_some.1 hmem] at hk
    cases hk

/-- Entries that are written are read back one by one. -/
theorem foldl_entries (h : Coded f g) (l : List (String × α)) (acc : Std.ExtTreeMap String α) :
    (named (l.map fun (n, a) => (n, f a))).foldl (fun m (n, v) => do some ((← m).insert (← n) (← g v))) (some acc) =
      some (l.foldl (fun acc p => acc.insert p.1 p.2) acc) := by
  induction l generalizing acc with
  | nil => rfl
  | cons p l ih =>
    simp only [named, List.map_cons, List.foldl_cons, Option.bind_eq_bind, Option.bind_some, h.reads]
    exact ih _

theorem map (h : Coded f g) : Coded (ofMap f) (asMap? g) := by
  refine ⟨fun m => .members fun x hx => ?_, fun m => ?_⟩
  · obtain ⟨⟨k, a⟩, -, rfl⟩ := List.mem_map.1 hx
    exact h.plain a
  · exact (h.foldl_entries m.toList ∅).trans (congrArg some (foldl_insert_toList m))

end Coded

/-! ## Records -/

/-- The one member with a name. -/
theorem filter_members {ms : List (String × Json)} (hnames : (ms.map Prod.fst).Nodup) {name : String} {v : Json}
    (h : (name, v) ∈ ms) : (named ms).filter (fun (n, _) => n == some name) = [(some name, v)] := by
  induction ms with
  | nil => cases h
  | cons m ms ih =>
    obtain ⟨n, w⟩ := m
    obtain ⟨hn, hrest⟩ := List.nodup_cons.1 hnames
    rcases List.mem_cons.1 h with heq | hmem
    · obtain ⟨rfl, rfl⟩ := Prod.mk.inj heq
      have hnone : (named ms).filter (fun (n, _) => n == some name) = [] := by
        refine List.filter_eq_nil_iff.2 fun x hx => ?_
        obtain ⟨⟨n, w⟩, hmem, rfl⟩ := List.mem_map.1 hx
        intro hsame
        have hsame : n = name := by simpa using hsame
        exact hn (List.mem_map.2 ⟨(n, w), hmem, hsame⟩)
      rw [named, List.map_cons, List.filter_cons_of_pos (by simp)]
      exact congrArg _ hnone
    · have hne : n ≠ name := fun hsame => hn (List.mem_map.2 ⟨(name, v), hmem, hsame.symm⟩)
      rw [named, List.map_cons, List.filter_cons_of_neg (by simpa using hne)]
      exact ih hrest hmem

/-- A record that is written with its names is read by its names. -/
theorem fields?_ofMembers {names : List String} {vs : List Json} (whole : Bool) (hnames : names.Nodup)
    (hlength : names.length = vs.length) : fields? whole names (ofMembers (names.zip vs)) = some (vs.map some) := by
  have hfst : (names.zip vs).map Prod.fst = names := List.map_fst_zip (Nat.le_of_eq hlength)
  have hsnd : (names.zip vs).map Prod.snd = vs := List.map_snd_zip (Nat.le_of_eq hlength.symm)
  generalize names.zip vs = ms at hfst hsnd
  subst hfst hsnd
  have hall : (named ms).all (fun (n, _) => n.isSome) = true := by simp [named]
  show knownMembers? _ (named ms) = _
  rw [knownMembers?, if_pos hall, List.mapM_map, List.map_map]
  refine mapM_eq_some_map fun m hm => ?_
  simp only [Function.comp_apply, filter_members hnames hm]

theorem plain_ofMembers {names : List String} {vs : List Json} (h : ∀ v ∈ vs, Plain v) :
    Plain (ofMembers (names.zip vs)) :=
  .members fun _ hm => h _ (List.of_mem_zip hm).2

end Json

open Json (Coded)

/-! ## The parts of a configuration -/

theorem Policy.coded : Coded toJson ofJson? := by
  have hword32 := Coded.word32.option rfl
  have hword64 := Coded.word64.option rfl
  have hbool := Coded.bool.option rfl
  refine ⟨fun p => Json.plain_ofMembers ?_, fun p => ?_⟩
  · simp [hword32.plain, hword64.plain, hbool.plain]
  · rw [ofJson?, toJson, Json.fields?_ofMembers false (by decide) rfl]
    simp only [List.map_cons, List.map_nil, Option.bind_eq_bind, Option.bind_some, Json.orDefault, hword32.reads,
      hword64.reads, hbool.reads]

theorem StorageType.coded : Coded toJson ofJson? := .word fun t => by cases t <;> rfl

theorem Storage.coded : Coded toJson ofJson? := by
  have htype := StorageType.coded
  have htext := Coded.text
  have hregion := Coded.text.option rfl
  refine ⟨fun s => Json.plain_ofMembers ?_, fun s => ?_⟩
  · simp [htype.plain, htext.plain, hregion.plain]
  · rw [ofJson?, toJson, Json.fields?_ofMembers false (by decide) rfl]
    simp only [List.map_cons, List.map_nil, Option.bind_eq_bind, Option.bind_some, Json.orDefault, htype.reads,
      htext.reads, hregion.reads]

theorem Routine.coded : Coded toJson ofJson? := by
  have htext := Coded.text
  have hlist := Coded.text.list
  refine ⟨fun r => Json.plain_ofMembers ?_, fun r => ?_⟩
  · simp [htext.plain, hlist.plain]
  · rw [ofJson?, toJson, Json.fields?_ofMembers false (by decide) rfl]
    simp only [List.map_cons, List.map_nil, Option.bind_eq_bind, Option.bind_some, Json.orDefault, htext.reads,
      hlist.reads]

theorem Config.coded : Coded toJson ofJson? := by
  have hroutines := Routine.coded.map
  have hpolicies := Policy.coded.map
  have hstorages := Storage.coded.map
  refine ⟨fun c => Json.plain_ofMembers ?_, fun c => ?_⟩
  · simp [hroutines.plain, hpolicies.plain, hstorages.plain]
  · rw [ofJson?, toJson, Json.fields?_ofMembers false (by decide) rfl]
    simp only [List.map_cons, List.map_nil, Option.bind_eq_bind, Option.bind_some, Json.orDefault, hroutines.reads,
      hpolicies.reads, hstorages.reads]

/-! ## Keys and metrics -/

theorem Kind.coded : Coded toJson ofJson? := .word fun k => by cases k <;> rfl

theorem Key.coded : Coded toJson ofJson? := by
  have htext := Coded.text
  have hkind := Kind.coded.option rfl
  refine ⟨fun k => Json.plain_ofMembers ?_, fun k => ?_⟩
  · simp [htext.plain, hkind.plain]
  · rw [ofJson?, toJson, Json.fields?_ofMembers true (by decide) rfl]
    simp only [List.map_cons, List.map_nil, Option.bind_eq_bind, Option.bind_some, Json.orDefault, htext.reads,
      hkind.reads]

theorem Metrics.coded : Coded toJson ofJson? := by
  have hword := Coded.word64
  refine ⟨fun m => Json.plain_ofMembers fun v hv => ?_, fun m => ?_⟩
  · obtain ⟨n, -, rfl⟩ := List.mem_map.1 hv
    exact hword.plain n
  · have hreads : m.values.mapM ((fun f : Option Json => f.bind Json.asWord64?) ∘ some ∘ fun n => Json.nat n.toNat) =
        some (m.values.map id) := Json.mapM_eq_some_map fun n _ => hword.reads n
    rw [ofJson?, toJson, Json.fields?_ofMembers true (by decide) rfl]
    simp only [List.map_map, Option.bind_eq_bind, Option.bind_some, List.mapM_map, hreads, List.map_id]
    rfl

/-! ## Texts -/

/-- A way to write values as texts that can be undone. -/
structure RoundTrip {α : Type} (write : α → String) (read? : String → Option α) : Prop where
  /-- What is written is read back. -/
  back : ∀ a, read? (write a) = some a
  /-- What is read from any text is written as a text from which the same is read. -/
  again : ∀ s a, read? s = some a → read? (write a) = read? s
  /-- Different values are written differently. -/
  injective : Function.Injective write

theorem Json.Coded.roundTrip {α : Type} {f : α → Json} {g : Json → Option α} (h : Coded f g) :
    RoundTrip (fun a => (f a).render) fun s => (parse s).bind g := by
  have hback : ∀ a, (parse (f a).render).bind g = some a := by
    intro a
    rw [(h.plain a).parse_render, Option.bind_some, h.reads]
  refine ⟨hback, fun s a hs => (hback a).trans hs.symm, fun a b hab => ?_⟩
  have hread := hback a
  change (f a).render = (f b).render at hab
  rw [hab, hback b] at hread
  exact (Option.some.inj hread).symm

/-- Configurations, keys and metrics are read back from what is written of them. -/
theorem roundTrips : RoundTrip Config.text Config.ofText? ∧ RoundTrip Key.jsonText Key.ofText? ∧
    RoundTrip Metrics.text Metrics.ofText? :=
  ⟨Config.coded.roundTrip, Key.coded.roundTrip, Metrics.coded.roundTrip⟩

end Rota
