import Mathlib.Logic.Relation
import Rota.Config.Plan
import Rota.Proofs.Fields

/-!
# The members of a configuration that count

A configuration is read from JSON by the names of its members. Other members may stand among them, in any order, and a
member with its default value may as well be left out (`Config.Edits`).

- an edit of a record moves the values of its fields at most in a way that their readers respect, so that records
  respect it (`Routine.respects_step`, `Config.respects_edits`);
- by induction edits in any number leave the configuration as it is (`Config.ofText?_of_edits`).
-/

namespace Rota

open Json (Respects Reorders Retouches InEntry InField IsDefault Distinct Step fields? orDefault asText? asBool? asList?
  asMap? asDistinctMap? asOption? asWord32? asWord64? orDefault_of_moves fields?_of_step)

/-! ## Routines, policies and storages -/

namespace Routine

variable {v : Json} {r : Routine}

theorem ofJson?_eq_some_iff : ofJson? v = some r ↔
    ∃ policy cluster storage fullCron incrementalCron namespaces,
      fields? false fields v = some [policy, cluster, storage, fullCron, incrementalCron, namespaces] ∧
        orDefault "" asText? policy = some r.policy ∧ orDefault "" asText? cluster = some r.cluster ∧
        orDefault "" asText? storage = some r.storage ∧ orDefault "" asText? fullCron = some r.fullCron ∧
        orDefault "" asText? incrementalCron = some r.incrementalCron ∧
        orDefault [] (asList? asText?) namespaces = some r.namespaces := by
  constructor
  · intro h
    obtain ⟨vs, hvs, h⟩ := Option.bind_eq_some_iff.1 h
    split at h
    · obtain ⟨policy, hpolicy, h⟩ := Option.bind_eq_some_iff.1 h
      obtain ⟨cluster, hcluster, h⟩ := Option.bind_eq_some_iff.1 h
      obtain ⟨storage, hstorage, h⟩ := Option.bind_eq_some_iff.1 h
      obtain ⟨fullCron, hfull, h⟩ := Option.bind_eq_some_iff.1 h
      obtain ⟨incrementalCron, hincremental, h⟩ := Option.bind_eq_some_iff.1 h
      obtain ⟨namespaces, hnamespaces, h⟩ := Option.bind_eq_some_iff.1 h
      obtain rfl := Option.some.inj h
      exact ⟨_, _, _, _, _, _, hvs, hpolicy, hcluster, hstorage, hfull, hincremental, hnamespaces⟩
    · cases h
  · rintro ⟨_, _, _, _, _, _, hvs, hpolicy, hcluster, hstorage, hfull, hincremental, hnamespaces⟩
    simp [ofJson?, hvs, hpolicy, hcluster, hstorage, hfull, hincremental, hnamespaces]

theorem text_of_isDefault {n : String} (h : IsDefault ofJson? {} n v)
    (hn : n ∈ ["backup-policy", "source-cluster", "storage", "interval-cron", "incr-interval-cron"]) :
    asText? v = some "" := by
  simp only [List.mem_cons, List.not_mem_nil, or_false] at hn
  rcases hn with rfl | rfl | rfl | rfl | rfl <;>
    simpa [IsDefault, ofJson?, Json.fields?_singleton, fields, orDefault, Option.bind_eq_some_iff] using h

theorem namespaces_of_isDefault (h : IsDefault ofJson? {} "namespaces" v) : asList? asText? v = some [] := by
  simpa [IsDefault, ofJson?, Json.fields?_singleton, fields, orDefault, Option.bind_eq_some_iff] using h

theorem respects_step : Respects (Step fields (IsDefault ofJson? {}) fun _ => Reorders) ofJson? := by
  intro v v' h r hr
  obtain ⟨_, _, _, _, _, _, hvs, hpolicy, hcluster, hstorage, hfull, hincremental, hnamespaces⟩ :=
    ofJson?_eq_some_iff.1 hr
  obtain ⟨vs', hvs', hmoves⟩ := fields?_of_step h hvs
  obtain _ | ⟨mpolicy, _ | ⟨mcluster, _ | ⟨mstorage, _ | ⟨mfull, _ | ⟨mincremental, _ | ⟨mnamespaces, _ | _⟩⟩⟩⟩⟩⟩ :=
    hmoves
  have htext := Json.respects_text
  exact ofJson?_eq_some_iff.2 ⟨_, _, _, _, _, _, hvs',
    orDefault_of_moves htext (fun _ hw => text_of_isDefault hw (by simp)) mpolicy hpolicy,
    orDefault_of_moves htext (fun _ hw => text_of_isDefault hw (by simp)) mcluster hcluster,
    orDefault_of_moves htext (fun _ hw => text_of_isDefault hw (by simp)) mstorage hstorage,
    orDefault_of_moves htext (fun _ hw => text_of_isDefault hw (by simp)) mfull hfull,
    orDefault_of_moves htext (fun _ hw => text_of_isDefault hw (by simp)) mincremental hincremental,
    orDefault_of_moves htext.list (fun _ => namespaces_of_isDefault) mnamespaces hnamespaces⟩

end Routine

namespace Policy

variable {v : Json} {p : Policy}

theorem ofJson?_eq_some_iff : ofJson? v = some p ↔
    ∃ parallel maxRetries retryDelay sealed,
      fields? false fields v = some [parallel, maxRetries, retryDelay, sealed] ∧
        orDefault none (asOption? asWord32?) parallel = some p.parallel ∧
        orDefault none (asOption? asWord32?) maxRetries = some p.maxRetries ∧
        orDefault none (asOption? asWord64?) retryDelay = some p.retryDelay ∧
        orDefault none (asOption? asBool?) sealed = some p.sealed := by
  constructor
  · intro h
    obtain ⟨vs, hvs, h⟩ := Option.bind_eq_some_iff.1 h
    split at h
    · obtain ⟨parallel, hparallel, h⟩ := Option.bind_eq_some_iff.1 h
      obtain ⟨maxRetries, hretries, h⟩ := Option.bind_eq_some_iff.1 h
      obtain ⟨retryDelay, hdelay, h⟩ := Option.bind_eq_some_iff.1 h
      obtain ⟨sealed, hsealed, h⟩ := Option.bind_eq_some_iff.1 h
      obtain rfl := Option.some.inj h
      exact ⟨_, _, _, _, hvs, hparallel, hretries, hdelay, hsealed⟩
    · cases h
  · rintro ⟨_, _, _, _, hvs, hparallel, hretries, hdelay, hsealed⟩
    simp [ofJson?, hvs, hparallel, hretries, hdelay, hsealed]

theorem default_of_isDefault :
    (IsDefault ofJson? {} "parallel" v → asOption? asWord32? v = some none) ∧
    (IsDefault ofJson? {} "max-retries" v → asOption? asWord32? v = some none) ∧
    (IsDefault ofJson? {} "retry-delay" v → asOption? asWord64? v = some none) ∧
    (IsDefault ofJson? {} "sealed" v → asOption? asBool? v = some none) := by
  simp [IsDefault, ofJson?, Json.fields?_singleton, fields, orDefault, Option.bind_eq_some_iff]

theorem respects_step : Respects (Step fields (IsDefault ofJson? {}) fun _ => Reorders) ofJson? := by
  intro v v' h p hp
  obtain ⟨_, _, _, _, hvs, hparallel, hretries, hdelay, hsealed⟩ := ofJson?_eq_some_iff.1 hp
  obtain ⟨vs', hvs', hmoves⟩ := fields?_of_step h hvs
  obtain _ | ⟨mparallel, _ | ⟨mretries, _ | ⟨mdelay, _ | ⟨msealed, _ | _⟩⟩⟩⟩ := hmoves
  exact ofJson?_eq_some_iff.2 ⟨_, _, _, _, hvs',
    orDefault_of_moves Json.respects_word32.option (fun _ => default_of_isDefault.1) mparallel hparallel,
    orDefault_of_moves Json.respects_word32.option (fun _ => default_of_isDefault.2.1) mretries hretries,
    orDefault_of_moves Json.respects_word64.option (fun _ => default_of_isDefault.2.2.1) mdelay hdelay,
    orDefault_of_moves Json.respects_bool.option (fun _ => default_of_isDefault.2.2.2) msealed hsealed⟩

end Policy

namespace Storage

variable {v : Json} {s : Storage}

theorem ofJson?_eq_some_iff : ofJson? v = some s ↔
    ∃ type path s3Region, fields? false fields v = some [type, path, s3Region] ∧
      orDefault .localDisk StorageType.ofJson? type = some s.type ∧ orDefault "" asText? path = some s.path ∧
      orDefault none (asOption? asText?) s3Region = some s.s3Region := by
  constructor
  · intro h
    obtain ⟨vs, hvs, h⟩ := Option.bind_eq_some_iff.1 h
    split at h
    · obtain ⟨type, htype, h⟩ := Option.bind_eq_some_iff.1 h
      obtain ⟨path, hpath, h⟩ := Option.bind_eq_some_iff.1 h
      obtain ⟨s3Region, hregion, h⟩ := Option.bind_eq_some_iff.1 h
      obtain rfl := Option.some.inj h
      exact ⟨_, _, _, hvs, htype, hpath, hregion⟩
    · cases h
  · rintro ⟨_, _, _, hvs, htype, hpath, hregion⟩
    simp [ofJson?, hvs, htype, hpath, hregion]

theorem default_of_isDefault :
    (IsDefault ofJson? {} "type" v → StorageType.ofJson? v = some .localDisk) ∧
    (IsDefault ofJson? {} "path" v → asText? v = some "") ∧
    (IsDefault ofJson? {} "s3-region" v → asOption? asText? v = some none) := by
  simp [IsDefault, ofJson?, Json.fields?_singleton, fields, orDefault, Option.bind_eq_some_iff]

theorem respects_step : Respects (Step fields (IsDefault ofJson? {}) fun _ => Reorders) ofJson? := by
  intro v v' h s hs
  obtain ⟨_, _, _, hvs, htype, hpath, hregion⟩ := ofJson?_eq_some_iff.1 hs
  obtain ⟨vs', hvs', hmoves⟩ := fields?_of_step h hvs
  obtain _ | ⟨mtype, _ | ⟨mpath, _ | ⟨mregion, _ | _⟩⟩⟩ := hmoves
  exact ofJson?_eq_some_iff.2 ⟨_, _, _, hvs',
    orDefault_of_moves (Json.respects_word _) (fun _ => default_of_isDefault.1) mtype htype,
    orDefault_of_moves Json.respects_text (fun _ => default_of_isDefault.2.1) mpath hpath,
    orDefault_of_moves Json.respects_text.option (fun _ => default_of_isDefault.2.2) mregion hregion⟩

end Storage

/-! ## Configurations -/

namespace Config

/-- Members are put in another order anywhere, or an unknown one is added to the configuration or to one of its
routines, policies or storages, or one with the default of its field is left out there. -/
inductive Edits : Json → Json → Prop
  | reorder {v v' : Json} : Reorders v v' → Edits v v'
  | config {v v' : Json} : Retouches fields (IsDefault ofJson? {}) v v' → Edits v v'
  | routine {v v' : Json} : InField fields "backup-routines"
      (InEntry (Retouches Routine.fields (IsDefault Routine.ofJson? {}))) v v' → Edits v v'
  | policy {v v' : Json} : InField fields "backup-policies"
      (InEntry (Retouches Policy.fields (IsDefault Policy.ofJson? {}))) v v' → Edits v v'
  | storage {v v' : Json} : InField fields "storage"
      (InEntry (Retouches Storage.fields (IsDefault Storage.ofJson? {}))) v v' → Edits v v'

/-- What edits do to the value of a field. -/
inductive EditsField (n : String) : Json → Json → Prop
  | reorder {v v' : Json} : Reorders v v' → EditsField n v v'
  | routine {v v' : Json} : n = "backup-routines" →
      InEntry (Retouches Routine.fields (IsDefault Routine.ofJson? {})) v v' → EditsField n v v'
  | policy {v v' : Json} : n = "backup-policies" →
      InEntry (Retouches Policy.fields (IsDefault Policy.ofJson? {})) v v' → EditsField n v v'
  | storage {v v' : Json} : n = "storage" →
      InEntry (Retouches Storage.fields (IsDefault Storage.ofJson? {})) v v' → EditsField n v v'

theorem step_of_inField {n : String} {P : Json → Json → Prop} (hP : ∀ {w w'}, P w w' → EditsField n w w') {v v' : Json}
    (h : InField fields n P v v') : Step fields (IsDefault ofJson? {}) EditsField v v' := by
  cases h with
  | member hw =>
    refine .member fun name hname => ?_
    obtain rfl := Option.some.inj hname
    exact hP hw
  | item hn hw =>
    refine .item fun name hname => ?_
    obtain rfl := Option.some.inj (hn.symm.trans hname)
    exact hP hw

theorem Edits.step {v v' : Json} (h : Edits v v') : Step fields (IsDefault ofJson? {}) EditsField v v' := by
  cases h with
  | reorder h =>
    cases h with
    | members hperm => exact .reorder hperm
    | inside hv => exact .member fun _ _ => .reorder hv
    | item hv => exact .item fun _ _ => .reorder hv
  | config h => exact .retouch h
  | routine h => exact step_of_inField (.routine rfl) h
  | policy h => exact step_of_inField (.policy rfl) h
  | storage h => exact step_of_inField (.storage rfl) h

section Readers

variable {f : Json → Option (Std.ExtTreeMap String Routine)} {g : Json → Option (Std.ExtTreeMap String Policy)}
  {h : Json → Option (Std.ExtTreeMap String Storage)} {v : Json} {c : Config}

/-- The configuration whose maps are read in a given way. -/
def ofFields? (f : Json → Option (Std.ExtTreeMap String Routine)) (g : Json → Option (Std.ExtTreeMap String Policy))
    (h : Json → Option (Std.ExtTreeMap String Storage)) (v : Json) : Option Config := do
  match ← fields? false fields v with
  | [routines, policies, storages] =>
    some {
      routines := ← orDefault ∅ f routines
      policies := ← orDefault ∅ g policies
      storages := ← orDefault ∅ h storages }
  | _ => none

theorem ofJson?_eq_ofFields? :
    ofJson? = ofFields? (asMap? Routine.ofJson?) (asMap? Policy.ofJson?) (asMap? Storage.ofJson?) := rfl

theorem ofFields?_eq_some_iff : ofFields? f g h v = some c ↔
    ∃ routines policies storages, fields? false fields v = some [routines, policies, storages] ∧
      orDefault ∅ f routines = some c.routines ∧ orDefault ∅ g policies = some c.policies ∧
      orDefault ∅ h storages = some c.storages := by
  constructor
  · intro hc
    obtain ⟨vs, hvs, hc⟩ := Option.bind_eq_some_iff.1 hc
    split at hc
    · obtain ⟨routines, hroutines, hc⟩ := Option.bind_eq_some_iff.1 hc
      obtain ⟨policies, hpolicies, hc⟩ := Option.bind_eq_some_iff.1 hc
      obtain ⟨storages, hstorages, hc⟩ := Option.bind_eq_some_iff.1 hc
      obtain rfl := Option.some.inj hc
      exact ⟨_, _, _, hvs, hroutines, hpolicies, hstorages⟩
    · cases hc
  · rintro ⟨_, _, _, hvs, hroutines, hpolicies, hstorages⟩
    simp [ofFields?, hvs, hroutines, hpolicies, hstorages]

end Readers

/-- A configuration none of whose maps repeats a name. -/
def ofDistinct? : Json → Option Config :=
  ofFields? (asDistinctMap? Routine.ofJson?) (asDistinctMap? Policy.ofJson?) (asDistinctMap? Storage.ofJson?)

theorem default_of_isDefault {v : Json} :
    (IsDefault ofJson? {} "backup-routines" v → asMap? Routine.ofJson? v = some ∅) ∧
    (IsDefault ofJson? {} "backup-policies" v → asMap? Policy.ofJson? v = some ∅) ∧
    (IsDefault ofJson? {} "storage" v → asMap? Storage.ofJson? v = some ∅) := by
  simp [IsDefault, ofJson?, Json.fields?_singleton, fields, orDefault, Option.bind_eq_some_iff]

theorem asDistinctMap?_of_empty {α : Type} {f : Json → Option α} {v : Json} (h : asMap? f v = some ∅) :
    asDistinctMap? f v = some ∅ := by
  obtain rfl := Json.eq_of_asMap?_eq_empty h
  exact Json.asDistinctMap?_eq_some_iff.2 ⟨List.nodup_nil, h⟩

theorem respects_field {α : Type} {f : Json → Option α} {names : List String} {isDefault : String → Json → Prop}
    (hf : Respects (Step names isDefault fun _ => Reorders) f) :
    Respects Reorders (asDistinctMap? f) ∧ Respects (InEntry (Retouches names isDefault)) (asDistinctMap? f) :=
  ⟨Respects.distinctMap fun _ _ h => hf h.step, Respects.inEntry fun _ _ h => hf (.retouch h)⟩

theorem respects_routines : Respects (EditsField "backup-routines") (asDistinctMap? Routine.ofJson?) := by
  intro v v' h
  cases h with
  | reorder h => exact (respects_field Routine.respects_step).1 h
  | routine _ h => exact (respects_field Routine.respects_step).2 h
  | policy hn _ => exact absurd hn (by decide)
  | storage hn _ => exact absurd hn (by decide)

theorem respects_policies : Respects (EditsField "backup-policies") (asDistinctMap? Policy.ofJson?) := by
  intro v v' h
  cases h with
  | reorder h => exact (respects_field Policy.respects_step).1 h
  | routine hn _ => exact absurd hn (by decide)
  | policy _ h => exact (respects_field Policy.respects_step).2 h
  | storage hn _ => exact absurd hn (by decide)

theorem respects_storages : Respects (EditsField "storage") (asDistinctMap? Storage.ofJson?) := by
  intro v v' h
  cases h with
  | reorder h => exact (respects_field Storage.respects_step).1 h
  | routine hn _ => exact absurd hn (by decide)
  | policy hn _ => exact absurd hn (by decide)
  | storage _ h => exact (respects_field Storage.respects_step).2 h

/-- An edit leaves the configuration as it is, and brings about no repeated names. -/
theorem respects_edits : Respects Edits ofDistinct? := by
  intro v v' h c hc
  obtain ⟨_, _, _, hvs, hroutines, hpolicies, hstorages⟩ := ofFields?_eq_some_iff.1 hc
  obtain ⟨vs', hvs', hmoves⟩ := fields?_of_step h.step hvs
  obtain _ | ⟨mroutines, _ | ⟨mpolicies, _ | ⟨mstorages, _ | _⟩⟩⟩ := hmoves
  exact ofFields?_eq_some_iff.2 ⟨_, _, _, hvs',
    orDefault_of_moves respects_routines (fun _ hw => asDistinctMap?_of_empty (default_of_isDefault.1 hw))
      mroutines hroutines,
    orDefault_of_moves respects_policies (fun _ hw => asDistinctMap?_of_empty (default_of_isDefault.2.1 hw))
      mpolicies hpolicies,
    orDefault_of_moves respects_storages (fun _ hw => asDistinctMap?_of_empty (default_of_isDefault.2.2 hw))
      mstorages hstorages⟩

theorem respects_all_edits {v v' : Json} (h : Relation.ReflTransGen Edits v v') {c : Config}
    (hc : ofDistinct? v = some c) : ofDistinct? v' = some c := by
  induction h with
  | refl => exact hc
  | tail _ hstep ih => exact respects_edits hstep c ih

theorem ofJson?_of_ofDistinct? {v : Json} {c : Config} (h : ofDistinct? v = some c) : ofJson? v = some c := by
  have hmap : ∀ {α : Type} {f : Json → Option α} {x : Option Json} {m},
      orDefault ∅ (asDistinctMap? f) x = some m → orDefault ∅ (asMap? f) x = some m := by
    intro α f x m hm
    cases x with
    | none => exact hm
    | some w => exact (Json.asDistinctMap?_eq_some_iff.1 hm).2
  obtain ⟨_, _, _, hvs, hroutines, hpolicies, hstorages⟩ := ofFields?_eq_some_iff.1 h
  rw [ofJson?_eq_ofFields?]
  exact ofFields?_eq_some_iff.2 ⟨_, _, _, hvs, hmap hroutines, hmap hpolicies, hmap hstorages⟩

theorem ofDistinct?_of_distinct {v : Json} (hv : v.Distinct) {c : Config} (h : ofJson? v = some c) :
    ofDistinct? v = some c := by
  rw [ofJson?_eq_ofFields?] at h
  obtain ⟨routines, policies, storages, hvs, hroutines, hpolicies, hstorages⟩ := ofFields?_eq_some_iff.1 h
  have hmap : ∀ {α : Type} {f : Json → Option α} {x : Option Json} {m}, x ∈ [routines, policies, storages] →
      orDefault ∅ (asMap? f) x = some m → orDefault ∅ (asDistinctMap? f) x = some m := by
    intro α f x m hx hm
    cases x with
    | none => exact hm
    | some w => exact Json.asDistinctMap?_eq_some_iff.2 ⟨(hv.of_mem_fields? hvs hx).nodup, hm⟩
  exact ofFields?_eq_some_iff.2 ⟨_, _, _, hvs, hmap (by simp) hroutines, hmap (by simp) hpolicies,
    hmap (by simp) hstorages⟩

/-- A text whose value differs by edits only from that of a text without repeated names is read as the same
configuration, and so planned alike. -/
theorem ofText?_of_edits {s s' : String} {v v' : Json} {c : Config} (hs : Json.parse s = some v)
    (hs' : Json.parse s' = some v') (hdistinct : v.Distinct) (hedits : Relation.ReflTransGen Edits v v')
    (hc : ofText? s = some c) :
    ofText? s' = some c ∧ (ofText? s').map Plan.build = some (Plan.build c) := by
  have hc' : ofText? s' = some c := by
    rw [ofText?, hs] at hc
    rw [ofText?, hs']
    exact ofJson?_of_ofDistinct? (respects_all_edits hedits (ofDistinct?_of_distinct hdistinct hc))
  exact ⟨hc', congrArg (Option.map Plan.build) hc'⟩

/-- The only routine gets an unknown member and loses its empty list, and the two members left change places. -/
theorem ofText?_of_edits_daily :
    let file (ms : List (String × Json)) : Json :=
      .ofMembers [("backup-routines", .ofMembers [("daily", .ofMembers ms)]), ("storage", .ofMembers [])]
    let v := file [("backup-policy", .text "gold"), ("interval-cron", .text "@daily"), ("namespaces", .array [])]
    let v' := file [("interval-cron", .text "@daily"), ("note", .text "nightly"), ("backup-policy", .text "gold")]
    Relation.ReflTransGen Edits v v' ∧
      ofText? v'.render = some (empty.withRoutine "daily" { policy := "gold", fullCron := "@daily" }) := by
  intro file v v'
  have hroutine : ∀ {ms ms' : List (String × Json)},
      Retouches Routine.fields (IsDefault Routine.ofJson? {}) (.ofMembers ms) (.ofMembers ms') →
        Edits (file ms) (file ms') := fun h =>
    .routine (@InField.member _ _ _ [] _ _ _ (@InEntry.mk _ [] _ _ _ _ h))
  have hedits : Relation.ReflTransGen Edits v v' := by
    have hdrop : Edits v (file [("backup-policy", .text "gold"), ("interval-cron", .text "@daily")]) :=
      hroutine (@Retouches.drop _ _ [(some "backup-policy", .text "gold"), (some "interval-cron", .text "@daily")] []
        "namespaces" _ rfl)
    have hadd : Edits (file [("backup-policy", .text "gold"), ("interval-cron", .text "@daily")])
        (file [("backup-policy", .text "gold"), ("note", .text "nightly"), ("interval-cron", .text "@daily")]) :=
      hroutine (@Retouches.add _ _ [(some "backup-policy", .text "gold")] _ "note" _ (by decide))
    have hswap : Edits
        (file [("backup-policy", .text "gold"), ("note", .text "nightly"), ("interval-cron", .text "@daily")]) v' :=
      .reorder (@Reorders.inside [] _ _ _ _ (@Reorders.inside [] _ _ _ _ (.members (List.reverse_perm _).symm)))
    exact .tail (.tail (.tail .refl hdrop) hadd) hswap
  have hplain : ∀ {ms : List (String × Json)}, (∀ m ∈ ms, m.2.Plain) → (file ms).Plain := fun hms =>
    .members (by simpa using ⟨.members (by simpa using .members hms), .members (by simp)⟩)
  have hdistinct : v.Distinct := by
    have hdaily : (Json.ofMembers
        [("backup-policy", .text "gold"), ("interval-cron", .text "@daily"), ("namespaces", .array [])]).Distinct :=
      .object (by decide) (by simpa using ⟨.string _, .string _, .array (by simp)⟩)
    have hroutines : (Json.ofMembers [("daily", .ofMembers
        [("backup-policy", .text "gold"), ("interval-cron", .text "@daily"), ("namespaces", .array [])])]).Distinct :=
      .object (by decide) (by simpa using hdaily)
    exact .object (by decide) (by simpa [v, file] using ⟨hroutines, .object List.nodup_nil (by simp)⟩)
  have hparse : Json.parse v.render = some v :=
    (hplain (by simpa using ⟨.text _, .text _, .array (by simp)⟩)).parse_render
  have hparse' : Json.parse v'.render = some v' := (hplain (by simpa using ⟨.text _, .text _, .text _⟩)).parse_render
  have hc : ofText? v.render = some (empty.withRoutine "daily" { policy := "gold", fullCron := "@daily" }) := by
    rw [ofText?, hparse]
    rfl
  exact ⟨hedits, (ofText?_of_edits hparse hparse' hdistinct hedits hc).1⟩

end Config

end Rota
