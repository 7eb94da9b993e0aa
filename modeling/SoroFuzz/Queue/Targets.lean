/-
  SoroFuzz.Queue.Targets — the registry of fuzz targets (`targets.rs`): a manifest's
  targets, checked and indexed by id.

  Not modeled: reading and parsing the manifest file (`load`).

  Proved:
  - `add_ok_iff`: what one turn of the loop accepts, and what it makes of the registry.
  - `fromTargets_indexes`: an accepted manifest's registry indexes its targets.
  - `fromTargets_faithful`: which manifests are accepted, and what `list` and `get` then
    answer.
-/

import Mathlib.Data.List.AList
import SoroFuzz.Runner.Output

namespace SoroFuzz.Queue

open Runner (trim isWhitespace)

structure TargetMethodParam where
  name : String
  ty : String
  deriving DecidableEq, Repr

structure TargetMethod where
  name : String
  params : List TargetMethodParam
  deriving DecidableEq, Repr

structure InvariantInfo where
  id : String
  name : String
  description : String
  deriving DecidableEq, Repr

structure Target where
  id : String
  name : String
  contractName : String
  methods : List TargetMethod
  availableInvariants : List InvariantInfo
  fuzzTargetName : String
  knownBuggy : Bool
  deriving DecidableEq, Repr

/-- The error that `from_targets` returns. -/
inductive TargetsError where
  | invalid (message : String)
  deriving DecidableEq, Repr

structure TargetRegistry where
  byId : AList fun _ : String => Target
  /-- The ids in manifest order. -/
  order : List String

namespace TargetRegistry

/-- One turn of the loop of `from_targets`. -/
def add (reg : TargetRegistry) (target : Target) : Except TargetsError TargetRegistry :=
  if trim target.id.toList = [] then .error (.invalid "target with empty id")
  else if trim target.fuzzTargetName.toList = [] then
    .error (.invalid ("target `" ++ target.id ++ "` has an empty fuzz_target_name"))
  else if target.id ∈ reg.byId then .error (.invalid ("duplicate target id `" ++ target.id ++ "`"))
  else .ok ⟨reg.byId.insert target.id target, reg.order ++ [target.id]⟩

def fromTargets (targets : List Target) : Except TargetsError TargetRegistry := targets.foldlM add ⟨∅, []⟩

def get (reg : TargetRegistry) (id : String) : Option Target := reg.byId.lookup id

def list (reg : TargetRegistry) : List Target := reg.order.filterMap reg.get

end TargetRegistry

/-! ## The loop -/

/-- Neither the id nor the fuzz target name is blank. -/
def Target.Named (t : Target) : Prop :=
  (∃ c ∈ t.id.toList, isWhitespace c = false) ∧ ∃ c ∈ t.fuzzTargetName.toList, isWhitespace c = false

namespace TargetRegistry

/-- The registry finds each target by its id, and has the ids in order. -/
structure Indexes (reg : TargetRegistry) (targets : List Target) : Prop where
  get_iff : ∀ id t, reg.get id = some t ↔ t ∈ targets ∧ t.id = id
  order : reg.order = targets.map Target.id

theorem trim_eq_nil_iff {s : List Char} : trim s = [] ↔ ∀ c ∈ s, isWhitespace c = true := by
  rw [trim, List.rdropWhile_eq_nil_iff]
  constructor
  · intro h
    rw [← List.dropWhile_eq_nil_iff]
    by_contra hne
    -- the first character kept is no whitespace
    have hhead := List.head_dropWhile_not isWhitespace hne
    rw [h _ (List.head_mem hne)] at hhead
    cases hhead
  · intro h c hc
    exact h c ((List.dropWhile_sublist _).subset hc)

theorem trim_ne_nil_iff {s : List Char} : trim s ≠ [] ↔ ∃ c ∈ s, isWhitespace c = false := by
  rw [Ne, trim_eq_nil_iff]
  simp

variable {reg reg' : TargetRegistry} {t : Target} {targets pre : List Target}

theorem add_ok_iff : reg.add t = .ok reg' ↔
    t.Named ∧ t.id ∉ reg.byId ∧ reg' = ⟨reg.byId.insert t.id t, reg.order ++ [t.id]⟩ := by
  rw [Target.Named, ← trim_ne_nil_iff, ← trim_ne_nil_iff, add]
  split
  · rename_i hid
    simp [hid]
  · rename_i hid
    split
    · rename_i hname
      simp [hname]
    · rename_i hname
      split
      · rename_i hdup
        simp [hdup]
      · rename_i hnew
        constructor
        · intro hok
          cases hok
          exact ⟨⟨hid, hname⟩, hnew, rfl⟩
        · rintro ⟨-, -, rfl⟩
          rfl

theorem Indexes.mem_byId (h : Indexes reg pre) {id : String} : id ∈ reg.byId ↔ id ∈ pre.map Target.id := by
  rw [← AList.lookup_isSome, Option.isSome_iff_exists, List.mem_map]
  exact exists_congr fun t => h.get_iff id t

theorem Indexes.insert (h : Indexes reg pre) (hid : t.id ∉ reg.byId) :
    Indexes ⟨reg.byId.insert t.id t, reg.order ++ [t.id]⟩ (pre ++ [t]) where
  order := by rw [h.order, List.map_append]; rfl
  get_iff id u := by
    rw [List.mem_append, List.mem_singleton]
    by_cases hu : id = t.id
    · subst hu
      have hno : ∀ v ∈ pre, v.id ≠ t.id := fun v hv hvt => hid (h.mem_byId.mpr (hvt ▸ List.mem_map_of_mem hv))
      rw [get, AList.lookup_insert, Option.some.injEq]
      constructor
      · rintro rfl
        exact ⟨Or.inr rfl, rfl⟩
      · rintro ⟨hmem, hut⟩
        rcases hmem with hmem | rfl
        · exact absurd hut (hno u hmem)
        · rfl
    · rw [get, AList.lookup_insert_ne hu]
      refine (h.get_iff id u).trans ⟨fun hm => ⟨Or.inl hm.1, hm.2⟩, ?_⟩
      rintro ⟨hmem, rfl⟩
      rcases hmem with hmem | rfl
      · exact ⟨hmem, rfl⟩
      · exact absurd rfl hu

theorem foldlM_add_indexes (h : Indexes reg pre) (hok : targets.foldlM add reg = .ok reg') :
    Indexes reg' (pre ++ targets) := by
  induction targets generalizing reg pre with
  | nil => cases hok; rwa [List.append_nil]
  | cons t targets ih =>
    rw [List.foldlM_cons] at hok
    cases ht : reg.add t with
    | error e => rw [ht] at hok; cases hok
    | ok reg1 =>
      rw [ht] at hok
      obtain ⟨-, hid, rfl⟩ := add_ok_iff.mp ht
      have := ih (h.insert hid) hok
      rwa [List.append_assoc] at this

theorem foldlM_add_ok_iff (h : Indexes reg pre) (hpre : (pre.map Target.id).Nodup) :
    (∃ reg', targets.foldlM add reg = .ok reg') ↔
      (∀ t ∈ targets, t.Named) ∧ ((pre ++ targets).map Target.id).Nodup := by
  induction targets generalizing reg pre with
  | nil =>
    rw [List.append_nil]
    exact iff_of_true ⟨reg, rfl⟩ ⟨by simp, hpre⟩
  | cons t targets ih =>
    rw [List.foldlM_cons, List.forall_mem_cons, List.append_cons]
    have hsnoc : ((pre ++ [t]).map Target.id).Nodup ↔ t.id ∉ pre.map Target.id := by
      rw [List.map_append, List.nodup_append]
      simp [hpre]
    cases ht : reg.add t with
    | error e =>
      refine iff_of_false (fun hex => by obtain ⟨_, hex⟩ := hex; cases hex) fun hall => ?_
      -- what follows the refused target does not matter
      have hnd := (List.nodup_append.mp (List.map_append ▸ hall.2)).1
      have := add_ok_iff.mpr ⟨hall.1.1, h.mem_byId.not.mpr (hsnoc.mp hnd), rfl⟩
      rw [ht] at this
      cases this
    | ok reg1 =>
      obtain ⟨hnamed, hid, rfl⟩ := add_ok_iff.mp ht
      refine (ih (h.insert hid) (hsnoc.mpr (h.mem_byId.not.mp hid))).trans ?_
      exact and_congr_left' ⟨fun hall => ⟨hnamed, hall⟩, And.right⟩

/-! ## from_targets -/

theorem empty_indexes : Indexes ⟨∅, []⟩ [] := ⟨fun id t => by simp [get], rfl⟩

theorem fromTargets_indexes (hok : fromTargets targets = .ok reg) : Indexes reg targets :=
  foldlM_add_indexes empty_indexes hok

theorem Indexes.list_eq (h : Indexes reg targets) : reg.list = targets := by
  rw [list, h.order, List.filterMap_map]
  calc targets.filterMap (reg.get ∘ Target.id)
      = targets.filterMap some := List.filterMap_congr fun t ht => (h.get_iff t.id t).mpr ⟨ht, rfl⟩
    _ = targets := List.filterMap_some

/-- A manifest is accepted exactly when no id and no fuzz target name is blank and the
    ids differ. Then `list` is the manifest, and `get` finds the one target of an id. -/
theorem fromTargets_faithful (targets : List Target) :
    ((∃ reg, fromTargets targets = .ok reg) ↔
      (∀ t ∈ targets, t.Named) ∧ (targets.map Target.id).Nodup) ∧
    ∀ reg, fromTargets targets = .ok reg →
      reg.list = targets ∧
      (∀ t ∈ targets, reg.get t.id = some t) ∧
      (∀ id t, reg.get id = some t → t ∈ targets ∧ t.id = id) ∧
      ∀ id, (∀ t ∈ targets, t.id ≠ id) → reg.get id = none := by
  refine ⟨foldlM_add_ok_iff empty_indexes (by simp), fun reg hok => ?_⟩
  have h := fromTargets_indexes hok
  refine ⟨h.list_eq, fun t ht => (h.get_iff t.id t).mpr ⟨ht, rfl⟩, fun id t => (h.get_iff id t).mp, fun id hid => ?_⟩
  rw [Option.eq_none_iff_forall_ne_some]
  intro t ht
  obtain ⟨hmem, hidt⟩ := (h.get_iff id t).mp ht
  exact hid t hmem hidt

/-- The manifest of the example contracts, as the tests of `targets.rs` fill it in. -/
def manifest : List Target :=
  ["counter", "token", "escrow"].map fun id =>
    { id, name := id, contractName := id, methods := [], availableInvariants := [],
      fuzzTargetName := id ++ "_fuzz", knownBuggy := false }

theorem fromTargets_faithful_manifest : ∃ reg, fromTargets manifest = .ok reg ∧ reg.list = manifest := by
  obtain ⟨hok, hall⟩ := fromTargets_faithful manifest
  have hnamed : ∀ t ∈ manifest, t.Named := by
    intro t ht
    simp only [manifest, List.map_cons, List.map_nil, List.mem_cons, List.not_mem_nil, or_false] at ht
    rcases ht with rfl | rfl | rfl
    · exact ⟨⟨'c', by decide, rfl⟩, ⟨'c', by decide, rfl⟩⟩
    · exact ⟨⟨'t', by decide, rfl⟩, ⟨'t', by decide, rfl⟩⟩
    · exact ⟨⟨'e', by decide, rfl⟩, ⟨'e', by decide, rfl⟩⟩
  obtain ⟨reg, hreg⟩ := hok.mpr ⟨hnamed, by decide⟩
  exact ⟨reg, hreg, (hall reg hreg).1⟩

end TargetRegistry

end SoroFuzz.Queue
