/-
  SoroFuzz.Server.Sync — the `targets` table, which every server writes its manifest to
  when it starts (`main.rs`, `store/postgres.rs: sync_targets`).

  Any number of servers start at any time, each with its own registry, beside each other.
  A campaign's row references its target's, so the table must have every target that a
  server which is up accepts campaigns for.

  Proved:
  - `sync_exact`: in every interleaving, a target's row is the one of the server that synced
    it last, dated at the first that did; so a campaign that a server accepts has its
    target's row.
  - `restarts_complete`: servers whose manifests agree on an order of their targets never
    block each other for good, and none has to be aborted; `crossed_manifests_stuck`:
    others can.

  Not modeled: a text with a U+0000 in a manifest, which Postgres refuses and the server
  then does not start.
-/

import SoroFuzz.Api.Campaigns
import SoroFuzz.Lib.Script

namespace SoroFuzz.Server

open SoroFuzz.Store (DateTime NewCampaign)
open SoroFuzz.Queue
open SoroFuzz.Api (AppState CreateCampaignRequest createCampaign createCampaign_ok)
open Lib.ReadCommitted (Db Prog Run init)
open Lib.Script

/-! ## sync_targets -/

structure TargetRow where
  name : String
  contractName : String
  methods : List TargetMethod
  availableInvariants : List InvariantInfo
  fuzzTargetName : String
  knownBuggy : Bool
  addedAt : DateTime
  deriving DecidableEq, Repr

/-- The table, by `id`. -/
abbrev Targets : String → Type := fun _ => TargetRow

/-- The row of a target that was first synced at `addedAt`. -/
def row (target : Target) (addedAt : DateTime) : TargetRow where
  name := target.name
  contractName := target.contractName
  methods := target.methods
  availableInvariants := target.availableInvariants
  fuzzTargetName := target.fuzzTargetName
  knownBuggy := target.knownBuggy
  addedAt := addedAt

/-- `INSERT INTO targets .. ON CONFLICT (id) DO UPDATE SET ..`. -/
def upsert (now : DateTime) (target : Target) : Stmt Targets Unit where
  label := ()
  writes v :=
    [⟨target.id, some <|
      match v.rows.lookup target.id with
      | some r =>
        { r with
          name := target.name
          contractName := target.contractName
          methods := target.methods
          availableInvariants := target.availableInvariants
          fuzzTargetName := target.fuzzTargetName
          knownBuggy := target.knownBuggy }
      | none => row target now⟩]

def syncTargets (targets : List Target) (now : DateTime) : Prog Targets Unit Unit :=
  script () (targets.map (upsert now))

theorem upsert_local (now : DateTime) (target : Target) : Local (upsert now target) := by
  intro v v' h
  have hid : v.rows.lookup target.id = v'.rows.lookup target.id := h target.id (by simp [upsert])
  simp only [upsert, hid]

theorem runAll_upsert (now : DateTime) (target : Target) (d : Db Targets) (id : String) :
    (Lib.ReadCommitted.applyAll ((upsert now target).writes (quiet d)) d).lookup id =
      if id = target.id then some (row target ((d.lookup id).elim now (·.addedAt))) else d.lookup id := by
  by_cases hid : id = target.id
  · subst hid
    simp only [upsert, quiet, Lib.ReadCommitted.applyAll_cons, Lib.ReadCommitted.apply_some,
      Lib.ReadCommitted.applyAll_nil, AList.lookup_insert, if_true]
    cases d.lookup target.id with
    | none => rfl
    | some r => rfl
  · simp only [upsert, quiet, Lib.ReadCommitted.applyAll_cons, Lib.ReadCommitted.apply_some,
      Lib.ReadCommitted.applyAll_nil, AList.lookup_insert_ne hid, if_neg hid]

/-- A target of the list gets its row, and no other does. -/
theorem runAll_targets (now : DateTime) (id : String) (targets : List Target) : ∀ d : Db Targets,
    (targets.map Target.id).Nodup →
    (∀ t ∈ targets, t.id = id → (runAll (targets.map (upsert now)) d).lookup id =
      some (row t ((d.lookup id).elim now (·.addedAt)))) ∧
    ((∀ t ∈ targets, t.id ≠ id) → (runAll (targets.map (upsert now)) d).lookup id = d.lookup id) := by
  induction targets with
  | nil => exact fun d _ => ⟨nofun, fun _ => rfl⟩
  | cons u targets ih =>
    intro d hnd
    rw [List.map_cons, List.nodup_cons] at hnd
    obtain ⟨hin, hout⟩ := ih (Lib.ReadCommitted.applyAll ((upsert now u).writes (quiet d)) d) hnd.2
    rw [runAll_upsert] at hin hout
    have hrest : ∀ t ∈ targets, t.id ≠ u.id := fun t ht heq => hnd.1 (heq ▸ List.mem_map_of_mem ht)
    refine ⟨fun t ht hid => ?_, fun hno => ?_⟩
    · rcases List.mem_cons.mp ht with rfl | ht
      · refine (hout fun x hx => hid ▸ hrest x hx).trans ?_
        rw [if_pos hid.symm]
      · have hne : id ≠ u.id := fun heq => hrest t ht (hid.trans heq)
        rw [if_neg hne] at hin
        exact hin t ht hid
    · have hne : id ≠ u.id := fun heq => hno u List.mem_cons_self heq.symm
      rw [if_neg hne] at hout
      exact hout fun t ht => hno t (List.mem_cons_of_mem _ ht)

/-! ## Servers that start beside each other -/

/-- The registries of server processes, each from a manifest that `from_targets` accepted. -/
structure Servers where
  targets : Nat → TargetRegistry
  manifest : Nat → List Target
  loaded : ∀ p, TargetRegistry.fromTargets (manifest p) = .ok (targets p)

namespace Servers
variable (f : Servers)

/-- The transaction of process `p`. -/
def sync (p : Nat) (now : DateTime) : Prog Targets Unit Unit := syncTargets (f.targets p).list now

/-- Of the syncs that committed, newest first, what the last says of the target. -/
def latest (cs : List (Nat × DateTime)) (id : String) : Option Target := cs.findSome? fun c => (f.targets c.1).get id

/-- When the first that had the target began. -/
def addedAt (cs : List (Nat × DateTime)) (id : String) : Option DateTime :=
  (cs.reverse.find? fun c => ((f.targets c.1).get id).isSome).map (·.2)

end Servers

section servers
variable {f : Servers} {cs : List (Nat × DateTime)} {s : Lib.ReadCommitted.St Targets Nat Unit Unit}

theorem Servers.list_eq (f : Servers) (p : Nat) : (f.targets p).list = f.manifest p :=
  (TargetRegistry.fromTargets_indexes (f.loaded p)).list_eq

theorem Servers.nodup (f : Servers) (p : Nat) : ((f.manifest p).map Target.id).Nodup :=
  ((TargetRegistry.foldlM_add_ok_iff TargetRegistry.empty_indexes (by simp)).mp ⟨_, f.loaded p⟩).2

/-- What one sync does to a target's row. -/
theorem runAll_sync (f : Servers) (p : Nat) (now : DateTime) (d : Db Targets) (id : String) :
    (runAll ((f.targets p).list.map (upsert now)) d).lookup id =
      match (f.targets p).get id with
      | some t => some (row t ((d.lookup id).elim now (·.addedAt)))
      | none => d.lookup id := by
  have hindexes := TargetRegistry.fromTargets_indexes (f.loaded p)
  obtain ⟨hin, hout⟩ := runAll_targets now id (f.manifest p) d (f.nodup p)
  rw [f.list_eq]
  cases hget : (f.targets p).get id with
  | some t =>
    obtain ⟨hm, hid⟩ := (hindexes.get_iff id t).mp hget
    exact hin t hm hid
  | none =>
    refine hout fun t hm hid => ?_
    rw [(hindexes.get_iff id t).mpr ⟨hm, hid⟩] at hget
    cases hget

theorem serial_sync (h : Logged f.sync (init Targets Nat Unit Unit) cs s) :
    s.db = cs.foldr (fun c d => runAll ((f.targets c.1).list.map (upsert c.2)) d) ∅ := by
  have hbody : ∀ p now, f.sync p now = script ((fun _ => ()) p) ((f.targets p).list.map (upsert now)) :=
    fun _ _ => rfl
  refine serial hbody (fun p now x hx => ?_) (Lib.ReadCommitted.init_ok trivial) h
  obtain ⟨t, -, rfl⟩ := List.mem_map.mp hx
  exact upsert_local now t

theorem latest_none_iff (id : String) : f.latest cs id = none ↔ f.addedAt cs id = none := by
  simp only [Servers.latest, Servers.addedAt, List.findSome?_eq_none_iff, Option.map_eq_none_iff, List.find?_eq_none,
    List.mem_reverse, Option.not_isSome_iff_eq_none]

theorem addedAt_cons (p : Nat) (now : DateTime) (id : String) : f.addedAt ((p, now) :: cs) id =
    (f.addedAt cs id).or (if ((f.targets p).get id).isSome then some now else none) := by
  rw [Servers.addedAt, List.reverse_cons, List.find?_append, Option.map_or]
  by_cases hget : ((f.targets p).get id).isSome = true
  · simp [Servers.addedAt, hget]
  · simp [Servers.addedAt, hget]

/-- The last sync says what the row is, and the first when it was added. -/
theorem sync_rows (h : Logged f.sync (init Targets Nat Unit Unit) cs s) (id : String) :
    s.db.lookup id = (f.latest cs id).bind fun t => (f.addedAt cs id).map (row t) := by
  rw [serial_sync h]
  clear h
  induction cs with
  | nil => rfl
  | cons c cs ih =>
    obtain ⟨p, now⟩ := c
    rw [List.foldr_cons, runAll_sync, ih, addedAt_cons]
    cases hget : (f.targets p).get id with
    | none => simp [Servers.latest, hget]
    | some t =>
      have hlatest : f.latest ((p, now) :: cs) id = some t := by simp [Servers.latest, hget]
      cases hadded : f.addedAt cs id with
      | none => simp [hlatest]
      | some b =>
        cases hl : f.latest cs id with
        | none =>
          rw [latest_none_iff, hadded] at hl
          cases hl
        | some u => simp [hlatest, row]

/-- The foreign key of a campaign that a server accepts is never violated. -/
theorem accepted_target_stored (h : Logged f.sync (init Targets Nat Unit Unit) cs s) {p : Nat} {now : DateTime}
    (hp : (p, now) ∈ cs) {state : AppState} (hstate : state.targets = f.targets p) {body : CreateCampaignRequest}
    {input : NewCampaign} (hok : createCampaign state body = .ok input) : ∃ r, s.db.lookup input.targetId = some r := by
  obtain ⟨⟨target, hget, -⟩, -, -, hinput⟩ := createCampaign_ok hok
  rw [hstate] at hget
  have hid : input.targetId = body.targetId := by rw [hinput]
  have hlatest : f.latest cs body.targetId ≠ none := by
    intro hnone
    have := List.findSome?_eq_none_iff.mp hnone _ hp
    rw [hget] at this
    cases this
  obtain ⟨t, ht⟩ := Option.ne_none_iff_exists'.mp hlatest
  obtain ⟨b, hb⟩ := Option.ne_none_iff_exists'.mp fun hnone => hlatest ((latest_none_iff _).mpr hnone)
  refine ⟨row t b, ?_⟩
  rw [hid, sync_rows h, ht, hb]
  rfl

/-- What the table holds, and that it has what the servers that are up refer to. -/
theorem sync_exact (h : Logged f.sync (init Targets Nat Unit Unit) cs s) :
    (∀ id, s.db.lookup id = (f.latest cs id).bind fun t => (f.addedAt cs id).map (row t)) ∧
    ∀ p now state body input, (p, now) ∈ cs → state.targets = f.targets p → createCampaign state body = .ok input →
      ∃ r, s.db.lookup input.targetId = some r :=
  ⟨sync_rows h, fun _ _ _ _ _ hp hstate hok => accepted_target_stored h hp hstate hok⟩

def tokenV2 : Target := ⟨"token", "token", "TokenV2", [], [], "token_fuzz", false⟩

/-- Servers of two releases: every second one has a manifest of the new one. -/
def releases : Servers where
  manifest p := if p % 2 = 0 then TargetRegistry.manifest else [tokenV2]
  targets p :=
    if p % 2 = 0 then (TargetRegistry.fromTargets TargetRegistry.manifest).toOption.getD ⟨∅, []⟩
    else (TargetRegistry.fromTargets [tokenV2]).toOption.getD ⟨∅, []⟩
  loaded p := by
    by_cases hp : p % 2 = 0
    · rw [if_pos hp, if_pos hp]
      rfl
    · rw [if_neg hp, if_neg hp]
      rfl

/-- Server 1 starts beside server 0 and waits for it; server 1 commits last. -/
def upgrade : List (Lib.ReadCommitted.Act Nat) :=
  [.start 0 0, .tick 5, .start 1 1, .exec 0, .exec 0, .exec 0, .commit 0, .exec 1, .commit 1]

theorem sync_exact_upgrade : ∃ s, Logged releases.sync (init Targets Nat Unit Unit) [(1, 5), (0, 0)] s ∧
    s.db.lookup "token" = some (row tokenV2 0) ∧ ∃ r, s.db.lookup "escrow" = some r := by
  obtain ⟨s, hs⟩ := Option.isSome_iff_exists.mp
    (show (Lib.ReadCommitted.play releases.sync (fun _ _ => true) (init Targets Nat Unit Unit) upgrade).isSome = true by
      decide)
  have hlog := play_logged upgrade hs
  have hcs : playLog releases.sync (init Targets Nat Unit Unit) upgrade = [(1, 5), (0, 0)] := by decide
  rw [hcs] at hlog
  have hok : createCampaign ⟨releases.targets 0, .wrap 60⟩ ⟨"escrow", "nightly", [], .wrap 60⟩ =
      .ok ⟨"escrow", "nightly", [], 60⟩ := rfl
  obtain ⟨hrows, hstored⟩ := sync_exact hlog
  exact ⟨s, hlog, hrows "token", hstored 0 0 _ _ _ (List.mem_cons_of_mem _ List.mem_cons_self) rfl hok⟩

/-! ## Waiting for each other -/

theorem sync_ascends {rank : String → Nat} (p : Nat) (b now : DateTime) (targets : List Target) :
    ∀ ws : List (Lib.ReadCommitted.Write Targets), (targets.map fun t => rank t.id).Pairwise (· < ·) →
      (∀ k, Lib.ReadCommitted.wrote ws k = true → ∀ t ∈ targets, rank k < rank t.id) →
      Lib.Deadlock.Throughout (Ascends rank p b) (syncTargets targets now) ws := by
  induction targets with
  | nil => exact fun _ _ _ => trivial
  | cons u targets ih =>
    intro ws hsorted hws
    rw [List.map_cons, List.pairwise_cons] at hsorted
    refine ⟨fun v w hw k hk => ?_, fun d locked => ih _ hsorted.2 fun k hk t ht => ?_⟩
    · rw [List.mem_singleton.mp hw]
      exact hws k hk u List.mem_cons_self
    · rw [Lib.ReadCommitted.wrote_append, Bool.or_eq_true] at hk
      rcases hk with hk | hk
      · exact hws k hk t (List.mem_cons_of_mem _ ht)
      · obtain rfl : u.id = k := by simpa [upsert] using hk
        exact hsorted.1 _ (List.mem_map_of_mem ht)

/-- Servers that start beside each other all come up, whatever state they are in, when
    their manifests follow one order: what is in flight commits, with nothing begun or
    aborted meanwhile. -/
theorem restarts_complete {rank : String → Nat}
    (hrank : ∀ p, ((f.manifest p).map fun t => rank t.id).Pairwise (· < ·))
    (h : Run f.sync (fun _ _ => true) (init Targets Nat Unit Unit) s) :
    ∃ cs s', RunsOut f.sync s cs s' ∧ s'.txns = ∅ ∧ ∀ i t, s.txns.lookup i = some t → (t.call, t.began) ∈ cs := by
  have hbody : ∀ p now, f.sync p now = script ((fun _ => ()) p) ((f.targets p).list.map (upsert now)) :=
    fun _ _ => rfl
  have hascends : ∀ p now, Lib.Deadlock.Throughout (Ascends rank p now) (f.sync p now) [] := by
    intro p now
    rw [Servers.sync, f.list_eq]
    exact sync_ascends p now now (f.manifest p) [] (hrank p) nofun
  exact completes hbody hascends h

/-- Server 0 is to write a row that server 1 has locked. -/
theorem restarts_complete_waiting : ∃ s, Lib.ReadCommitted.step releases.sync s (.exec 0) = none ∧
    s.txns.keys = [1, 0] ∧
    ∃ cs s', RunsOut releases.sync s cs s' ∧ s'.txns = ∅ ∧ ∀ i t, s.txns.lookup i = some t → (t.call, t.began) ∈ cs := by
  let acts : List (Lib.ReadCommitted.Act Nat) := [.start 0 0, .start 1 1, .exec 0, .exec 1]
  obtain ⟨s, hs⟩ := Option.isSome_iff_exists.mp
    (show (Lib.ReadCommitted.play releases.sync (fun _ _ => true) (init Targets Nat Unit Unit) acts).isSome = true by
      decide)
  have h : (Lib.ReadCommitted.play releases.sync (fun _ _ => true) (init Targets Nat Unit Unit) acts).any (fun s =>
      (Lib.ReadCommitted.step releases.sync s (.exec 0)).isNone ∧ s.txns.keys = [1, 0]) = true := by decide
  rw [hs] at h
  obtain ⟨hwaits, hkeys⟩ := of_decide_eq_true h
  let rank : String → Nat := fun id => (TargetRegistry.manifest.map Target.id).idxOf id
  have hrank : ∀ p, ((releases.manifest p).map fun t => rank t.id).Pairwise (· < ·) := by
    intro p
    by_cases hp : p % 2 = 0
    · have heven : releases.manifest p = TargetRegistry.manifest := if_pos hp
      rw [heven]
      decide
    · have hodd : releases.manifest p = [tokenV2] := if_neg hp
      rw [hodd]
      decide
  exact ⟨s, Option.isNone_iff_eq_none.mp hwaits, hkeys,
    restarts_complete hrank (Lib.ReadCommitted.play_run _ acts .refl hs)⟩

end servers

/-- Servers of which every second one has its manifest the other way round. -/
def crossed : Servers where
  manifest p := if p % 2 = 0 then TargetRegistry.manifest else TargetRegistry.manifest.reverse
  targets p :=
    if p % 2 = 0 then (TargetRegistry.fromTargets TargetRegistry.manifest).toOption.getD ⟨∅, []⟩
    else (TargetRegistry.fromTargets TargetRegistry.manifest.reverse).toOption.getD ⟨∅, []⟩
  loaded p := by
    by_cases hp : p % 2 = 0
    · rw [if_pos hp, if_pos hp]
      rfl
    · rw [if_neg hp, if_neg hp]
      rfl

/-- Each waits for a row the other has locked, and no third is there. -/
theorem crossed_manifests_stuck : ∃ s, Run crossed.sync (fun _ _ => true) (init Targets Nat Unit Unit) s ∧
    s.txns.keys = [0, 1] ∧
    ∀ i, Lib.ReadCommitted.step crossed.sync s (.exec i) = none ∧
      Lib.ReadCommitted.step crossed.sync s (.commit i) = none := by
  let acts : List (Lib.ReadCommitted.Act Nat) := [.start 0 0, .start 1 1, .exec 1, .exec 1, .exec 0]
  obtain ⟨s, hs⟩ := Option.isSome_iff_exists.mp
    (show (Lib.ReadCommitted.play crossed.sync (fun _ _ => true) (init Targets Nat Unit Unit) acts).isSome = true by
      decide)
  have h : (Lib.ReadCommitted.play crossed.sync (fun _ _ => true) (init Targets Nat Unit Unit) acts).any (fun s =>
      s.txns.keys = [0, 1] ∧ [0, 1].all fun i => (Lib.ReadCommitted.step crossed.sync s (.exec i)).isNone ∧
        (Lib.ReadCommitted.step crossed.sync s (.commit i)).isNone) = true := by decide
  rw [hs] at h
  obtain ⟨hkeys, hstuck⟩ := of_decide_eq_true h
  refine ⟨s, Lib.ReadCommitted.play_run _ acts .refl hs, hkeys, fun i => ?_⟩
  by_cases hi : i ∈ s.txns
  · have hm : i ∈ [0, 1] := hkeys ▸ AList.mem_keys.mp hi
    have hnone := of_decide_eq_true (List.all_eq_true.mp hstuck i hm)
    simpa only [Option.isNone_iff_eq_none] using hnone
  · have hlookup : s.txns.lookup i = none := AList.lookup_eq_none.mpr hi
    simp only [Lib.ReadCommitted.step, hlookup, and_self]

end SoroFuzz.Server
