/-
  SoroFuzz.Server.Start — what `main` starts (`main.rs`, `worker/mod.rs`), and what its
  workers then run.

  `main` reads the configuration and the manifest, and gives the same registry to the
  workers and to the HTTP handlers. `targets.rs` promises that no request leads to a
  target that is not in the manifest.

  Not modeled: connecting to Postgres and migrating it, serving, and shutting down.

  Proved:
  - `requested_began`: in every run of the servers, a campaign that is created was
    requested, by a `POST /campaigns` that was accepted.
  - `only_manifest_targets`: so every command that is spawned is one for a target of the
    manifest, and has nothing of a request in it but the number of seconds.
-/

import SoroFuzz.Api.Campaigns
import SoroFuzz.Queue.Origin
import SoroFuzz.Runner.Subprocess
import SoroFuzz.Server.Config

namespace SoroFuzz.Runner

/-! ## runner/sandbox.rs: the command that is spawned -/

structure Command where
  program : String
  args : List String
  currentDir : Option String
  deriving DecidableEq, Repr

def LocalSandbox.command (program : String) (args : List String) (cwd : String) : Command := ⟨program, args, some cwd⟩

def DockerExecSandbox.command (container program : String) (args : List String) (cwd : String) : Command :=
  ⟨"docker", ["exec", "-w", cwd, container, program] ++ args, none⟩

end SoroFuzz.Runner

namespace SoroFuzz.Server

open SoroFuzz.Store
open SoroFuzz.Queue
open SoroFuzz.Api
open SoroFuzz.Runner

/-! ## main -/

/-- The sandbox that `main` picks, by what it spawns. -/
def SandboxKind.command : SandboxKind → String → List String → String → Command
  | .direct => LocalSandbox.command
  | .dockerExec container => DockerExecSandbox.command container

theorem storable_toString (n : Nat) : storable (toString n) = true := by
  refine List.all_eq_true.mpr fun c hc => decide_eq_true ?_
  have hdigit : c.isDigit = true :=
    Nat.isDigit_of_mem_toDigits (b := 10) (n := n) (by decide) (by decide) (by simpa [toString, Nat.repr] using hc)
  rintro rfl
  exact absurd hdigit (by decide)

def workerId (pid i : Nat) : String := "worker-" ++ toString pid ++ "-" ++ toString i

theorem workerId_storable (pid i : Nat) : storable (workerId pid i) = true := by
  have hworker : storable "worker-" = true := by decide
  have hdash : storable "-" = true := by decide
  simp only [workerId, storable_append, storable_toString, hworker, hdash, Bool.and_true]

/-- `spawn_pool`, in the process `pid`. -/
def spawnPool (count pid : Nat) (targets : TargetRegistry) (fuzzSanitizer : Option String) : List Worker :=
  (List.range (max count 1)).map fun i => ⟨workerId pid i, workerId_storable pid i, targets, fuzzSanitizer⟩

structure Started where
  state : AppState
  runner : SubprocessRunner
  sandbox : SandboxKind
  workers : List Worker

/-- What `main` starts in the process `pid`, of a configuration and a registry. -/
def start {A : Type} (config : Config A) (targets : TargetRegistry) (pid : Nat) : Started where
  state := ⟨targets, maxTimeBudgetSecs (UInt64.ofNat config.jobTimeout)⟩
  runner := ⟨config.fuzzWorkspaceDir, config.rustToolchain, config.fuzzSanitizer, config.jobTimeout⟩
  sandbox := config.fuzzSandbox
  workers := spawnPool config.maxConcurrentCampaigns pid targets config.fuzzSanitizer

/-- The command that `run` has its sandbox spawn for a job. -/
def Started.command (server : Started) (job : RunJob) : Command :=
  server.sandbox.command "cargo" (server.runner.buildArgs job) server.runner.fuzzWorkspaceDir

/-- Server processes with one manifest, on one database. Worker `k` is one of process
    `home k`. -/
structure Fleet (A : Type) where
  targets : TargetRegistry
  config : Nat → Config A
  pid : Nat → Nat
  home : Nat → Nat
  workers : Nat → Worker
  pooled : ∀ k, workers k ∈ spawnPool (config (home k)).maxConcurrentCampaigns (pid (home k)) targets
    (config (home k)).fuzzSanitizer

def Fleet.server {A : Type} (f : Fleet A) (p : Nat) : Started := start (f.config p) f.targets (f.pid p)

/-! ## Every run of the servers -/

/-- A campaign is created only for a `POST /campaigns` that a process accepted. -/
def Posted {A : Type} (f : Fleet A) : Act → Prop
  | .api (.createCampaign _ _ _ input) => ∃ p body, createCampaign (f.server p).state body = .ok input
  | _ => True

inductive Serves {A : Type} (f : Fleet A) : World → Prop
  | init : Serves f World.init
  | step {s s' : World} (a : Act) : Serves f s → Posted f a → World.step f.workers s a = some s' → Serves f s'

section runs
variable {A : Type} {f : Fleet A} {ws : Nat → Worker} {s : World}

theorem Serves.reach (h : Serves f s) : World.Reach f.workers s := by
  induction h with
  | init => exact .init
  | step a _ _ hs ih => exact .step a ih hs

theorem Fleet.targets_eq (f : Fleet A) (k : Nat) : (f.workers k).targets = f.targets := by
  obtain ⟨i, -, hi⟩ := List.mem_map.mp (f.pooled k)
  rw [← hi]

theorem observe_not_began (pg : Pg) (a : PgAct) (tx : Nat) (c : Call) : .began tx c ∉ World.observe pg a := by
  cases a with
  | tick | start => simp [World.observe]
  | exec i | commit i | abort i =>
    simp only [World.observe]
    split
    · split <;> simp
    · simp

/-- Only the handlers and the workers' calls begin transactions. -/
theorem began_by {s s' : World} {a : Act} (hs : World.step ws s a = some s') {tx : Nat} {c : Call}
    (hm : .began tx c ∈ s'.log) :
    .began tx c ∈ s.log ∨ a = .api c ∨ ∃ (op : StoreOp) (tie ids : Nat → Nat), c = op.call tie ids := by
  cases a with
  | pg a =>
    left
    have hlog : s'.log = World.observe s.pg a ++ s.log := by
      cases a with
      | start => cases hs
      | tick =>
        cases hs
        rfl
      | _ =>
        obtain ⟨pg, -, rfl⟩ := Option.map_eq_some_iff.mp hs
        rfl
    rw [hlog] at hm
    exact (List.mem_append.mp hm).resolve_left (observe_not_began _ _ _ _)
  | api call =>
    simp only [World.step] at hs
    split at hs
    · obtain ⟨pg, -, rfl⟩ := Option.map_eq_some_iff.mp hs
      rcases List.mem_cons.mp hm with heq | hm
      · cases heq
        exact Or.inr (Or.inl rfl)
      · exact Or.inl hm
    · cases hs
  | call k tie ids =>
    simp only [World.step] at hs
    split at hs
    · rename_i op next hk
      obtain ⟨s1, hs1, rfl⟩ := Option.map_eq_some_iff.mp hs
      obtain ⟨pg, -, rfl⟩ := Option.map_eq_some_iff.mp hs1
      rcases List.mem_cons.mp ((List.mem_cons.mp hm).resolve_left (by intro heq; cases heq)) with heq | hm
      · cases heq
        exact Or.inr (Or.inr ⟨op, tie, ids, rfl⟩)
      · exact Or.inl hm
    · cases hs
  | reply k =>
    simp only [World.step] at hs
    split at hs
    · obtain ⟨r, -, rfl⟩ := Option.map_eq_some_iff.mp hs
      exact Or.inl ((List.mem_cons.mp hm).resolve_left (by intro heq; cases heq))
    · cases hs
  | poll k | fail k | proceed k | answer k a =>
    left
    simp only [World.step] at hs
    split at hs
    all_goals first
      | cases hs; simpa [World.goto] using hm
      | cases hs

/-- A campaign that was created was requested, and the request was accepted. -/
theorem requested_began (h : Serves f s) {tx : Nat} {id runId jobId : Uuid} {input : NewCampaign}
    (hm : .began tx (.createCampaign id runId jobId input) ∈ s.log) :
    ∃ p body, createCampaign (f.server p).state body = .ok input := by
  induction h with
  | init => cases hm
  | step a _ hposted hs ih =>
    rcases began_by hs hm with hold | rfl | ⟨op, tie, ids, hop⟩
    · exact ih hold
    · exact hposted
    · cases op <;> cases hop

/-! ## What is run -/

/-- The command for a target, with the seconds it may take. -/
def Started.fuzz (server : Started) (target : Target) (secs : Nat) : Command :=
  server.sandbox.command "cargo"
    (["+" ++ server.runner.rustToolchain, "fuzz", "run"] ++
      (server.runner.fuzzSanitizer.map fun sanitizer => "--sanitizer=" ++ sanitizer).toList ++
      [target.fuzzTargetName, "--", "-max_total_time=" ++ toString secs]) server.runner.fuzzWorkspaceDir

theorem command_eq (server : Started) {job : RunJob} {target : Target}
    (ht : job.fuzzTargetName = target.fuzzTargetName) :
    server.command job = server.fuzz target job.timeBudgetSecs := by
  rw [Started.command, Started.fuzz, SubprocessRunner.buildArgs, ht]
  cases server.runner.fuzzSanitizer <;> rfl

/-- Each job that a worker gives the runner was requested, of a target of the manifest
    and of invariants of that target, and the command it is run with is one for that
    target. -/
theorem only_manifest_targets {manifest : List Target} (hmanifest : TargetRegistry.fromTargets manifest = .ok f.targets)
    (h : Serves f s) {k : Nat} {job : RunJob} (hm : .invoked k job ∈ s.log) :
    ∃ p body input jobId, createCampaign (f.server p).state body = .ok input ∧
      Created (World.commits s.log) job.campaignId job.runId jobId input ∧
      ∃ target ∈ manifest, target.id = body.targetId ∧
        (∀ id ∈ job.invariantIds, id ∈ target.availableInvariants.map (·.id)) ∧
        job.timeBudgetSecs = (max input.timeBudgetSecs 0).toNat ∧
        (f.server (f.home k)).command job = (f.server (f.home k)).fuzz target job.timeBudgetSecs := by
  obtain ⟨jobId, input, hc, target, ht, hjob⟩ := ordered h.reach hm
  obtain ⟨tx, row, hcommitted⟩ := hc
  obtain ⟨hbegan, -⟩ := (reach_sound h.reach).committed _ _ _ (World.mem_commits.mp hcommitted)
  obtain ⟨p, body, hbody⟩ := requested_began h hbegan
  obtain ⟨⟨target', ht', hinv⟩, -, -, hinput⟩ := createCampaign_ok hbody
  have hindexes := TargetRegistry.fromTargets_indexes hmanifest
  rw [f.targets_eq k] at ht
  have hid : input.targetId = body.targetId := by rw [hinput]
  -- The worker finds the target that the handler checked.
  have hsame : target' = target := by
    rw [hid] at ht
    exact Option.some.inj (ht'.symm.trans ht)
  subst hsame
  obtain ⟨hmem, htid⟩ := (hindexes.get_iff _ _).mp ht
  have hids : job.invariantIds = body.invariantIds := by rw [hjob, hinput]
  refine ⟨p, body, input, jobId, hbody, ⟨tx, row, hcommitted⟩, target', hmem, htid.trans hid, hids ▸ hinv, ?_, ?_⟩
  · rw [hjob]
  · exact command_eq _ (by rw [hjob])

theorem play_serves {as : List Act} {s' : World} (h : Serves f s) (hposted : ∀ a ∈ as, Posted f a)
    (hp : World.play f.workers s as = some s') : Serves f s' := by
  induction as generalizing s with
  | nil => cases hp; exact h
  | cons a as ih =>
    obtain ⟨s1, h1, h2⟩ := Option.bind_eq_some_iff.mp hp
    obtain ⟨ha, has⟩ := List.forall_mem_cons.mp hposted
    exact ih (.step a h ha h1) has h2

end runs

def tokenManifest : List Target := [⟨"token", "token", "Token", [], [], "token_fuzz", false⟩]

/-- One process with one worker, and a manifest of one target. -/
def tokenFleet : Fleet Unit where
  targets := tokenWorker.targets
  config _ :=
    { databaseUrl := "postgres://localhost/fuzz", httpAddr := (), targetsDir := "examples", defaultBudgetSecs := 60
      maxConcurrentCampaigns := 1, rustToolchain := "nightly", fuzzSanitizer := none
      fuzzSandbox := .dockerExec "toolchain", fuzzWorkspaceDir := "fuzz", jobTimeout := 600, logLevel := "info" }
  pid _ := 1
  home _ := 0
  workers _ := tokenWorker
  pooled _ := List.mem_map.mpr ⟨0, by decide, rfl⟩

/-- The job that the first worker gives the runner. -/
def given : Queue.Event → Option RunJob
  | .invoked 0 job => some job
  | _ => none

theorem invoked_of_given {e : Queue.Event} {job : RunJob} (h : given e = some job) : e = .invoked 0 job := by
  unfold given at h
  split at h
  · cases h
    rfl
  · cases h

theorem only_manifest_targets_token : ∃ s job, Serves tokenFleet s ∧ .invoked 0 job ∈ s.log ∧
    ∃ p body input jobId, createCampaign (tokenFleet.server p).state body = .ok input ∧
      Created (World.commits s.log) job.campaignId job.runId jobId input ∧
      ∃ target ∈ tokenManifest, target.id = body.targetId ∧
        (∀ id ∈ job.invariantIds, id ∈ target.availableInvariants.map (·.id)) ∧
        job.timeBudgetSecs = (max input.timeBudgetSecs 0).toNat ∧
        (tokenFleet.server (tokenFleet.home 0)).command job =
          (tokenFleet.server (tokenFleet.home 0)).fuzz target job.timeBudgetSecs := by
  let acts := World.createAct ++ World.claimAct ++ World.startAct
  obtain ⟨s, hs⟩ := Option.isSome_iff_exists.mp
    (show (World.play tokenFleet.workers World.init acts).isSome = true by decide)
  have hinvoked : (World.play tokenFleet.workers World.init acts).any (fun s =>
      s.log.any fun e => (given e).isSome) = true := by decide
  rw [hs] at hinvoked
  obtain ⟨e, he, hgiven⟩ := List.any_eq_true.mp (show s.log.any _ = true from hinvoked)
  obtain ⟨job, hjob⟩ := Option.isSome_iff_exists.mp hgiven
  obtain rfl := invoked_of_given hjob
  have hposted : ∀ a ∈ acts, Posted tokenFleet a := by
    refine List.forall_mem_cons.mpr ⟨⟨0, ⟨"token", "nightly", [], .wrap 60⟩, rfl⟩, ?_⟩
    simp [World.claimAct, World.startAct, Posted]
  have h := play_serves .init hposted hs
  have hmanifest : TargetRegistry.fromTargets tokenManifest = .ok tokenFleet.targets := rfl
  exact ⟨s, job, h, he, only_manifest_targets hmanifest h he⟩

end SoroFuzz.Server
