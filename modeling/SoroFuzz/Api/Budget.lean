/-
  SoroFuzz.Api.Budget — the time budget from the request to libFuzzer's command line
  (`api/campaigns.rs`, `main.rs`, `worker/mod.rs`, `runner/subprocess.rs`).

  The handler checks the request's budget as an `i64`, against a bound that was a `u64`,
  and stores it as an `i32`. What does not fit wraps, at worst to 0, which libFuzzer takes
  for no limit.

  Proved:
  - `accepted_bounds`: an accepted budget is at least 1 and at most `JOB_TIMEOUT_SECONDS`,
    whatever that is.
  - `survives_iff`: it is what is stored and what libFuzzer is given, in every reachable
    world, exactly when it is below 2 ^ 31.
-/

import SoroFuzz.Api.Campaigns
import SoroFuzz.Queue.Budget
import SoroFuzz.Runner.Subprocess

namespace SoroFuzz.Api

open Lib (SInt)
open Queue
open Runner (SubprocessRunner)
open SoroFuzz.Store

/-- The budget is stored, and passed to libFuzzer in every job of the campaign, as it was
    requested. -/
structure Survives (jobTimeoutSeconds : UInt64) (budget : Int) (campaignId : Uuid) (s : World) : Prop where
  lower : 1 ≤ budget
  upper : budget ≤ jobTimeoutSeconds.toNat
  stored : ∃ c, Db.campaign s.pg.db campaignId = some c ∧ c.timeBudgetSecs = budget
  passed : ∀ k job, .invoked k job ∈ s.log → job.campaignId = campaignId → ∀ runner : SubprocessRunner,
    (runner.buildArgs job).getLast? = some ("-max_total_time=" ++ toString budget)

variable {ws : Nat → Worker} {s : World} {jobTimeoutSeconds : UInt64} {targets : TargetRegistry}
  {body : CreateCampaignRequest} {input : NewCampaign}

theorem maxTimeBudgetSecs_le : (maxTimeBudgetSecs jobTimeoutSeconds).val ≤ jobTimeoutSeconds.toNat :=
  SInt.wrap_val_le (w := 63) (Int.natCast_nonneg _)

theorem accepted_bounds (h : createCampaign ⟨targets, maxTimeBudgetSecs jobTimeoutSeconds⟩ body = .ok input) :
    1 ≤ body.timeBudgetSecs.val ∧ body.timeBudgetSecs.val ≤ jobTimeoutSeconds.toNat := by
  obtain ⟨-, hl, hu, -⟩ := createCampaign_ok h
  exact ⟨hl, Int.le_trans hu maxTimeBudgetSecs_le⟩

/-- `as i32` keeps what is below 2 ^ 31. -/
theorem as_i32_iff {b : Int} (hb : 1 ≤ b) : (SInt.wrap b : I32).val = b ↔ b < 2 ^ 31 := by
  constructor
  · intro h
    rw [← h]
    exact (SInt.wrap b : I32).upper
  · exact fun h => SInt.wrap_val (w := 31) (by omega) h

theorem buildArgs_getLast? (runner : SubprocessRunner) (job : RunJob) :
    (runner.buildArgs job).getLast? = some ("-max_total_time=" ++ toString job.timeBudgetSecs) := by
  rw [SubprocessRunner.buildArgs, List.getLast?_append]
  rfl

theorem survives_iff (h : World.Reach ws s)
    (haccepted : createCampaign ⟨targets, maxTimeBudgetSecs jobTimeoutSeconds⟩ body = .ok input)
    {tx : Nat} {campaignId runId jobId : Uuid} {row : CampaignRecord}
    (hcreated : .committed tx (.createCampaign campaignId runId jobId input) (.created row) ∈ s.log) :
    Survives jobTimeoutSeconds body.timeBudgetSecs.val campaignId s ↔ body.timeBudgetSecs.val < 2 ^ 31 := by
  have hb := budgeted h
  obtain ⟨hl, hu⟩ := accepted_bounds haccepted
  obtain ⟨c, hc, hin⟩ := hb.created tx campaignId runId jobId input row hcreated
  have hinput : input.timeBudgetSecs = (SInt.wrap body.timeBudgetSecs.val : I32).val := by
    rw [(createCampaign_ok haccepted).2.2.2]
  have hstored : c.timeBudgetSecs = (SInt.wrap body.timeBudgetSecs.val : I32).val := by
    rw [← hinput, ← hin]
    rfl
  rw [← as_i32_iff hl, ← hstored]
  constructor
  · intro hs
    obtain ⟨c', hc', hbudget⟩ := hs.stored
    rw [hc] at hc'
    cases hc'
    exact hbudget
  · intro hbudget
    refine ⟨hl, hu, ⟨c, hc, hbudget⟩, fun k job hinv hjob runner => ?_⟩
    obtain ⟨input', ⟨c', hc', hin'⟩, hjobBudget⟩ := hb.invoked k job hinv
    rw [hjob, hc] at hc'
    cases hc'
    have hsame : input'.timeBudgetSecs = body.timeBudgetSecs.val := by
      rw [← hin', ← hbudget]
      rfl
    have hnat : (job.timeBudgetSecs : Int) = body.timeBudgetSecs.val := by
      rw [hjobBudget, hsame]
      omega
    rw [buildArgs_getLast?, ← hnat]
    rfl

/-- What campaign `id` was created with, as the log has it. -/
def creationOf (id : Uuid) (log : List Event) : Option NewCampaign :=
  log.findSome? fun
    | .committed _ (.createCampaign campaignId _ _ input) (.created _) => if campaignId = id then some input else none
    | _ => none

theorem creationOf_mem {id : Uuid} {log : List Event} (h : creationOf id log = some input) :
    ∃ tx runId jobId row, .committed tx (.createCampaign id runId jobId input) (.created row) ∈ log := by
  obtain ⟨e, he, hr⟩ := List.exists_of_findSome?_eq_some h
  split at hr
  · rename_i tx campaignId runId jobId input' row
    simp only [Option.ite_none_right_eq_some, Option.some.injEq] at hr
    obtain ⟨rfl, rfl⟩ := hr
    exact ⟨tx, runId, jobId, row, he⟩
  · cases hr

/-- A campaign with the budget is created, and its run invoked. -/
def budgetRun (budget : Int) : List Act :=
  .api (.createCampaign 1 2 3 ⟨"token", "nightly", [], budget⟩) :: World.createAct.drop 1 ++ World.claimAct ++
    World.startAct

theorem survives_minute : ∃ s, World.Reach (fun _ => tokenWorker) s ∧ invokedRuns s.log = [2] ∧
    Survives 600 60 1 s := by
  have h : (World.play (fun _ => tokenWorker) World.init (budgetRun 60)).any (fun s =>
      invokedRuns s.log = [2] ∧ creationOf 1 s.log = some ⟨"token", "nightly", [], 60⟩) = true := by decide
  obtain ⟨s, hs⟩ := Option.isSome_iff_exists.mp
    (show (World.play (fun _ => tokenWorker) World.init (budgetRun 60)).isSome = true by decide)
  rw [hs] at h
  obtain ⟨hinv, hcreation⟩ := of_decide_eq_true h
  obtain ⟨tx, runId, jobId, row, hc⟩ := creationOf_mem hcreation
  have hreach := World.play_reach .init hs
  have haccepted : createCampaign ⟨tokenWorker.targets, maxTimeBudgetSecs 600⟩ ⟨"token", "nightly", [], SInt.wrap 60⟩ =
    .ok ⟨"token", "nightly", [], 60⟩ := by rfl
  exact ⟨s, hreach, hinv, (survives_iff hreach haccepted hc).mpr (by decide)⟩

/-- With `JOB_TIMEOUT_SECONDS=4294967296`, that budget is stored as 0. -/
theorem budget_becomes_unlimited : ¬ ∀ (ws : Nat → Worker) (s : World) (jobTimeoutSeconds : UInt64)
    (targets : TargetRegistry) (body : CreateCampaignRequest) (input : NewCampaign), World.Reach ws s →
      createCampaign ⟨targets, maxTimeBudgetSecs jobTimeoutSeconds⟩ body = .ok input →
      ∀ tx campaignId runId jobId row,
        .committed tx (.createCampaign campaignId runId jobId input) (.created row) ∈ s.log →
          Survives jobTimeoutSeconds body.timeBudgetSecs.val campaignId s := by
  intro hall
  have h : (World.play (fun _ => tokenWorker) World.init (budgetRun 0)).any (fun s =>
      creationOf 1 s.log = some ⟨"token", "nightly", [], 0⟩ ∧
        (Db.campaign s.pg.db 1).all (·.timeBudgetSecs = 0)) = true := by decide
  obtain ⟨s, hs⟩ := Option.isSome_iff_exists.mp
    (show (World.play (fun _ => tokenWorker) World.init (budgetRun 0)).isSome = true by decide)
  rw [hs] at h
  obtain ⟨hcreation, hrow⟩ := of_decide_eq_true h
  obtain ⟨tx, runId, jobId, row, hc⟩ := creationOf_mem hcreation
  obtain ⟨c, hc1, hbudget⟩ := (hall _ s 4294967296 tokenWorker.targets
    ⟨"token", "nightly", [], SInt.wrap 4294967296⟩ _ (World.play_reach .init hs) (by rfl) tx 1 runId jobId row
      hc).stored
  rw [hc1] at hrow
  have hzero : c.timeBudgetSecs = 0 := by simpa using hrow
  rw [hzero] at hbudget
  exact absurd hbudget (by decide)

end SoroFuzz.Api
