/-
  SoroFuzz.Queue.Process — the queue puller (`worker/mod.rs`), with what it asks of the
  store, of the runner and of the progress hub.

  `Worker.process` is a process of `Lib.Process`: its actions are the store's calls, the
  runner's run, and what is told to the hub. An answer `Reply.error` of the store is its
  `Err`. Each `match` of the source on an answer is a continuation with a name of its
  own.

  Not modeled: log lines. The hub's channels and their subscribers, and what the runner
  itself publishes while it runs, are in `Live`.

  Proved:
  - `runLoop_obeys`: a worker follows `protocol`. It starts the run of the job it
    claimed, runs it when that worked, publishes the outcome, then persists it, and
    then closes the channel.
-/

import SoroFuzz.Store.Postgres
import SoroFuzz.Queue.Targets
import SoroFuzz.Lib.Process

namespace SoroFuzz.Queue

open SoroFuzz.Store
open Lib.Process

/-! ## runner/mod.rs, runner/progress.rs -/

structure RunJob where
  runId : Uuid
  campaignId : Uuid
  fuzzTargetName : String
  invariantIds : List String
  timeBudgetSecs : Nat
  deriving DecidableEq, Repr

inductive RunOutcome where
  | completed
  | cancelled
  deriving DecidableEq, Repr

structure RunFinding where
  invariant : String
  message : String
  stepIndex : Int
  sequence : List FindingStep
  shrunkInput : Option (List UInt8)
  artifactPath : String
  deriving DecidableEq, Repr

def RunFinding.storable (finding : RunFinding) : Bool :=
  Store.storable finding.invariant && Store.storable finding.message &&
    (finding.sequence.flatMap FindingStep.texts).all Store.storable && Store.storable finding.artifactPath

structure RunResult where
  outcome : RunOutcome
  iterations : Int
  findings : List RunFinding
  logTail : Option String
  deriving DecidableEq, Repr

inductive RunnerError where
  | failed (message : String)
  deriving DecidableEq, Repr

/-- Postgres stores the texts of the runner's answer, and with its findings the fuzz
    target's name. -/
def answerStorable (fuzzTargetName : String) : Except RunnerError RunResult → Bool
  | .ok result =>
    result.logTail.all storable && result.findings.all fun finding => finding.storable && storable fuzzTargetName
  | .error (.failed message) => storable message

def RunnerError.display : RunnerError → String
  | .failed message => "runner failed: " ++ message

inductive LogLevel where
  | info
  | warn
  | error
  deriving DecidableEq, Repr

inductive ProgressEvent where
  | iterations (count elapsedSecs : Nat)
  | log (line : String) (level : LogLevel)
  | finding (invariant : String) (stepIndex : Nat)
  | status (s : RunStatus)
  deriving DecidableEq, Repr

/-! ## worker/mod.rs -/

/-- The store's methods the worker calls. -/
inductive StoreOp where
  | getCampaign (id : Uuid)
  | claimJob (workerId : String)
  | startRun (runId : Uuid) (workerId : String)
  | finishRun (runId : Uuid) (finish : RunFinish)
  deriving DecidableEq, Repr

/-- The call, with what Postgres adds to it: the order of tied rows, and new ids. -/
def StoreOp.call (tie ids : Nat → Nat) : StoreOp → Call
  | .getCampaign id => .getCampaign id
  | .claimJob workerId => .claimJob tie workerId
  | .startRun runId workerId => .startRun runId workerId
  | .finishRun runId finish => .finishRun runId finish ids

inductive Action where
  | store (op : StoreOp)
  | publisher (runId : Uuid)
  | emit (runId : Uuid) (event : ProgressEvent)
  | run (job : RunJob)
  | close (runId : Uuid)

abbrev Action.Answer : Action → Type
  | .store _ => Reply
  | .run _ => Except RunnerError RunResult
  | .publisher _ | .emit _ _ | .close _ => Unit

abbrev Process := Proc Action Action.Answer

structure Worker where
  id : String
  /-- It is `worker-{pid}-{i}`. -/
  idStorable : storable id = true
  targets : TargetRegistry
  fuzzSanitizer : Option String

namespace Worker

variable (w : Worker)

def toNewFinding (finding : RunFinding) (fuzzTargetName : String) : NewFinding where
  invariant := finding.invariant
  message := finding.message
  stepIndex := finding.stepIndex
  sequence := finding.sequence
  shrunkInput := finding.shrunkInput
  fuzzTargetName := fuzzTargetName
  artifactPath := finding.artifactPath
  requiresSanitizerThread := w.fuzzSanitizer == some "thread"

/-- What `process` persists of the runner's answer. -/
def finish (fuzzTargetName : String) : Except RunnerError RunResult → RunFinish
  | .ok result =>
    { status := match result.outcome with
        | .completed => .completed
        | .cancelled => .cancelled
      iterations := result.iterations
      logTail := result.logTail
      findings := result.findings.map (w.toNewFinding · fuzzTargetName) }
  | .error error => { status := .failed, iterations := 0, logTail := some error.display, findings := [] }

theorem finish_storable (fuzzTargetName : String) (answer : Except RunnerError RunResult) :
    (w.finish fuzzTargetName answer).storable = answerStorable fuzzTargetName answer := by
  cases answer with
  | ok result =>
    simp only [finish, RunFinish.storable, answerStorable, List.all_map]
    congr 2
    funext finding
    simp only [Function.comp_apply, toNewFinding, NewFinding.storable, RunFinding.storable]
    ac_rfl
  | error error =>
    have hprefix : storable "runner failed: " = true := by decide
    cases error
    simp [finish, RunFinish.storable, answerStorable, RunnerError.display, storable_append, hprefix]

/-- `self.runner.run(job, ..).await` has answered. -/
def finished (job : RunJob) (answer : Except RunnerError RunResult) : Process :=
  let finish := w.finish job.fuzzTargetName answer
  .act (.emit job.runId (.status finish.status.runStatus)) fun _ =>
  .act (.store (.finishRun job.runId finish)) fun _ =>
  -- An error is logged, no more.
  .act (.close job.runId) fun _ => .ret

/-- `self.store.start_run(run_id, &self.id).await` has answered. -/
def started (campaignId runId : Uuid) (campaign : CampaignRecord) (target : Target) : Reply → Process
  | .started true =>
    .act (.publisher runId) fun _ =>
    .act (.emit runId (.status .running)) fun _ =>
    let job : RunJob :=
      { runId, campaignId, fuzzTargetName := target.fuzzTargetName, invariantIds := campaign.invariantIds,
        timeBudgetSecs := (max campaign.timeBudgetSecs 0).toNat }
    .act (.run job) fun answer => w.finished job answer
  | _ => .ret

/-- `self.store.get_campaign(campaign_id).await` has answered. -/
def loaded (campaignId runId : Uuid) : Reply → Process
  | .campaign (some campaign) =>
    match w.targets.get campaign.targetId with
    | none => .ret
    | some target => .act (.store (.startRun runId w.id)) fun reply => w.started campaignId runId campaign target reply
  | _ => .ret

def process (campaignId runId : Uuid) : Process :=
  .act (.store (.getCampaign campaignId)) fun reply => w.loaded campaignId runId reply

/-- One turn of `run_loop`. -/
def runLoop : Process :=
  .act (.store (.claimJob w.id)) fun
    | .claimed (some job) => w.process job.campaignId job.runId
    | _ => .ret

end Worker

/-! ## The order of a worker's actions -/

inductive Phase where
  | idle
  /-- A claimed job's run, not started yet. -/
  | loading (runId : Uuid)
  | ready (runId : Uuid)
  | ran (job : RunJob) (answer : Except RunnerError RunResult)
  | told (job : RunJob) (answer : Except RunnerError RunResult)
  | saved (job : RunJob) (answer : Except RunnerError RunResult)

/-- The phase that the answer to a store's call leads to. -/
def Phase.reply : Phase → StoreOp → Reply → Phase
  | .idle, .claimJob _, .claimed (some job) => .loading job.runId
  | .loading runId, .getCampaign _, _ => .loading runId
  | .loading runId, .startRun _ _, .started true => .ready runId
  | .told job answer, .finishRun _ _, _ => .saved job answer
  | _, _, _ => .idle

def protocol (w : Worker) : Protocol Action Action.Answer Phase where
  allows
    | .idle, .store (.claimJob _) => True
    | .loading _, .store (.getCampaign _) => True
    | .loading runId, .store (.startRun id _) => id = runId
    | .ready runId, .publisher id => id = runId
    | .ready runId, .emit id event => id = runId ∧ event = .status .running
    | .ready runId, .run job => job.runId = runId
    | .ran job answer, .emit id event =>
      id = job.runId ∧ event = .status (w.finish job.fuzzTargetName answer).status.runStatus
    | .told job answer, .store (.finishRun id finish) => id = job.runId ∧ finish = w.finish job.fuzzTargetName answer
    | .saved job _, .close id => id = job.runId
    | _, _ => False
  after
    | φ, .store op, r => φ.reply op r
    | .ready _, .run job, answer => .ran job answer
    | .ran job answer, .emit _ _, _ => .told job answer
    | .saved _ _, .close _, _ => .idle
    | φ, _, _ => φ

variable {w : Worker}

theorem finished_obeys (job : RunJob) (answer : Except RunnerError RunResult) :
    Obeys (protocol w) (.ran job answer) (w.finished job answer) :=
  obeys_act ⟨rfl, rfl⟩ fun _ => obeys_act ⟨rfl, rfl⟩ fun _ => obeys_act rfl fun _ => obeys_ret _

theorem started_obeys (campaignId runId : Uuid) (campaign : CampaignRecord) (target : Target) (r : Reply) :
    Obeys (protocol w) ((Phase.loading runId).reply (.startRun runId w.id) r)
      (w.started campaignId runId campaign target r) := by
  unfold Worker.started
  split
  · exact obeys_act rfl fun _ => obeys_act ⟨rfl, rfl⟩ fun _ => obeys_act rfl fun answer => finished_obeys _ answer
  · exact obeys_ret _

theorem loaded_obeys (campaignId runId : Uuid) (r : Reply) :
    Obeys (protocol w) (.loading runId) (w.loaded campaignId runId r) := by
  unfold Worker.loaded
  split
  · split
    · exact obeys_ret _
    · exact obeys_act rfl fun r => started_obeys _ _ _ _ r
  · exact obeys_ret _

theorem process_obeys (campaignId runId : Uuid) : Obeys (protocol w) (.loading runId) (w.process campaignId runId) :=
  obeys_act trivial fun r => loaded_obeys _ _ r

theorem runLoop_obeys : Obeys (protocol w) .idle w.runLoop := by
  refine obeys_act trivial fun r => ?_
  split
  · exact process_obeys _ _
  · exact obeys_ret _

/-- A worker whose manifest has one target. -/
def tokenWorker : Worker :=
  ⟨"worker-1-0", by decide, ⟨AList.singleton "token" ⟨"token", "token", "Token", [], [], "token_fuzz", false⟩, ["token"]⟩, none⟩

end SoroFuzz.Queue
