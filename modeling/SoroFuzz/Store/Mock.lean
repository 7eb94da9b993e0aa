/-
  SoroFuzz.Store.Mock — `MockStore`, the in-memory store of the API's and the worker's
  tests (`store/mock.rs`).

  Each method is what the code computes on the four vectors. Its `Uuid::new_v4()` and
  `Utc::now()` are parameters of the call, the latter by the order of the readings. A
  method that panics (`expect`) returns `none`. The mutexes are left out: one call at a
  time.
-/

import SoroFuzz.Store.Read

namespace SoroFuzz.Store

structure MockRun where
  id : Uuid
  campaignId : Uuid
  status : RunStatus
  iterations : Int
  startedAt : Option DateTime
  finishedAt : Option DateTime
  logTail : Option String
  deriving DecidableEq, Repr

structure MockJob where
  id : Uuid
  campaignId : Uuid
  runId : Uuid
  claimedBy : Option String
  attempts : Int
  deriving DecidableEq, Repr

structure MockStore where
  campaigns : List CampaignRecord
  runs : List MockRun
  jobs : List MockJob
  findings : List FindingRecord
  deriving DecidableEq, Repr

namespace MockStore

/-- `MockStore::default()`. -/
def empty : MockStore := ⟨[], [], [], []⟩

/-- `xs.iter_mut().find(p)`, and `f` of what it finds. -/
def modifyFirst {α : Type} (p : α → Bool) (f : α → α) (xs : List α) : List α :=
  xs.replaceF fun x => if p x then some (f x) else none

/-- `None`: no campaign has the run, and the method panics. -/
def findFindingRecord (m : MockStore) (runId id : Uuid) (f : NewFinding) (now : DateTime) : Option FindingRecord :=
  (m.campaigns.find? (·.runId = runId)).map fun campaign =>
    { id, runId, campaignId := campaign.id, targetId := campaign.targetId, invariant := f.invariant,
      message := f.message, stepIndex := f.stepIndex, sequence := [], fuzzTargetName := "", artifactPath := "",
      requiresSanitizerThread := false, createdAt := now }

def createCampaign (m : MockStore) (campaignId runId jobId : Uuid) (input : NewCampaign) (now : DateTime) :
    CampaignRecord × MockStore :=
  let record : CampaignRecord :=
    { id := campaignId, targetId := input.targetId, name := input.name, invariantIds := input.invariantIds,
      timeBudgetSecs := input.timeBudgetSecs, status := .queued, runId, createdAt := now }
  let run : MockRun :=
    { id := runId, campaignId, status := .pending, iterations := 0, startedAt := none, finishedAt := none,
      logTail := none }
  let job : MockJob := { id := jobId, campaignId, runId, claimedBy := none, attempts := 0 }
  (record, { m with campaigns := m.campaigns ++ [record], runs := m.runs ++ [run], jobs := m.jobs ++ [job] })

def listCampaigns (m : MockStore) (filter : CampaignFilter) : List CampaignRecord :=
  let matched := m.campaigns
    |>.filter (fun c => filter.status.all (c.status = ·))
    |>.filter (fun c => filter.targetId.all (c.targetId = ·))
    |>.filter (fun c => filter.since.all (c.createdAt ≥ ·))
    |>.filter (fun c => filter.until_.all (c.createdAt ≤ ·))
    -- `sort_by_key` on `Reverse(c.created_at)`: stable, newest first.
    |>.mergeSort fun a b => b.createdAt ≤ a.createdAt
  let start := min (max filter.offset 0).toNat matched.length
  let stop := min (start + (max filter.limit 0).toNat) matched.length
  (matched.take stop).drop start

def getCampaign (m : MockStore) (id : Uuid) : Option CampaignRecord := m.campaigns.find? (·.id = id)

def cancelCampaign (m : MockStore) (id : Uuid) (now : DateTime) : Option CampaignRecord × MockStore :=
  match m.campaigns.find? (·.id = id) with
  | none => (none, m)
  | some campaign =>
    if campaign.status.isTerminal then (some campaign, m)
    else
      (some { campaign with status := .cancelled },
        { m with
          campaigns := modifyFirst (·.id = id) (fun c => { c with status := .cancelled }) m.campaigns
          runs := modifyFirst (·.campaignId = id)
            (fun r => { r with status := .cancelled, finishedAt := some now }) m.runs })

/-- The job is unclaimed and its run pending. -/
def claimable (runs : List MockRun) (j : MockJob) : Bool :=
  j.claimedBy.isNone && runs.any fun r => r.id = j.runId ∧ r.status = .pending

def claimJob (m : MockStore) (workerId : String) : Option ClaimedJob × MockStore :=
  match m.jobs.find? (claimable m.runs) with
  | none => (none, m)
  | some job =>
    (some ⟨job.id, job.campaignId, job.runId, job.attempts + 1⟩,
      { m with
        jobs := modifyFirst (claimable m.runs)
          (fun j => { j with claimedBy := some workerId, attempts := j.attempts + 1 }) m.jobs })

def startRun (m : MockStore) (runId : Uuid) (now : DateTime) : Bool × MockStore :=
  match m.runs.find? (·.id = runId) with
  | none => (false, m)
  | some run =>
    if run.status ≠ .pending then (false, m)
    else
      (true,
        { m with
          runs := modifyFirst (·.id = runId) (fun r => { r with status := .running, startedAt := some now }) m.runs
          findings := m.findings.filter (·.runId ≠ runId)
          campaigns := modifyFirst (·.runId = runId)
            (fun c => if c.status = .queued then { c with status := .running } else c) m.campaigns })

/-- The loop over `finish.findings`; `k` counts those pushed so far. -/
def pushFindings (m : MockStore) (runId : Uuid) (ids : Nat → Uuid) (clock : Nat → DateTime) :
    List NewFinding → Nat → Option MockStore
  | [], _ => some m
  | f :: fs, k => do
    let record ← m.findFindingRecord runId (ids k) f (clock k)
    let record := { record with
      sequence := f.sequence, fuzzTargetName := f.fuzzTargetName, artifactPath := f.artifactPath,
      requiresSanitizerThread := f.requiresSanitizerThread }
    pushFindings { m with findings := m.findings ++ [record] } runId ids clock fs (k + 1)

/-- Whether the run was running, and the vectors after its status moved on. -/
def finishStatus (m : MockStore) (runId : Uuid) (finish : RunFinish) (now : DateTime) : Bool × MockStore :=
  match m.runs.find? (·.id = runId) with
  | some run =>
    if run.status = .running then
      (true,
        { m with
          runs := modifyFirst (·.id = runId)
            (fun r => { r with
              status := finish.status.runStatus, iterations := finish.iterations, logTail := finish.logTail,
              finishedAt := some now }) m.runs })
    else (false, m)
  | none => (false, m)

def finishRun (m : MockStore) (runId : Uuid) (finish : RunFinish) (ids : Nat → Uuid) (clock : Nat → DateTime) :
    Option MockStore :=
  match m.finishStatus runId finish (clock 0) with
  | (true, m) =>
    let m := { m with
      campaigns := modifyFirst (·.runId = runId)
        (fun c => { c with status := finish.status.campaignStatus }) m.campaigns }
    m.pushFindings runId ids (fun k => clock (k + 1)) finish.findings 0
  | (false, m) => m.pushFindings runId ids clock finish.findings 0

/-- `num_seconds().max(0)`: whole seconds, towards zero. -/
def elapsedSecs (run : MockRun) (now : DateTime) : Int :=
  match run.startedAt with
  | some started => max (((run.finishedAt.getD now : Int) - started).tdiv 1000000) 0
  | none => 0

/-- `none`: the run has no campaign, and the method panics. -/
def getRun (m : MockStore) (id : Uuid) (now : DateTime) : Option (Option RunRecord) :=
  match m.runs.find? (·.id = id) with
  | none => some none
  | some run =>
    (m.campaigns.find? (·.runId = id)).map fun campaign =>
      some
        { id := run.id, campaignId := run.campaignId, targetId := campaign.targetId, status := run.status,
          timeBudgetSecs := campaign.timeBudgetSecs, elapsedSecs := elapsedSecs run now, iterations := run.iterations,
          findingsCount := (m.findings.filter (·.runId = id)).length, startedAt := run.startedAt,
          finishedAt := run.finishedAt }

def listFindingsForRun (m : MockStore) (runId : Uuid) : List FindingRecord :=
  (m.findings.filter (·.runId = runId)).mergeSort fun a b => a.createdAt ≤ b.createdAt

def getFinding (m : MockStore) (id : Uuid) : Option FindingRecord := m.findings.find? (·.id = id)

end MockStore

end SoroFuzz.Store
