/-
  SoroFuzz.Store.Model — the records the store's methods pass around
  (`store/model.rs`) and the rows of its tables (`migrations/`).

  A table row is found by its key: the table and the row's id. Timestamps are
  microseconds; ids are opaque.
-/

import SoroFuzz.Lib.Sql

namespace SoroFuzz.Store

abbrev Uuid := Nat
abbrev DateTime := Nat

inductive CampaignStatus where
  | queued
  | running
  | completed
  | cancelled
  | failed
  deriving DecidableEq, Repr

def CampaignStatus.isTerminal : CampaignStatus → Bool
  | .completed | .cancelled | .failed => true
  | .queued | .running => false

inductive RunStatus where
  | pending
  | running
  | completed
  | cancelled
  | failed
  deriving DecidableEq, Repr

/-- `is_terminal` of `api/stream.rs`. -/
def RunStatus.isTerminal : RunStatus → Bool
  | .completed | .cancelled | .failed => true
  | .pending | .running => false

/-- Postgres keeps no U+0000 in a TEXT or JSONB value: a statement that binds one fails. -/
def storable (text : String) : Bool := text.toList.all (· ≠ '\x00')

theorem storable_append (s t : String) : storable (s ++ t) = (storable s && storable t) := by
  simp [storable]

/-- The run status of the same moment: the two enums name the initial state differently. -/
def CampaignStatus.mirror : CampaignStatus → RunStatus
  | .queued => .pending
  | .running => .running
  | .completed => .completed
  | .cancelled => .cancelled
  | .failed => .failed

structure NewCampaign where
  targetId : String
  name : String
  invariantIds : List String
  timeBudgetSecs : Int
  deriving DecidableEq, Repr

def NewCampaign.storable (input : NewCampaign) : Bool :=
  Store.storable input.targetId && Store.storable input.name && input.invariantIds.all Store.storable

structure CampaignRecord where
  id : Uuid
  targetId : String
  name : String
  invariantIds : List String
  timeBudgetSecs : Int
  status : CampaignStatus
  runId : Uuid
  createdAt : DateTime
  deriving DecidableEq, Repr

structure ClaimedJob where
  jobId : Uuid
  campaignId : Uuid
  runId : Uuid
  attempts : Int
  deriving DecidableEq, Repr

structure FindingStepArg where
  name : String
  value : String
  deriving DecidableEq, Repr

inductive FindingStepOutcome where
  | ok
  | declaredError (code : UInt32)
  | rejected (detail : String)
  | undeclaredPanic (detail : String)
  deriving DecidableEq, Repr

def FindingStepOutcome.texts : FindingStepOutcome → List String
  | .ok | .declaredError _ => []
  | .rejected detail | .undeclaredPanic detail => [detail]

structure FindingStep where
  index : UInt32
  method : String
  args : List FindingStepArg
  authorizedBy : List String
  advanceTimeSecs : Option UInt32
  outcome : FindingStepOutcome
  deriving DecidableEq, Repr

def FindingStep.texts (step : FindingStep) : List String :=
  step.method :: step.args.flatMap (fun arg => [arg.name, arg.value]) ++ step.authorizedBy ++ step.outcome.texts

structure NewFinding where
  invariant : String
  message : String
  stepIndex : Int
  sequence : List FindingStep
  shrunkInput : Option (List UInt8)
  fuzzTargetName : String
  artifactPath : String
  requiresSanitizerThread : Bool
  deriving DecidableEq, Repr

def NewFinding.storable (finding : NewFinding) : Bool :=
  Store.storable finding.invariant && Store.storable finding.message &&
    (finding.sequence.flatMap FindingStep.texts).all Store.storable && Store.storable finding.fuzzTargetName &&
    Store.storable finding.artifactPath

inductive RunFinishStatus where
  | completed
  | cancelled
  | failed
  deriving DecidableEq, Repr

def RunFinishStatus.runStatus : RunFinishStatus → RunStatus
  | .completed => .completed
  | .cancelled => .cancelled
  | .failed => .failed

def RunFinishStatus.campaignStatus : RunFinishStatus → CampaignStatus
  | .completed => .completed
  | .cancelled => .cancelled
  | .failed => .failed

structure RunFinish where
  status : RunFinishStatus
  iterations : Int
  logTail : Option String
  findings : List NewFinding
  deriving DecidableEq, Repr

def RunFinish.storable (finish : RunFinish) : Bool :=
  finish.logTail.all Store.storable && finish.findings.all NewFinding.storable

@[simp] theorem RunFinishStatus.mirror_campaignStatus (s : RunFinishStatus) :
    s.campaignStatus.mirror = s.runStatus := by
  cases s <;> rfl

@[simp] theorem RunFinishStatus.runStatus_isTerminal (s : RunFinishStatus) : s.runStatus.isTerminal = true := by
  cases s <;> rfl

@[simp] theorem CampaignStatus.mirror_isTerminal (s : CampaignStatus) : s.mirror.isTerminal = s.isTerminal := by
  cases s <;> rfl

theorem CampaignStatus.mirror_injective {s t : CampaignStatus} (h : s.mirror = t.mirror) : s = t := by
  cases s <;> cases t <;> first | rfl | cases h

/-! ## Rows -/

structure CampaignRow where
  targetId : String
  name : String
  invariantIds : List String
  timeBudgetSecs : Int
  status : CampaignStatus
  createdAt : DateTime
  updatedAt : DateTime
  deriving DecidableEq, Repr

structure RunRow where
  campaignId : Uuid
  status : RunStatus
  iterations : Int
  startedAt : Option DateTime
  finishedAt : Option DateTime
  worker : Option String
  logTail : Option String
  deriving DecidableEq, Repr

structure FindingRow where
  runId : Uuid
  finding : NewFinding
  createdAt : DateTime
  deriving DecidableEq, Repr

structure JobRow where
  campaignId : Uuid
  runId : Uuid
  claimedBy : Option String
  claimedAt : Option DateTime
  attempts : Int
  createdAt : DateTime
  deriving DecidableEq, Repr

inductive Key where
  | campaigns (id : Uuid)
  | runs (id : Uuid)
  | findings (id : Uuid)
  | jobQueue (id : Uuid)
  deriving DecidableEq, Repr

abbrev Row : Key → Type
  | .campaigns _ => CampaignRow
  | .runs _ => RunRow
  | .findings _ => FindingRow
  | .jobQueue _ => JobRow

abbrev Db := Lib.ReadCommitted.Db Row
abbrev Write := Lib.ReadCommitted.Write Row
abbrev View := Lib.ReadCommitted.View Row

namespace Db

open Lib.Sql

def campaign (d : Db) (id : Uuid) : Option CampaignRow := d.lookup (.campaigns id)
def run (d : Db) (id : Uuid) : Option RunRow := d.lookup (.runs id)
def finding (d : Db) (id : Uuid) : Option FindingRow := d.lookup (.findings id)
def job (d : Db) (id : Uuid) : Option JobRow := d.lookup (.jobQueue id)

/-- The tables, scanned in heap order. -/
def campaigns (d : Db) : List (Uuid × CampaignRow) :=
  scan (fun
    | .campaigns id, c => some (id, c)
    | _, _ => none) d

def runs (d : Db) : List (Uuid × RunRow) :=
  scan (fun
    | .runs id, r => some (id, r)
    | _, _ => none) d

def findings (d : Db) : List (Uuid × FindingRow) :=
  scan (fun
    | .findings id, f => some (id, f)
    | _, _ => none) d

def jobQueue (d : Db) : List (Uuid × JobRow) :=
  scan (fun
    | .jobQueue id, j => some (id, j)
    | _, _ => none) d

theorem mem_campaigns {d : Db} {id : Uuid} {c : CampaignRow} : (id, c) ∈ d.campaigns ↔ d.campaign id = some c := by
  rw [campaigns, mem_scan]
  constructor
  · intro hm
    obtain ⟨k, r, hr, he⟩ := hm
    cases k <;> cases he
    exact hr
  · exact fun h => ⟨.campaigns id, c, h, rfl⟩

theorem mem_runs {d : Db} {id : Uuid} {r : RunRow} : (id, r) ∈ d.runs ↔ d.run id = some r := by
  rw [runs, mem_scan]
  constructor
  · intro hm
    obtain ⟨k, r, hr, he⟩ := hm
    cases k <;> cases he
    exact hr
  · exact fun h => ⟨.runs id, r, h, rfl⟩

theorem mem_findings {d : Db} {id : Uuid} {f : FindingRow} : (id, f) ∈ d.findings ↔ d.finding id = some f := by
  rw [findings, mem_scan]
  constructor
  · intro hm
    obtain ⟨k, r, hr, he⟩ := hm
    cases k <;> cases he
    exact hr
  · exact fun h => ⟨.findings id, f, h, rfl⟩

theorem mem_jobQueue {d : Db} {id : Uuid} {j : JobRow} : (id, j) ∈ d.jobQueue ↔ d.job id = some j := by
  rw [jobQueue, mem_scan]
  constructor
  · intro hm
    obtain ⟨k, r, hr, he⟩ := hm
    cases k <;> cases he
    exact hr
  · exact fun h => ⟨.jobQueue id, j, h, rfl⟩

/-! No row is scanned twice. -/

theorem campaigns_nodup (d : Db) : d.campaigns.Nodup :=
  scan_nodup (by intro k r k' r' a h h'; cases k <;> cases h; cases k' <;> cases h'; rfl) d

theorem runs_nodup (d : Db) : d.runs.Nodup :=
  scan_nodup (by intro k r k' r' a h h'; cases k <;> cases h; cases k' <;> cases h'; rfl) d

theorem findings_nodup (d : Db) : d.findings.Nodup :=
  scan_nodup (by intro k r k' r' a h h'; cases k <;> cases h; cases k' <;> cases h'; rfl) d

/-! Writing one table leaves the others alone. -/

section writes
variable (d : Db) {k : Key} (r : Row k) (i j : Uuid)

@[simp] theorem campaign_insert (c : CampaignRow) :
    campaign (AList.insert (.campaigns i) c d) j = if j = i then some c else d.campaign j := by
  by_cases e : j = i
  · subst e; simp [campaign, AList.lookup_insert]
  · rw [if_neg e]; exact AList.lookup_insert_ne (by simpa using e)

@[simp] theorem run_insert (c : RunRow) :
    run (AList.insert (.runs i) c d) j = if j = i then some c else d.run j := by
  by_cases e : j = i
  · subst e; simp [run, AList.lookup_insert]
  · rw [if_neg e]; exact AList.lookup_insert_ne (by simpa using e)

@[simp] theorem finding_insert (c : FindingRow) :
    finding (AList.insert (.findings i) c d) j = if j = i then some c else d.finding j := by
  by_cases e : j = i
  · subst e; simp [finding, AList.lookup_insert]
  · rw [if_neg e]; exact AList.lookup_insert_ne (by simpa using e)

@[simp] theorem job_insert (c : JobRow) :
    job (AList.insert (.jobQueue i) c d) j = if j = i then some c else d.job j := by
  by_cases e : j = i
  · subst e; simp [job, AList.lookup_insert]
  · rw [if_neg e]; exact AList.lookup_insert_ne (by simpa using e)

variable {d j}

@[simp] theorem campaign_insert_ne (h : .campaigns j ≠ k) : campaign (AList.insert k r d) j = d.campaign j :=
  AList.lookup_insert_ne h

@[simp] theorem run_insert_ne (h : .runs j ≠ k) : run (AList.insert k r d) j = d.run j :=
  AList.lookup_insert_ne h

@[simp] theorem finding_insert_ne (h : .findings j ≠ k) : finding (AList.insert k r d) j = d.finding j :=
  AList.lookup_insert_ne h

@[simp] theorem job_insert_ne (h : .jobQueue j ≠ k) : job (AList.insert k r d) j = d.job j :=
  AList.lookup_insert_ne h

end writes

end Db

end SoroFuzz.Store
