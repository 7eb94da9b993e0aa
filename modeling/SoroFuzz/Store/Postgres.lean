/-
  SoroFuzz.Store.Postgres — `PgStore`'s transactions, statement by statement
  (`store/postgres.rs`).

  Each method of the store is a program of `Lib.ReadCommitted`: its SQL statements in
  order, with their WHERE clauses and RETURNING columns, and the branches the method
  takes on what they return. `now` is Postgres's `now()`, the time the transaction
  began. What `gen_random_uuid()` returns is a parameter of the call: an id already in
  use violates the primary key and the method fails. So does a text with a U+0000 that
  a statement binds.

  Not modeled: `targets` (its rows are only referenced; an INSERT that violates that
  foreign key fails like any other transaction that is aborted), and columns nothing
  reads.
-/

import SoroFuzz.Store.Model

namespace SoroFuzz.Store

open Lib.ReadCommitted (Prog)
open Lib.Sql

/-- The store's methods, with their arguments and the ids they generate. -/
inductive Call where
  | createCampaign (campaignId runId jobId : Uuid) (input : NewCampaign)
  | getCampaign (id : Uuid)
  | cancelCampaign (id : Uuid)
  /-- `tie` is the order in which the rows that ORDER BY leaves tied are scanned. -/
  | claimJob (tie : Uuid → Nat) (workerId : String)
  | startRun (runId : Uuid) (workerId : String)
  | finishRun (runId : Uuid) (finish : RunFinish) (ids : Nat → Uuid)

/-- What a method returns; `error` is its `StoreError`. -/
inductive Reply where
  | created (c : CampaignRecord)
  | campaign (c : Option CampaignRecord)
  | claimed (j : Option ClaimedJob)
  | started (b : Bool)
  | finished
  | error
  deriving DecidableEq, Repr

/-- The statements of the store, by name. -/
inductive Sql where
  | insertCampaign
  | insertRun
  | insertJob
  | selectCampaign
  | cancelCampaign
  | cancelRun
  | claimJob
  | startRun
  | deleteFindings
  | startCampaign
  | finishRun
  | finishCampaign
  | insertFinding
  deriving DecidableEq, Repr

abbrev Program := Prog Row Sql Reply

/-- `SELECT_CAMPAIGN_WITH_RUN`: `campaigns c JOIN runs r ON r.campaign_id = c.id`. -/
def selectCampaignWithRun (d : Db) : List CampaignRecord :=
  d.campaigns.flatMap fun (id, c) =>
    (d.runs.filter fun r => r.2.campaignId = id).map fun (runId, _) =>
      { id, targetId := c.targetId, name := c.name, invariantIds := c.invariantIds, timeBudgetSecs := c.timeBudgetSecs,
        status := c.status, runId, createdAt := c.createdAt }

/-- `SELECT_CAMPAIGN_WITH_RUN WHERE c.id = $1`, `fetch_optional`. -/
def campaignWithRun (d : Db) (id : Uuid) : Option CampaignRecord := (selectCampaignWithRun d).find? (·.id = id)

def createCampaign (campaignId runId jobId : Uuid) (input : NewCampaign) (now : DateTime) : Program :=
  insertRow .insertCampaign (.campaigns campaignId)
    { targetId := input.targetId, name := input.name, invariantIds := input.invariantIds,
      timeBudgetSecs := input.timeBudgetSecs, status := .queued, createdAt := now, updatedAt := now }
    (fun _ => !input.storable) (.rollback .error) <|
  -- `runs.campaign_id` is UNIQUE.
  insertRow .insertRun (.runs runId)
    { campaignId, status := .pending, iterations := 0, startedAt := none, finishedAt := none, worker := none,
      logTail := none }
    (fun d => (Db.runs d).any fun r => r.2.campaignId = campaignId) (.rollback .error) <|
  insertRow .insertJob (.jobQueue jobId)
    { campaignId, runId, claimedBy := none, claimedAt := none, attempts := 0, createdAt := now }
    (fun _ => false) (.rollback .error) <|
  select .selectCampaign fun d =>
    match campaignWithRun d campaignId with
    | some row => .commit (.created row)
    | none => .rollback .error

def getCampaign (id : Uuid) : Program := select .selectCampaign fun d => .commit (.campaign (campaignWithRun d id))

def cancelCampaign (id : Uuid) (now : DateTime) : Program :=
  select .selectCampaign fun d =>
    match campaignWithRun d id with
    | none => .rollback (.campaign none)
    | some current =>
      if current.status.isTerminal then .commit (.campaign (some current))
      else
        update .cancelCampaign
          (fun
            | .campaigns i, c => if i = id then some { c with status := .cancelled, updatedAt := now } else none
            | _, _ => none) fun _ =>
        update .cancelRun
          (fun
            | .runs _, r =>
              if r.campaignId = id then some { r with status := .cancelled, finishedAt := some now } else none
            | _, _ => none) fun _ =>
        .commit (.campaign (some { current with status := .cancelled }))

/-- The unclaimed jobs of pending runs, less those another transaction has locked. -/
def claimable (v : View) : List (Uuid × JobRow) :=
  (Db.jobQueue v.rows).filter fun (id, jq) =>
    jq.claimedBy = none ∧ (Db.run v.rows jq.runId).any (·.status = .pending) ∧ v.locked (.jobQueue id) = false

/-- `j` comes before `b` in `ORDER BY jq.created_at`. -/
def older (tie : Uuid → Nat) (j b : Uuid × JobRow) : Bool :=
  j.2.createdAt < b.2.createdAt ∨ (j.2.createdAt = b.2.createdAt ∧ tie j.1 < tie b.1)

/-- `ORDER BY jq.created_at LIMIT 1`. -/
def oldest (tie : Uuid → Nat) : List (Uuid × JobRow) → Option (Uuid × JobRow)
  | [] => none
  | j :: js =>
    match oldest tie js with
    | some b => if older tie j b then some j else some b
    | none => some j

def claimJob (tie : Uuid → Nat) (workerId : String) (now : DateTime) : Program :=
  binding (storable workerId) (.rollback .error) <|
  updatePicked .claimJob
    (fun v => (oldest tie (claimable v)).map fun (id, jq) =>
      ⟨.jobQueue id, { jq with claimedBy := some workerId, claimedAt := some now, attempts := jq.attempts + 1 }⟩)
    fun
      | some ⟨.jobQueue jobId, jq⟩ => .commit (.claimed (some ⟨jobId, jq.campaignId, jq.runId, jq.attempts⟩))
      | _ => .commit (.claimed none)

/-- `RETURNING campaign_id`, `fetch_optional`. -/
def returningCampaignId : List (Sigma Row) → Option Uuid
  | ⟨.runs _, r⟩ :: _ => some r.campaignId
  | _ => none

def startRun (runId : Uuid) (workerId : String) (now : DateTime) : Program :=
  binding (storable workerId) (.rollback .error) <|
  update .startRun
    (fun
      | .runs i, r =>
        if i = runId ∧ r.status = .pending then
          some { r with status := .running, startedAt := some now, worker := some workerId }
        else none
      | _, _ => none) fun es =>
  match returningCampaignId es with
  | none => .commit (.started false)
  | some campaignId =>
    delete .deleteFindings
      (fun
        | .findings _, f => f.runId = runId
        | _, _ => false) <|
    update .startCampaign
      (fun
        | .campaigns i, c =>
          if i = campaignId ∧ c.status = .queued then some { c with status := .running, updatedAt := now } else none
        | _, _ => none) fun _ =>
    .commit (.started true)

/-- The loop over `finish.findings`; `k` counts the findings inserted so far. A finding
    of a run that does not exist violates `findings.run_id`'s foreign key. -/
def insertFindings (runId : Uuid) (ids : Nat → Uuid) (now : DateTime) : List NewFinding → Nat → Program
  | [], _ => .commit .finished
  | f :: fs, k =>
    insertRow .insertFinding (.findings (ids k)) { runId, finding := f, createdAt := now }
      (fun d => Db.run d runId = none || !f.storable) (.rollback .error) (insertFindings runId ids now fs (k + 1))

def finishRun (runId : Uuid) (finish : RunFinish) (ids : Nat → Uuid) (now : DateTime) : Program :=
  binding (finish.logTail.all storable) (.rollback .error) <|
  update .finishRun
    (fun
      | .runs i, r =>
        if i = runId ∧ r.status = .running then
          some { r with status := finish.status.runStatus, iterations := finish.iterations, logTail := finish.logTail,
                        finishedAt := some now }
        else none
      | _, _ => none) fun es =>
  match returningCampaignId es with
  | some campaignId =>
    update .finishCampaign
      (fun
        | .campaigns i, c =>
          if i = campaignId then some { c with status := finish.status.campaignStatus, updatedAt := now } else none
        | _, _ => none) fun _ =>
    insertFindings runId ids now finish.findings 0
  | none => insertFindings runId ids now finish.findings 0

def body : Call → Nat → Program
  | .createCampaign campaignId runId jobId input, now => createCampaign campaignId runId jobId input now
  | .getCampaign id, _ => getCampaign id
  | .cancelCampaign id, now => cancelCampaign id now
  | .claimJob tie workerId, now => claimJob tie workerId now
  | .startRun runId workerId, now => startRun runId workerId now
  | .finishRun runId finish ids, now => finishRun runId finish ids now

abbrev Pg := Lib.ReadCommitted.St Row Call Sql Reply
abbrev PgAct := Lib.ReadCommitted.Act Call
abbrev Txn := Lib.ReadCommitted.Txn Row Call Sql Reply

/-! ## The row an UPDATE changes, when its WHERE clause `p` matches one -/

section updates
variable {d : Db} {id : Uuid}

theorem updates_campaigns {p : Uuid → CampaignRow → Prop} [∀ i c, Decidable (p i c)]
    {set : Uuid → CampaignRow → CampaignRow} {c : CampaignRow} (hc : d.campaign id = some c) (hp : p id c)
    (honly : ∀ i c, d.campaign i = some c → p i c → i = id) :
    updates (fun
      | .campaigns i, c => if p i c then some (set i c) else none
      | _, _ => none) d = [⟨.campaigns id, set id c⟩] := by
  refine updates_eq_singleton hc (if_pos hp) fun k c1 hc1 hs => ?_
  cases k with
  | campaigns i =>
    by_cases h : p i c1
    · rw [honly i c1 hc1 h]
    · exact absurd (if_neg h) hs
  | _ => exact absurd rfl hs

variable {p : Uuid → RunRow → Prop} [∀ i r, Decidable (p i r)] {set : Uuid → RunRow → RunRow}

theorem updates_runs {r : RunRow} (hr : d.run id = some r) (hp : p id r)
    (honly : ∀ i r, d.run i = some r → p i r → i = id) :
    updates (fun
      | .runs i, r => if p i r then some (set i r) else none
      | _, _ => none) d = [⟨.runs id, set id r⟩] := by
  refine updates_eq_singleton hr (if_pos hp) fun k r1 hr1 hs => ?_
  cases k with
  | runs i =>
    by_cases h : p i r1
    · rw [honly i r1 hr1 h]
    · exact absurd (if_neg h) hs
  | _ => exact absurd rfl hs

theorem updates_runs_nil (hno : ∀ i r, d.run i = some r → ¬ p i r) :
    updates (fun
      | .runs i, r => if p i r then some (set i r) else none
      | _, _ => none) d = [] := by
  refine updates_eq_nil fun k r hr => ?_
  cases k with
  | runs i => exact if_neg (hno i r hr)
  | _ => rfl

end updates

end SoroFuzz.Store
