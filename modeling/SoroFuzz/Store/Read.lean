/-
  SoroFuzz.Store.Read — `PgStore`'s reads (`store/postgres.rs`), and the records they
  return (`store/model.rs`).

  A read is one statement: it sees the rows committed when it runs, and `now()` is the
  time its own transaction began.

  Proved:
  - `elapsedSecs_nonneg`: the seconds elapsed are not negative when the run was started
    no later than it was finished, or than the read began.
-/

import SoroFuzz.Store.Postgres

namespace SoroFuzz.Store

open Lib.Sql

structure CampaignFilter where
  status : Option CampaignStatus
  targetId : Option String
  since : Option DateTime
  until_ : Option DateTime
  limit : Int
  offset : Int

def CampaignFilter.storable (filter : CampaignFilter) : Bool := filter.targetId.all Store.storable

structure RunRecord where
  id : Uuid
  campaignId : Uuid
  targetId : String
  status : RunStatus
  timeBudgetSecs : Int
  elapsedSecs : Int
  iterations : Int
  findingsCount : Nat
  startedAt : Option DateTime
  finishedAt : Option DateTime
  deriving DecidableEq, Repr

structure FindingRecord where
  id : Uuid
  runId : Uuid
  campaignId : Uuid
  targetId : String
  invariant : String
  message : String
  stepIndex : Int
  sequence : List FindingStep
  fuzzTargetName : String
  artifactPath : String
  requiresSanitizerThread : Bool
  createdAt : DateTime
  deriving DecidableEq, Repr

/-- The WHERE clause of `list_campaigns`: a parameter that is NULL matches every row. -/
def CampaignFilter.matches_ (filter : CampaignFilter) (c : CampaignRecord) : Bool :=
  filter.status.all (c.status = ·) && filter.targetId.all (c.targetId = ·) && filter.since.all (· ≤ c.createdAt) &&
    filter.until_.all (c.createdAt ≤ ·)

/-- `ORDER BY c.created_at DESC LIMIT $5 OFFSET $6`; a negative bound is an error, and so
    is a text that cannot be bound. -/
def listCampaigns (d : Db) (filter : CampaignFilter) : Option (List CampaignRecord) :=
  if filter.storable = false ∨ filter.limit < 0 ∨ filter.offset < 0 then none
  else
    let rows := (selectCampaignWithRun d).filter filter.matches_
    some (((rows.mergeSort fun a b => b.createdAt ≤ a.createdAt).drop filter.offset.toNat).take filter.limit.toNat)

/-- `::bigint` of microseconds over a million: rounded to the nearest, halves away from zero. -/
def roundSecs (micros : Int) : Int :=
  if 0 ≤ micros then (micros + 500000) / 1000000 else -((-micros + 500000) / 1000000)

/-- `COALESCE(EXTRACT(EPOCH FROM (COALESCE(r.finished_at, now()) - r.started_at)), 0)::bigint`. -/
def elapsedSecs (now : DateTime) (r : RunRow) : Int :=
  match r.startedAt with
  | some started => roundSecs ((r.finishedAt.getD now : Int) - started)
  | none => 0

/-- `SELECT_RUN WHERE r.id = $1`. -/
def getRun (d : Db) (now : DateTime) (id : Uuid) : Option RunRecord := do
  let r ← d.run id
  let c ← d.campaign r.campaignId
  some
    { id, campaignId := r.campaignId, targetId := c.targetId, status := r.status, timeBudgetSecs := c.timeBudgetSecs,
      elapsedSecs := elapsedSecs now r, iterations := r.iterations,
      findingsCount := (d.findings.filter fun f => f.2.runId = id).length, startedAt := r.startedAt,
      finishedAt := r.finishedAt }

/-- A row of `SELECT_FINDING`. -/
def findingRecord (d : Db) (id : Uuid) (f : FindingRow) : Option FindingRecord := do
  let r ← d.run f.runId
  let c ← d.campaign r.campaignId
  some
    { id, runId := f.runId, campaignId := r.campaignId, targetId := c.targetId, invariant := f.finding.invariant,
      message := f.finding.message, stepIndex := f.finding.stepIndex, sequence := f.finding.sequence,
      fuzzTargetName := f.finding.fuzzTargetName, artifactPath := f.finding.artifactPath,
      requiresSanitizerThread := f.finding.requiresSanitizerThread, createdAt := f.createdAt }

/-- `SELECT_FINDING WHERE f.run_id = $1 ORDER BY f.created_at`. -/
def listFindingsForRun (d : Db) (runId : Uuid) : List FindingRecord :=
  ((d.findings.filter fun f => f.2.runId = runId).filterMap fun (id, f) => findingRecord d id f).mergeSort
    fun a b => a.createdAt ≤ b.createdAt

/-- `SELECT_FINDING WHERE f.id = $1`. -/
def getFinding (d : Db) (id : Uuid) : Option FindingRecord := do
  let f ← d.finding id
  findingRecord d id f

theorem getRun_some {d : Db} {now : DateTime} {id : Uuid} {rec : RunRecord} (h : getRun d now id = some rec) :
    ∃ r c, d.run id = some r ∧ d.campaign r.campaignId = some c ∧ rec.status = r.status ∧
      rec.startedAt = r.startedAt ∧ rec.finishedAt = r.finishedAt ∧ rec.elapsedSecs = elapsedSecs now r := by
  obtain ⟨r, hr, h⟩ := Option.bind_eq_some_iff.mp h
  obtain ⟨c, hc, h⟩ := Option.bind_eq_some_iff.mp h
  cases h
  exact ⟨r, c, hr, hc, rfl, rfl, rfl, rfl⟩

theorem roundSecs_nonneg {micros : Int} (h : 0 ≤ micros) : 0 ≤ roundSecs micros := by
  rw [roundSecs, if_pos h]
  omega

theorem elapsedSecs_nonneg {now : DateTime} {r : RunRow}
    (h : ∀ started, r.startedAt = some started → started ≤ r.finishedAt.getD now) : 0 ≤ elapsedSecs now r := by
  unfold elapsedSecs
  split
  · rename_i started hs
    have hle : (started : Int) ≤ r.finishedAt.getD now := Int.ofNat_le.mpr (h started hs)
    exact roundSecs_nonneg (by omega)
  · exact Int.le_refl 0

end SoroFuzz.Store
