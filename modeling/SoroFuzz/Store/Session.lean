/-
  SoroFuzz.Store.Session — the `Store` trait as something that is asked one operation after
  the other (`store/mod.rs`), once answered by `MockStore` and once by `PgStore`.

  An operation comes with what it draws from outside: the ids generated (`Op`), and what
  each store reads of its clock (`Request`). The two stores generate different ids, so
  `PgStore` is asked the operation with its ids renamed. `Result.Same` is when two results
  are the same, but for ids, timestamps and the time elapsed; `Valid` is which operations
  may come next.
-/

import SoroFuzz.Store.Board
import Mathlib.Data.Multiset.ZeroCons

namespace SoroFuzz.Store

/-- The methods of `Store` on campaigns, runs and findings, with their arguments and the ids
    that they generate. -/
inductive Op where
  | createCampaign (campaignId runId jobId : Uuid) (input : NewCampaign)
  | listCampaigns (filter : CampaignFilter)
  | getCampaign (id : Uuid)
  | cancelCampaign (id : Uuid)
  | claimJob (workerId : String)
  | startRun (runId : Uuid) (workerId : String)
  | finishRun (runId : Uuid) (finish : RunFinish) (ids : Nat → Uuid)
  | getRun (id : Uuid)
  | listFindingsForRun (runId : Uuid)
  | getFinding (id : Uuid)

/-- Postgres takes every text that the operation hands to it. -/
def Op.storable : Op → Bool
  | .createCampaign _ _ _ input => input.storable
  | .listCampaigns filter => filter.storable
  | .claimJob workerId | .startRun _ workerId => Store.storable workerId
  | .finishRun _ finish _ => finish.storable
  | _ => true

/-- An operation, with the readings of `MockStore`'s clock, Postgres's `now()`, and the order
    in which Postgres scans the rows that ORDER BY leaves tied. -/
structure Request where
  op : Op
  clock : Nat → DateTime
  now : DateTime
  tie : Uuid → Nat

/-- What a method returns; `error` is its `StoreError`. -/
inductive Result where
  | created (c : CampaignRecord)
  | campaigns (cs : List CampaignRecord)
  | campaign (c : Option CampaignRecord)
  | claimed (j : Option ClaimedJob)
  | started (b : Bool)
  | finished
  | run (r : Option RunRecord)
  | findings (fs : List FindingRecord)
  | finding (f : Option FindingRecord)
  | error

/-! ## The two stores -/

/-- `none` when the method panics. -/
def MockStore.step (m : MockStore) (q : Request) : Option (Result × MockStore) :=
  match q.op with
  | .createCampaign campaignId runId jobId input =>
    let (record, m') := m.createCampaign campaignId runId jobId input (q.clock 0)
    some (.created record, m')
  | .listCampaigns filter => some (.campaigns (m.listCampaigns filter), m)
  | .getCampaign id => some (.campaign (m.getCampaign id), m)
  | .cancelCampaign id =>
    let (record, m') := m.cancelCampaign id (q.clock 0)
    some (.campaign record, m')
  | .claimJob workerId =>
    let (job, m') := m.claimJob workerId
    some (.claimed job, m')
  | .startRun runId _ =>
    let (started, m') := m.startRun runId (q.clock 0)
    some (.started started, m')
  | .finishRun runId finish ids => (m.finishRun runId finish ids q.clock).map fun m' => (.finished, m')
  | .getRun id => (m.getRun id (q.clock 0)).map fun record => (.run record, m)
  | .listFindingsForRun runId => some (.findings (m.listFindingsForRun runId), m)
  | .getFinding id => some (.finding (m.getFinding id), m)

def Reply.result : Reply → Result
  | .created c => .created c
  | .campaign c => .campaign c
  | .claimed j => .claimed j
  | .started b => .started b
  | .finished => .finished
  | .error => .error

namespace PgStore

/-- A transaction that no other runs into. -/
def perform (d : Db) (now : DateTime) (c : Call) : Option (Result × Db) :=
  let (reply, d') := Lib.ReadCommitted.alone (body c now) [] d
  some (reply.result, d')

def step (d : Db) (q : Request) : Option (Result × Db) :=
  match q.op with
  | .createCampaign campaignId runId jobId input => perform d q.now (.createCampaign campaignId runId jobId input)
  | .listCampaigns filter =>
    match listCampaigns d filter with
    | some rows => some (.campaigns rows, d)
    | none => some (.error, d)
  | .getCampaign id => perform d q.now (.getCampaign id)
  | .cancelCampaign id => perform d q.now (.cancelCampaign id)
  | .claimJob workerId => perform d q.now (.claimJob q.tie workerId)
  | .startRun runId workerId => perform d q.now (.startRun runId workerId)
  | .finishRun runId finish ids => perform d q.now (.finishRun runId finish ids)
  | .getRun id => some (.run (getRun d q.now id), d)
  | .listFindingsForRun runId => some (.findings (listFindingsForRun d runId), d)
  | .getFinding id => some (.finding (getFinding d id), d)

end PgStore

/-! ## The same, up to a renaming -/

variable (ρ : Renaming)

def Op.renamed : Op → Op
  | .createCampaign campaignId runId jobId input =>
    .createCampaign (ρ.campaign campaignId) (ρ.run runId) (ρ.job jobId) input
  | .listCampaigns filter => .listCampaigns filter
  | .getCampaign id => .getCampaign (ρ.campaign id)
  | .cancelCampaign id => .cancelCampaign (ρ.campaign id)
  | .claimJob workerId => .claimJob workerId
  | .startRun runId workerId => .startRun (ρ.run runId) workerId
  | .finishRun runId finish ids => .finishRun (ρ.run runId) finish fun k => ρ.finding (ids k)
  | .getRun id => .getRun (ρ.run id)
  | .listFindingsForRun runId => .listFindingsForRun (ρ.run runId)
  | .getFinding id => .getFinding (ρ.finding id)

/-- `PgStore`, asked in terms of `MockStore`'s ids. -/
def PgStore.renamed (d : Db) (q : Request) : Option (Result × Db) := PgStore.step d { q with op := q.op.renamed ρ }

/-- All but `created_at`. -/
structure CampaignRecord.Same (c c' : CampaignRecord) : Prop where
  id : c'.id = ρ.campaign c.id
  targetId : c'.targetId = c.targetId
  name : c'.name = c.name
  invariantIds : c'.invariantIds = c.invariantIds
  timeBudgetSecs : c'.timeBudgetSecs = c.timeBudgetSecs
  status : c'.status = c.status
  runId : c'.runId = ρ.run c.runId

structure ClaimedJob.Same (j j' : ClaimedJob) : Prop where
  jobId : j'.jobId = ρ.job j.jobId
  campaignId : j'.campaignId = ρ.campaign j.campaignId
  runId : j'.runId = ρ.run j.runId
  attempts : j'.attempts = j.attempts

/-- All but `elapsed_secs`, and when the run was started and finished. -/
structure RunRecord.Same (r r' : RunRecord) : Prop where
  id : r'.id = ρ.run r.id
  campaignId : r'.campaignId = ρ.campaign r.campaignId
  targetId : r'.targetId = r.targetId
  status : r'.status = r.status
  timeBudgetSecs : r'.timeBudgetSecs = r.timeBudgetSecs
  iterations : r'.iterations = r.iterations
  findingsCount : r'.findingsCount = r.findingsCount
  startedAt : r'.startedAt.isSome = r.startedAt.isSome
  finishedAt : r'.finishedAt.isSome = r.finishedAt.isSome

/-- All but `created_at`. -/
structure FindingRecord.Same (f f' : FindingRecord) : Prop where
  id : f'.id = ρ.finding f.id
  runId : f'.runId = ρ.run f.runId
  campaignId : f'.campaignId = ρ.campaign f.campaignId
  targetId : f'.targetId = f.targetId
  invariant : f'.invariant = f.invariant
  message : f'.message = f.message
  stepIndex : f'.stepIndex = f.stepIndex
  sequence : f'.sequence = f.sequence
  fuzzTargetName : f'.fuzzTargetName = f.fuzzTargetName
  artifactPath : f'.artifactPath = f.artifactPath
  requiresSanitizerThread : f'.requiresSanitizerThread = f.requiresSanitizerThread

/-- Campaigns in the same order, findings as multisets; an error is never the same as anything. -/
inductive Result.Same : Result → Result → Prop
  | created {c c' : CampaignRecord} : c.Same ρ c' → Same (.created c) (.created c')
  | campaigns {cs cs' : List CampaignRecord} : List.Forall₂ (CampaignRecord.Same ρ) cs cs' →
      Same (.campaigns cs) (.campaigns cs')
  | campaign {c c' : Option CampaignRecord} : Option.Rel (CampaignRecord.Same ρ) c c' →
      Same (.campaign c) (.campaign c')
  | claimed {j j' : Option ClaimedJob} : Option.Rel (ClaimedJob.Same ρ) j j' → Same (.claimed j) (.claimed j')
  | started (b : Bool) : Same (.started b) (.started b)
  | finished : Same .finished .finished
  | run {r r' : Option RunRecord} : Option.Rel (RunRecord.Same ρ) r r' → Same (.run r) (.run r')
  | findings {fs fs' : List FindingRecord} : Multiset.Rel (FindingRecord.Same ρ) fs fs' →
      Same (.findings fs) (.findings fs')
  | finding {f f' : Option FindingRecord} : Option.Rel (FindingRecord.Same ρ) f f' → Same (.finding f) (.finding f')

/-! ## What may be asked -/

/-- The generated ids are new, and on both clocks the campaign is created after the others. -/
structure Creates (m : MockStore) (d : Db) (campaignId runId jobId : Uuid) (q : Request) : Prop where
  campaign : ∀ c ∈ m.campaigns, c.id ≠ campaignId
  run : ∀ r ∈ m.runs, r.id ≠ runId
  job : ∀ j ∈ m.jobs, j.id ≠ jobId
  later : ∀ c ∈ m.campaigns, c.createdAt < q.clock 0
  pgLater : ∀ c ∈ d.campaigns, c.2.createdAt < q.now

/-- The page is not negative, and the filter's bounds lie between the same creations on both
    clocks, as they do when there are none or the clocks agree. -/
structure Lists (m : MockStore) (d : Db) (filter : CampaignFilter) : Prop where
  limit : 0 ≤ filter.limit
  offset : 0 ≤ filter.offset
  since : ∀ c ∈ m.campaigns, ∀ r ∈ d.campaign (ρ.campaign c.id),
    filter.since.all (· ≤ c.createdAt) = filter.since.all (· ≤ r.createdAt)
  until_ : ∀ c ∈ m.campaigns, ∀ r ∈ d.campaign (ρ.campaign c.id),
    filter.until_.all (c.createdAt ≤ ·) = filter.until_.all (r.createdAt ≤ ·)

section lists
variable {ρ} {m : MockStore} {d : Db} {filter : CampaignFilter}

theorem Lists.of_unbounded (hl : 0 ≤ filter.limit) (ho : 0 ≤ filter.offset) (hs : filter.since = none)
    (hu : filter.until_ = none) : Lists ρ m d filter where
  limit := hl
  offset := ho
  since c _ r _ := by rw [hs]; rfl
  until_ c _ r _ := by rw [hu]; rfl

/-- Clocks that agree leave the bounds free. -/
theorem Lists.of_agreeing (hl : 0 ≤ filter.limit) (ho : 0 ≤ filter.offset)
    (h : ∀ c ∈ m.campaigns, ∀ r ∈ d.campaign (ρ.campaign c.id), r.createdAt = c.createdAt) :
    Lists ρ m d filter where
  limit := hl
  offset := ho
  since c hc r hr := by rw [h c hc r hr]
  until_ c hc r hr := by rw [h c hc r hr]

end lists

/-- The run is one that the store created, and the ids generated for its findings are new. -/
structure Finishes (m : MockStore) (runId : Uuid) (finish : RunFinish) (ids : Nat → Uuid) : Prop where
  run : ∃ r ∈ m.runs, r.id = runId
  new : ∀ k < finish.findings.length, ∀ f ∈ m.findings, f.id ≠ ids k
  distinct : ∀ j < finish.findings.length, ∀ k < finish.findings.length, ids j = ids k → j = k

/-- The operation may be asked of the stores as they are; the reads, `cancel_campaign`,
    `claim_job` and `start_run` may always be, on whatever id. -/
def Valid (m : MockStore) (d : Db) (q : Request) : Prop :=
  match q.op with
  | .createCampaign campaignId runId jobId _ => Creates m d campaignId runId jobId q
  | .listCampaigns filter => Lists ρ m d filter
  | .finishRun runId finish ids => Finishes m runId finish ids
  | _ => True

section decidable
variable (m : MockStore) (d : Db)

instance (campaignId runId jobId : Uuid) (q : Request) : Decidable (Creates m d campaignId runId jobId q) :=
  decidable_of_iff ((∀ c ∈ m.campaigns, c.id ≠ campaignId) ∧ (∀ r ∈ m.runs, r.id ≠ runId) ∧
    (∀ j ∈ m.jobs, j.id ≠ jobId) ∧ (∀ c ∈ m.campaigns, c.createdAt < q.clock 0) ∧
      ∀ c ∈ d.campaigns, c.2.createdAt < q.now)
    ⟨fun ⟨hc, hr, hj, hl, hp⟩ => ⟨hc, hr, hj, hl, hp⟩, fun ⟨hc, hr, hj, hl, hp⟩ => ⟨hc, hr, hj, hl, hp⟩⟩

instance (filter : CampaignFilter) : Decidable (Lists ρ m d filter) :=
  decidable_of_iff (0 ≤ filter.limit ∧ 0 ≤ filter.offset ∧
    (∀ c ∈ m.campaigns, ∀ r ∈ d.campaign (ρ.campaign c.id),
      filter.since.all (· ≤ c.createdAt) = filter.since.all (· ≤ r.createdAt)) ∧
    ∀ c ∈ m.campaigns, ∀ r ∈ d.campaign (ρ.campaign c.id),
      filter.until_.all (c.createdAt ≤ ·) = filter.until_.all (r.createdAt ≤ ·))
    ⟨fun ⟨hl, ho, hs, hu⟩ => ⟨hl, ho, hs, hu⟩, fun ⟨hl, ho, hs, hu⟩ => ⟨hl, ho, hs, hu⟩⟩

instance (runId : Uuid) (finish : RunFinish) (ids : Nat → Uuid) : Decidable (Finishes m runId finish ids) :=
  decidable_of_iff ((∃ r ∈ m.runs, r.id = runId) ∧
    (∀ k < finish.findings.length, ∀ f ∈ m.findings, f.id ≠ ids k) ∧
      ∀ j < finish.findings.length, ∀ k < finish.findings.length, ids j = ids k → j = k)
    ⟨fun ⟨hr, hn, hd⟩ => ⟨hr, hn, hd⟩, fun ⟨hr, hn, hd⟩ => ⟨hr, hn, hd⟩⟩

instance : ∀ q, Decidable (Valid ρ m d q)
  | ⟨.createCampaign campaignId runId jobId input, clock, now, tie⟩ =>
    inferInstanceAs (Decidable (Creates m d campaignId runId jobId
      ⟨.createCampaign campaignId runId jobId input, clock, now, tie⟩))
  | ⟨.listCampaigns filter, _, _, _⟩ => inferInstanceAs (Decidable (Lists ρ m d filter))
  | ⟨.finishRun runId finish ids, _, _, _⟩ => inferInstanceAs (Decidable (Finishes m runId finish ids))
  | ⟨.getCampaign _, _, _, _⟩ | ⟨.cancelCampaign _, _, _, _⟩ | ⟨.claimJob _, _, _, _⟩ | ⟨.startRun _ _, _, _, _⟩
  | ⟨.getRun _, _, _, _⟩ | ⟨.listFindingsForRun _, _, _, _⟩ | ⟨.getFinding _, _, _, _⟩ => .isTrue trivial

end decidable

end SoroFuzz.Store
