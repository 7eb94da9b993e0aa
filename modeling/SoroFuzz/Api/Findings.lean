/-
  SoroFuzz.Api.Findings — the handlers of `GET /runs/{id}`, `GET /runs/{id}/findings` and
  `GET /findings/{id}` (`api/runs.rs`, `api/findings.rs`), and what they show of a run.

  A handler is given what its reads of the store answer, each at its own time. How the
  `uuid` crate reads and shows ids is a parameter.

  Proved:
  - `findings_shown`: once a run's `finish_run` has committed, its findings are what the
    runner found, each once, in every answer from then on.
  - `found_by_runner`: no finding is ever shown but one that a runner found, of the run
    that it ran, and of that run's campaign.
  - `routes_agree`: the two routes of a run fail alike, and count alike.
-/

import Mathlib.Data.List.FinRange
import SoroFuzz.Api.Campaigns
import SoroFuzz.Lib.Fallible
import SoroFuzz.Queue.AtMostOnce
import SoroFuzz.Queue.Kept
import SoroFuzz.Queue.Origin
import SoroFuzz.Store.Read

namespace SoroFuzz.Store

/-! ## The rows of a finished run -/

section shelf
variable {d : Db} {runId : Uuid} {fs : List NewFinding} {ids : Nat → Uuid} {b : DateTime}

/-- `WHERE f.run_id = $1`. -/
theorem Shelf.rows_perm (h : Shelf d runId fs ids b) :
    (d.findings.filter fun f => f.2.runId = runId).Perm
      (List.ofFn fun k : Fin fs.length => (ids k, (⟨runId, fs.get k, b⟩ : FindingRow))) := by
  have hinj : Function.Injective fun k : Fin fs.length => (ids k, (⟨runId, fs.get k, b⟩ : FindingRow)) := by
    intro j k hjk
    exact Fin.ext (h.distinct j j.isLt k k.isLt (Prod.mk.inj hjk).1)
  refine (List.perm_ext_iff_of_nodup (d.findings_nodup.filter _) (List.nodup_ofFn.mpr hinj)).mpr fun e => ?_
  obtain ⟨i, f⟩ := e
  rw [List.mem_filter, Db.mem_findings, List.mem_ofFn, decide_eq_true_iff]
  constructor
  · rintro ⟨hi, hf⟩
    obtain ⟨k, hk, rfl⟩ := h.only i f hi hf
    have hrow := h.row k _ (List.getElem?_eq_getElem hk)
    rw [hi] at hrow
    cases hrow
    exact ⟨⟨k, hk⟩, rfl⟩
  · rintro ⟨k, hk⟩
    cases hk
    exact ⟨h.row k _ (List.getElem?_eq_getElem k.isLt), rfl⟩

/-- What the reads return of a finding of the run. -/
def shown (runId campaignId : Uuid) (targetId : String) (id : Uuid) (f : NewFinding) (b : DateTime) :
    FindingRecord where
  id := id
  runId := runId
  campaignId := campaignId
  targetId := targetId
  invariant := f.invariant
  message := f.message
  stepIndex := f.stepIndex
  sequence := f.sequence
  fuzzTargetName := f.fuzzTargetName
  artifactPath := f.artifactPath
  requiresSanitizerThread := f.requiresSanitizerThread
  createdAt := b

variable {r : RunRow} {input : NewCampaign}

theorem findingRecord_shown (hr : d.run runId = some r) (hc : CreatedWith d r.campaignId input) {id : Uuid}
    {f : FindingRow} (hf : f.runId = runId) :
    findingRecord d id f = some (shown runId r.campaignId input.targetId id f.finding f.createdAt) := by
  obtain ⟨c, hc, rfl⟩ := hc
  subst hf
  rw [findingRecord, hr]
  simp only [Option.bind_eq_bind, Option.bind_some, hc]
  rfl

theorem Shelf.list_perm (h : Shelf d runId fs ids b) (hr : d.run runId = some r)
    (hc : CreatedWith d r.campaignId input) :
    (listFindingsForRun d runId).Perm
      (List.ofFn fun k : Fin fs.length => shown runId r.campaignId input.targetId (ids k) (fs.get k) b) := by
  refine (List.mergeSort_perm _ _).trans ((h.rows_perm.filterMap _).trans (List.Perm.of_eq ?_))
  rw [List.ofFn_eq_map, List.ofFn_eq_map, List.filterMap_map, ← List.filterMap_eq_map]
  exact List.filterMap_congr fun k _ => findingRecord_shown hr hc rfl

theorem Shelf.get (h : Shelf d runId fs ids b) (hr : d.run runId = some r) (hc : CreatedWith d r.campaignId input)
    (k : Fin fs.length) :
    getFinding d (ids k) = some (shown runId r.campaignId input.targetId (ids k) (fs.get k) b) := by
  rw [getFinding, h.row k _ (List.getElem?_eq_getElem k.isLt)]
  exact findingRecord_shown hr hc rfl

end shelf

end SoroFuzz.Store

namespace SoroFuzz.Api

open SoroFuzz.Store

def ApiError.notFound (error message : String) : ApiError := ⟨404, error, message⟩

/-- The store's answer, or its error. -/
abbrev StoreResult (α : Type) := Except Unit α

/-- `impl From<StoreError> for ApiError`. -/
def ofStore {α : Type} : StoreResult α → Except ApiError α
  | .ok a => .ok a
  | .error _ => .error .internal

/-- The `uuid` crate's `parse_str` and `Display`. -/
structure UuidText where
  parse : String → Option Uuid
  display : Uuid → String

def parseUuid (U : UuidText) (raw : String) : Except ApiError Uuid :=
  match U.parse raw with
  | some id => .ok id
  | none => .error (.badRequest "invalid_id" ("`" ++ raw ++ "` is not a valid id"))

/-- `ok_or_else`. -/
def orNotFound {α : Type} (error message : String) : Option α → Except ApiError α
  | some a => .ok a
  | none => .error (.notFound error message)

/-! ## runs.rs -/

structure RunDto where
  id : Uuid
  campaignId : Uuid
  targetId : String
  status : RunStatus
  timeBudgetSecs : Int
  elapsedSecs : Int
  iterations : Int
  findingsCount : Nat
  startedAt : Option DateTime
  /-- `endedAt` in the response. -/
  finishedAt : Option DateTime
  deriving DecidableEq, Repr

def RunDto.from_ (r : RunRecord) : RunDto where
  id := r.id
  campaignId := r.campaignId
  targetId := r.targetId
  status := r.status
  timeBudgetSecs := r.timeBudgetSecs
  elapsedSecs := r.elapsedSecs
  iterations := r.iterations
  findingsCount := r.findingsCount
  startedAt := r.startedAt
  finishedAt := r.finishedAt

variable (U : UuidText)

def getRun (store : Uuid → StoreResult (Option RunRecord)) (raw : String) : Except ApiError RunDto := do
  let id ← parseUuid U raw
  let record ← orNotFound "run_not_found" ("no run with id " ++ U.display id) (← ofStore (store id))
  .ok (.from_ record)

/-! ## findings.rs -/

structure FindingSummaryDto where
  id : Uuid
  runId : Uuid
  invariant : String
  message : String
  stepIndex : Int
  createdAt : DateTime
  deriving DecidableEq, Repr

def FindingSummaryDto.from_ (r : FindingRecord) : FindingSummaryDto where
  id := r.id
  runId := r.runId
  invariant := r.invariant
  message := r.message
  stepIndex := r.stepIndex
  createdAt := r.createdAt

structure ReproInfoDto where
  fuzzTargetName : String
  artifactPath : String
  requiresSanitizerThread : Bool
  deriving DecidableEq, Repr

structure FindingDto where
  id : Uuid
  runId : Uuid
  invariant : String
  message : String
  stepIndex : Int
  createdAt : DateTime
  campaignId : Uuid
  targetId : String
  sequence : List FindingStep
  repro : ReproInfoDto
  deriving DecidableEq, Repr

def FindingDto.from_ (r : FindingRecord) : FindingDto where
  id := r.id
  runId := r.runId
  invariant := r.invariant
  message := r.message
  stepIndex := r.stepIndex
  createdAt := r.createdAt
  campaignId := r.campaignId
  targetId := r.targetId
  sequence := r.sequence
  repro := ⟨r.fuzzTargetName, r.artifactPath, r.requiresSanitizerThread⟩

def listFindingsForRun (run : Uuid → StoreResult (Option RunRecord))
    (findings : Uuid → StoreResult (List FindingRecord)) (raw : String) : Except ApiError (List FindingSummaryDto) := do
  let runId ← parseUuid U raw
  -- "No findings yet" is told apart from "no such run".
  let _ ← orNotFound "run_not_found" ("no run with id " ++ U.display runId) (← ofStore (run runId))
  let findings ← ofStore (findings runId)
  .ok (findings.map .from_)

def getFinding (finding : Uuid → StoreResult (Option FindingRecord)) (raw : String) : Except ApiError FindingDto := do
  let id ← parseUuid U raw
  let record ← orNotFound "finding_not_found" ("no finding with id " ++ U.display id) (← ofStore (finding id))
  .ok (.from_ record)

end SoroFuzz.Api

namespace SoroFuzz.Queue

open SoroFuzz.Store

/-! ## Who found them -/

variable {ws : Nat → Worker} {s : World}

/-- A `finish_run` stores what the runner answered. -/
theorem finished_by (h : World.Reach ws s) {runId : Uuid} {f : RunFinish}
    (hf : Finished (World.commits s.log) runId f) :
    ∃ k job a, .ran k job a ∈ s.log ∧ .invoked k job ∈ s.log ∧ job.runId = runId ∧
      f = (ws k).finish job.fuzzTargetName a := by
  obtain ⟨S, hS⟩ := custody h
  obtain ⟨tx, ids, hm⟩ := hf
  obtain ⟨hbegan, -⟩ := hS.sound.committed _ _ _ (World.mem_commits.mp hm)
  obtain ⟨k, job, a, hran, hrun, hfin⟩ := hS.trace.finishes _ _ _ _ hbegan
  exact ⟨k, job, a, hran, (hS.trace.rans k job a hran).2, hrun, hfin⟩

/-- What is found of a run is found of the campaign it was created with. -/
theorem run_created (h : World.Reach ws s) {campaignId runId jobId : Uuid} {input : NewCampaign}
    (hc : Created (World.commits s.log) campaignId runId jobId input) :
    CreatedWith s.pg.db campaignId input ∧ ∃ r, Db.run s.pg.db runId = some r ∧ r.campaignId = campaignId :=
  (origin h).created _ _ _ _ hc

end SoroFuzz.Queue

namespace SoroFuzz.Api

open SoroFuzz.Store
open SoroFuzz.Queue (Worker World RunJob RunFinding RunResult RunnerError)

/-! ## What is shown of a run -/

section runs
variable {U : UuidText} {ws : Nat → Worker} {s : World}

theorem parseUuid_ok_iff {raw : String} {id : Uuid} : parseUuid U raw = .ok id ↔ U.parse raw = some id := by
  unfold parseUuid
  cases U.parse raw with
  | none => simp
  | some i => simp

theorem ofStore_ok_iff {α : Type} {x : StoreResult α} {a : α} : ofStore x = .ok a ↔ x = .ok a := by
  cases x with
  | error e => simp [ofStore]
  | ok b => simp [ofStore]

theorem orNotFound_ok_iff {α : Type} {error message : String} {x : Option α} {a : α} :
    orNotFound error message x = .ok a ↔ x = some a := by
  cases x with
  | none => simp [orNotFound]
  | some b => simp [orNotFound]

theorem getRun_ok_iff {store : Uuid → StoreResult (Option RunRecord)} {raw : String} {dto : RunDto} :
    getRun U store raw = .ok dto ↔
      ∃ id record, U.parse raw = some id ∧ store id = .ok (some record) ∧ dto = .from_ record := by
  simp only [getRun, Lib.bind_eq_ok, parseUuid_ok_iff, ofStore_ok_iff, orNotFound_ok_iff]
  constructor
  · rintro ⟨id, hid, _, hs, record, rfl, hdto⟩
    cases hdto
    exact ⟨id, record, hid, hs, rfl⟩
  · rintro ⟨id, record, hid, hs, rfl⟩
    exact ⟨id, hid, _, hs, record, rfl, rfl⟩

theorem listFindingsForRun_ok_iff {run : Uuid → StoreResult (Option RunRecord)}
    {findings : Uuid → StoreResult (List FindingRecord)} {raw : String} {dtos : List FindingSummaryDto} :
    listFindingsForRun U run findings raw = .ok dtos ↔ ∃ runId record found, U.parse raw = some runId ∧
      run runId = .ok (some record) ∧ findings runId = .ok found ∧ dtos = found.map .from_ := by
  simp only [listFindingsForRun, Lib.bind_eq_ok, parseUuid_ok_iff, ofStore_ok_iff, orNotFound_ok_iff]
  constructor
  · rintro ⟨id, hid, _, hs, record, rfl, found, hf, hdto⟩
    cases hdto
    exact ⟨id, record, found, hid, hs, hf, rfl⟩
  · rintro ⟨id, record, found, hid, hs, hf, rfl⟩
    exact ⟨id, hid, _, hs, record, rfl, found, hf, rfl⟩

theorem getFinding_ok_iff {finding : Uuid → StoreResult (Option FindingRecord)} {raw : String} {dto : FindingDto} :
    getFinding U finding raw = .ok dto ↔
      ∃ id record, U.parse raw = some id ∧ finding id = .ok (some record) ∧ dto = .from_ record := by
  simp only [getFinding, Lib.bind_eq_ok, parseUuid_ok_iff, ofStore_ok_iff, orNotFound_ok_iff]
  constructor
  · rintro ⟨id, hid, _, hs, record, rfl, hdto⟩
    cases hdto
    exact ⟨id, record, hid, hs, rfl⟩
  · rintro ⟨id, record, hid, hs, rfl⟩
    exact ⟨id, hid, _, hs, record, rfl, rfl⟩

/-- What a finished run's `finish_run` stored is in every later answer. -/
theorem shelf_shown (h : World.Reach ws s) {campaignId runId jobId : Uuid} {input : NewCampaign} {f : RunFinish}
    (hc : Created (World.commits s.log) campaignId runId jobId input) (hf : Finished (World.commits s.log) runId f)
    {fs : List NewFinding} {ids : Nat → Uuid} {b : DateTime} (hshelf : Shelf s.pg.db runId fs ids b) {s1 s2 : World}
    (h1 : World.Onward ws s s1) (h2 : World.Onward ws s1 s2) :
    (∀ now raw, U.parse raw = some runId →
      ∃ dtos, listFindingsForRun U (fun id => .ok (Store.getRun s1.pg.db now id))
          (fun id => .ok (Store.listFindingsForRun s2.pg.db id)) raw = .ok dtos ∧
        dtos.Perm (List.ofFn fun i : Fin fs.length =>
          .from_ (shown runId campaignId input.targetId (ids i) (fs.get i) b))) ∧
    ∀ (i : Fin fs.length) (raw : String), U.parse raw = some (ids i) →
      getFinding U (fun id => .ok (Store.getFinding s2.pg.db id)) raw =
        .ok (.from_ (shown runId campaignId input.targetId (ids i) (fs.get i) b)) := by
  have hr1 := Queue.onward_reach h h1
  have hr2 := Queue.onward_reach hr1 h2
  obtain ⟨⟨c1, hc1, -⟩, r1, hrun1, hid1⟩ := Queue.run_created hr1 (hc.mono (Queue.onward_subset h1))
  obtain ⟨hc2, r2, hrun2, hid2⟩ := Queue.run_created hr2 (hc.mono (Queue.onward_subset (h1.trans h2)))
  have hshelf2 := Queue.shelf_onward h (h1.trans h2) hf hshelf
  rw [← hid2] at hc2 ⊢
  refine ⟨fun now raw hraw => ?_, fun i raw hraw => ?_⟩
  · have hget : ∃ record, Store.getRun s1.pg.db now runId = some record := by
      rw [Store.getRun, hrun1]
      simp [hid1, hc1]
    obtain ⟨record, hget⟩ := hget
    refine ⟨_, listFindingsForRun_ok_iff.mpr ⟨runId, record, _, hraw, congrArg _ hget, rfl, rfl⟩, ?_⟩
    have hperm := (hshelf2.list_perm hrun2 hc2).map FindingSummaryDto.from_
    rwa [List.map_ofFn] at hperm
  · exact getFinding_ok_iff.mpr ⟨ids i, _, hraw, congrArg _ (hshelf2.get hrun2 hc2 i), rfl⟩

/-- Once a run's `finish_run` has committed, every answer shows what its runner found. -/
theorem findings_shown (h : World.Reach ws s) {runId : Uuid} {f : RunFinish}
    (hf : Finished (World.commits s.log) runId f) :
    ∃ (k : Nat) (job : RunJob) (a : Except RunnerError RunResult) (ids : Nat → Uuid) (b : DateTime) (jobId : Uuid)
      (input : NewCampaign), .ran k job a ∈ s.log ∧ job.runId = runId ∧ f = (ws k).finish job.fuzzTargetName a ∧
      Created (World.commits s.log) job.campaignId runId jobId input ∧
      (∀ i < f.findings.length, ∀ j < f.findings.length, ids i = ids j → i = j) ∧
      ∀ s1 s2, World.Onward ws s s1 → World.Onward ws s1 s2 →
        (∀ now raw, U.parse raw = some runId →
          ∃ dtos, listFindingsForRun U (fun id => .ok (Store.getRun s1.pg.db now id))
              (fun id => .ok (Store.listFindingsForRun s2.pg.db id)) raw = .ok dtos ∧
            dtos.Perm (List.ofFn fun i : Fin f.findings.length =>
              .from_ (shown runId job.campaignId input.targetId (ids i) (f.findings.get i) b))) ∧
        ∀ (i : Fin f.findings.length) (raw : String), U.parse raw = some (ids i) →
          getFinding U (fun id => .ok (Store.getFinding s2.pg.db id)) raw =
            .ok (.from_ (shown runId job.campaignId input.targetId (ids i) (f.findings.get i) b)) := by
  obtain ⟨k, job, a, hran, hinvoked, hrun, hfin⟩ := Queue.finished_by h hf
  obtain ⟨jobId, input, hc, -⟩ := Queue.ordered h hinvoked
  obtain ⟨tx, ids, hm⟩ := hf
  obtain ⟨b, hshelf⟩ := (Queue.findingsKept h).shelf tx runId f ids hm
  rw [hrun] at hc
  exact ⟨k, job, a, ids, b, jobId, input, hran, hrun, hfin, hc, hshelf.distinct,
    fun s1 s2 h1 h2 => shelf_shown h hc ⟨tx, ids, hm⟩ hshelf h1 h2⟩

/-- Ids that are shown in decimal. -/
def decimalIds : UuidText where
  parse raw := if raw.toList.all Char.isDigit then some (Nat.ofDigitChars 10 raw.toList 0) else none
  display := toString

/-- The run that the commit ended, and what it stored of it. -/
def ended : Commit → Option (Uuid × RunFinish)
  | ⟨_, .finishRun runId f _, .finished⟩ => some (runId, f)
  | _ => none

theorem finished_of_ended {cs : List Commit} {c : Commit} (hc : c ∈ cs) {runId : Uuid} {f : RunFinish}
    (h : ended c = some (runId, f)) : Finished cs runId f := by
  unfold ended at h
  split at h
  · cases h
    exact ⟨_, _, hc⟩
  · cases h

theorem findings_shown_crashRun : ∃ s dtos, World.play (fun _ => Queue.tokenWorker) World.init Queue.crashRun = some s ∧
    listFindingsForRun decimalIds (fun id => .ok (Store.getRun s.pg.db 0 id))
      (fun id => .ok (Store.listFindingsForRun s.pg.db id)) "2" = .ok dtos ∧ dtos.length = 1 := by
  obtain ⟨s, hs⟩ := Option.isSome_iff_exists.mp
    (show (World.play (fun _ => Queue.tokenWorker) World.init Queue.crashRun).isSome = true by decide)
  have hfin : (World.play (fun _ => Queue.tokenWorker) World.init Queue.crashRun).any (fun s =>
      (World.commits s.log).any fun c => (ended c).any fun x => x.1 = 2 ∧ x.2.findings.length = 1) = true := by decide
  rw [hs] at hfin
  obtain ⟨c, hc, hone⟩ := List.any_eq_true.mp (show (World.commits s.log).any _ = true from hfin)
  obtain ⟨⟨runId, f⟩, hended, hone⟩ := (Option.any_eq_true _ _).mp hone
  obtain ⟨rfl, hlen⟩ := of_decide_eq_true hone
  obtain ⟨_, _, _, _, _, _, _, -, -, -, -, -, hall⟩ :=
    findings_shown (U := decimalIds) (World.play_reach .init hs) (finished_of_ended hc hended)
  obtain ⟨dtos, hdtos, hperm⟩ := (hall s s .refl .refl).1 0 "2" (by decide)
  refine ⟨s, dtos, hs, hdtos, ?_⟩
  rw [hperm.length_eq, List.length_ofFn]
  exact hlen

/-- What it says of itself in a list. -/
def FindingDto.summary (dto : FindingDto) : FindingSummaryDto where
  id := dto.id
  runId := dto.runId
  invariant := dto.invariant
  message := dto.message
  stepIndex := dto.stepIndex
  createdAt := dto.createdAt

/-- It is one of the findings that a runner answered with, for a run that was created as
    `dto` says. -/
def Found (ws : Nat → Worker) (s : World) (dto : FindingDto) : Prop :=
  ∃ k job result finding jobId input, .ran k job (.ok result) ∈ s.log ∧ finding ∈ result.findings ∧
    Created (World.commits s.log) job.campaignId job.runId jobId input ∧
    dto = .from_ (shown job.runId job.campaignId input.targetId dto.id
      ((ws k).toNewFinding finding job.fuzzTargetName) dto.createdAt)

theorem mem_finish_findings {w : Worker} {name : String} {a : Except RunnerError RunResult} {g : NewFinding}
    (h : g ∈ (w.finish name a).findings) :
    ∃ result finding, a = .ok result ∧ finding ∈ result.findings ∧ g = w.toNewFinding finding name := by
  cases a with
  | error e => cases h
  | ok result =>
    obtain ⟨finding, hm, rfl⟩ := List.mem_map.mp h
    exact ⟨result, finding, rfl, hm, rfl⟩

theorem getFinding_found (h : World.Reach ws s) {id : Uuid} {record : FindingRecord}
    (hg : Store.getFinding s.pg.db id = some record) : Found ws s (.from_ record) := by
  rw [Store.getFinding] at hg
  obtain ⟨row, hrow, hrecord⟩ := Option.bind_eq_some_iff.mp hg
  obtain ⟨S, hS⟩ := Queue.custody h
  obtain ⟨f, hf⟩ := hS.history.findings id row hrow
  obtain ⟨k, job, a, hran, hinvoked, hrun, rfl⟩ := Queue.finished_by h hf
  obtain ⟨jobId, input, hc, -⟩ := Queue.ordered h hinvoked
  obtain ⟨hcreated, r, hr, hid⟩ := Queue.run_created h hc
  obtain ⟨tx, ids, hm⟩ := hf
  obtain ⟨b, hshelf⟩ := (Queue.findingsKept h).shelf tx _ _ ids hm
  obtain ⟨i, hi, rfl⟩ := hshelf.only id row hrow rfl
  have hstored := hshelf.row i _ (List.getElem?_eq_getElem hi)
  rw [hrow] at hstored
  obtain ⟨result, finding, rfl, hfinding, hg⟩ := mem_finish_findings (List.getElem_mem hi)
  rw [hg] at hstored
  have hfinding' : row.finding = (ws k).toNewFinding finding job.fuzzTargetName :=
    congrArg FindingRow.finding (Option.some.inj hstored)
  rw [← hid] at hcreated
  rw [findingRecord_shown hr hcreated hrun.symm, hfinding', hid] at hrecord
  cases hrecord
  exact ⟨k, job, result, finding, jobId, input, hran, hfinding, hc, rfl⟩

theorem findingRecord_id {d : Db} {id : Uuid} {f : FindingRow} {record : FindingRecord}
    (h : findingRecord d id f = some record) : record.id = id ∧ record.runId = f.runId := by
  obtain ⟨r, -, h⟩ := Option.bind_eq_some_iff.mp h
  obtain ⟨c, -, h⟩ := Option.bind_eq_some_iff.mp h
  cases h
  exact ⟨rfl, rfl⟩

/-- A run's findings are the findings that are of the run. -/
theorem mem_listFindingsForRun {d : Db} {runId : Uuid} {record : FindingRecord} :
    record ∈ Store.listFindingsForRun d runId ↔ Store.getFinding d record.id = some record ∧ record.runId = runId := by
  rw [Store.listFindingsForRun, List.mem_mergeSort, List.mem_filterMap, Store.getFinding]
  constructor
  · rintro ⟨⟨id, f⟩, hm, hrecord⟩
    obtain ⟨hm, hf⟩ := List.mem_filter.mp hm
    obtain ⟨rfl, hrun⟩ := findingRecord_id hrecord
    exact ⟨Option.bind_eq_some_iff.mpr ⟨f, Db.mem_findings.mp hm, hrecord⟩, hrun.trans (of_decide_eq_true hf)⟩
  · rintro ⟨hget, rfl⟩
    obtain ⟨f, hf, hrecord⟩ := Option.bind_eq_some_iff.mp hget
    have hrun := (findingRecord_id hrecord).2
    exact ⟨(record.id, f), List.mem_filter.mpr ⟨Db.mem_findings.mpr hf, decide_eq_true hrun.symm⟩, hrecord⟩

/-- No finding is shown but what a runner found, and what a list says of it is what it
    says of itself. -/
theorem found_by_runner (h : World.Reach ws s) :
    (∀ raw dto, getFinding U (fun id => .ok (Store.getFinding s.pg.db id)) raw = .ok dto → Found ws s dto) ∧
    ∀ run raw dtos, listFindingsForRun U run (fun id => .ok (Store.listFindingsForRun s.pg.db id)) raw = .ok dtos →
      ∀ x ∈ dtos, U.parse raw = some x.runId ∧ ∃ dto : FindingDto, x = dto.summary ∧ ∀ raw', U.parse raw' = some x.id →
        getFinding U (fun id => .ok (Store.getFinding s.pg.db id)) raw' = .ok dto := by
  refine ⟨fun raw dto hd => ?_, fun run raw dtos hd x hx => ?_⟩
  · obtain ⟨id, record, -, hget, rfl⟩ := getFinding_ok_iff.mp hd
    exact getFinding_found h (Except.ok.inj hget)
  · obtain ⟨runId, _, found, hid, -, hfound, rfl⟩ := listFindingsForRun_ok_iff.mp hd
    cases hfound
    obtain ⟨record, hm, rfl⟩ := List.mem_map.mp hx
    obtain ⟨hget, rfl⟩ := mem_listFindingsForRun.mp hm
    refine ⟨hid, .from_ record, rfl, fun raw' hraw => ?_⟩
    exact getFinding_ok_iff.mpr ⟨record.id, record, hraw, congrArg _ hget, rfl⟩

theorem found_by_runner_crashRun : ∃ s dto, World.play (fun _ => Queue.tokenWorker) World.init Queue.crashRun = some s ∧
    getFinding decimalIds (fun id => .ok (Store.getFinding s.pg.db id)) "0" = .ok dto ∧
    Found (fun _ => Queue.tokenWorker) s dto := by
  obtain ⟨s, hs⟩ := Option.isSome_iff_exists.mp
    (show (World.play (fun _ => Queue.tokenWorker) World.init Queue.crashRun).isSome = true by decide)
  have hok : (World.play (fun _ => Queue.tokenWorker) World.init Queue.crashRun).any (fun s =>
      (getFinding decimalIds (fun id => .ok (Store.getFinding s.pg.db id)) "0").isOk) = true := by decide
  rw [hs] at hok
  cases hdto : getFinding decimalIds (fun id => .ok (Store.getFinding s.pg.db id)) "0" with
  | error e =>
    have herr : (getFinding decimalIds (fun id => .ok (Store.getFinding s.pg.db id)) "0").isOk = true := hok
    rw [hdto] at herr
    cases herr
  | ok dto => exact ⟨s, dto, hs, hdto, (found_by_runner (World.play_reach .init hs)).1 "0" dto hdto⟩

/-! ## The two routes of a run -/

theorem parseUuid_error_iff {raw : String} {e : ApiError} : parseUuid U raw = .error e ↔
    U.parse raw = none ∧ e = .badRequest "invalid_id" ("`" ++ raw ++ "` is not a valid id") := by
  unfold parseUuid
  cases U.parse raw with
  | none => simp [eq_comm]
  | some i => simp

theorem orNotFound_error_iff {α : Type} {error message : String} {x : Option α} {e : ApiError} :
    orNotFound error message x = .error e ↔ x = none ∧ e = .notFound error message := by
  cases x with
  | none => simp [orNotFound, eq_comm]
  | some b => simp [orNotFound]

/-- Why both routes of a run fail, when the store answers. -/
def NoRun (U : UuidText) (run : Uuid → Option RunRecord) (raw : String) (e : ApiError) : Prop :=
  (U.parse raw = none ∧ e = .badRequest "invalid_id" ("`" ++ raw ++ "` is not a valid id")) ∨
    ∃ id, U.parse raw = some id ∧ run id = none ∧ e = .notFound "run_not_found" ("no run with id " ++ U.display id)

theorem getRun_error_iff {run : Uuid → Option RunRecord} {raw : String} {e : ApiError} :
    getRun U (fun id => .ok (run id)) raw = .error e ↔ NoRun U run raw e := by
  simp only [getRun, Lib.bind_eq_error, parseUuid_error_iff, parseUuid_ok_iff, ofStore, orNotFound_error_iff]
  refine or_congr_right (exists_congr fun id => and_congr_right fun _ => ?_)
  simp

theorem listFindingsForRun_error_iff {run : Uuid → Option RunRecord} {findings : Uuid → List FindingRecord} {raw : String}
    {e : ApiError} : listFindingsForRun U (fun id => .ok (run id)) (fun id => .ok (findings id)) raw = .error e ↔
      NoRun U run raw e := by
  simp only [listFindingsForRun, Lib.bind_eq_error, parseUuid_error_iff, parseUuid_ok_iff, ofStore,
    orNotFound_error_iff]
  refine or_congr_right (exists_congr fun id => and_congr_right fun _ => ?_)
  simp

/-- Of well-formed tables every run is returned. -/
theorem getRun_eq_none {d : Db} (h : Wf d) {now : DateTime} {id : Uuid} :
    Store.getRun d now id = none ↔ d.run id = none := by
  rw [Store.getRun]
  cases hr : d.run id with
  | none => simp
  | some r =>
    obtain ⟨c, hc⟩ := h.runCampaign id r hr
    simp [hc]

theorem findingsCount_eq {d : Db} {now : DateTime} {id : Uuid} {record : RunRecord}
    (hg : Store.getRun d now id = some record) :
    record.id = id ∧ record.findingsCount = (Store.listFindingsForRun d id).length := by
  obtain ⟨r, hr, hg⟩ := Option.bind_eq_some_iff.mp hg
  obtain ⟨c, hc, hg⟩ := Option.bind_eq_some_iff.mp hg
  cases hg
  refine ⟨rfl, ?_⟩
  rw [Store.listFindingsForRun, List.length_mergeSort]
  -- The joins drop none of the run's findings.
  have hall : ∀ e ∈ d.findings.filter fun f => f.2.runId = id, (findingRecord d e.1 e.2).isSome = true := by
    intro e he
    have hrun : e.2.runId = id := of_decide_eq_true (List.mem_filter.mp he).2
    rw [findingRecord, hrun, hr]
    simp [hc]
  exact (List.filterMap_length_eq_length.mpr hall).symm

/-- `GET /runs/{id}` and `GET /runs/{id}/findings` fail alike, when the id is none or no
    run has it; else the one counts what the other lists. -/
theorem routes_agree (h : World.Reach ws s) (now : DateTime) (raw : String) :
    let run := fun id => .ok (Store.getRun s.pg.db now id)
    let findings := fun id => .ok (Store.listFindingsForRun s.pg.db id)
    (∀ e, getRun U run raw = .error e ↔ listFindingsForRun U run findings raw = .error e) ∧
    (∀ e, getRun U run raw = .error e → (e.status = 400 ∧ U.parse raw = none) ∨
      (e.status = 404 ∧ ∃ id, U.parse raw = some id ∧ Db.run s.pg.db id = none)) ∧
    ∀ dto dtos, getRun U run raw = .ok dto → listFindingsForRun U run findings raw = .ok dtos →
      dto.findingsCount = dtos.length ∧ ∀ x ∈ dtos, x.runId = dto.id := by
  intro run findings
  have hwf : Wf s.pg.db := (Queue.reach_sound h).ok.inv
  refine ⟨fun e => ?_, fun e => ?_, fun dto dtos hd hl => ?_⟩
  · exact getRun_error_iff.trans listFindingsForRun_error_iff.symm
  · intro he
    rcases getRun_error_iff.mp he with ⟨hid, rfl⟩ | ⟨id, hid, hnone, rfl⟩
    · exact Or.inl ⟨rfl, hid⟩
    · exact Or.inr ⟨rfl, id, hid, (getRun_eq_none hwf).mp hnone⟩
  · obtain ⟨id, record, hid, hrun, rfl⟩ := getRun_ok_iff.mp hd
    obtain ⟨id', _, found, hid', -, hfound, rfl⟩ := listFindingsForRun_ok_iff.mp hl
    rw [hid] at hid'
    cases hid'
    cases hfound
    obtain ⟨hrid, hcount⟩ := findingsCount_eq (Except.ok.inj hrun)
    refine ⟨hcount.trans (List.length_map _).symm, fun x hx => ?_⟩
    obtain ⟨f, hf, rfl⟩ := List.mem_map.mp hx
    exact (mem_listFindingsForRun.mp hf).2.trans hrid.symm

theorem routes_agree_crashRun : ∃ s dto dtos, World.play (fun _ => Queue.tokenWorker) World.init Queue.crashRun = some s ∧
    getRun decimalIds (fun id => .ok (Store.getRun s.pg.db 0 id)) "2" = .ok dto ∧
    listFindingsForRun decimalIds (fun id => .ok (Store.getRun s.pg.db 0 id))
      (fun id => .ok (Store.listFindingsForRun s.pg.db id)) "2" = .ok dtos ∧
    dto.findingsCount = dtos.length ∧ ∀ x ∈ dtos, x.runId = dto.id := by
  obtain ⟨s, hs⟩ := Option.isSome_iff_exists.mp
    (show (World.play (fun _ => Queue.tokenWorker) World.init Queue.crashRun).isSome = true by decide)
  have hok : (World.play (fun _ => Queue.tokenWorker) World.init Queue.crashRun).any (fun s =>
      (getRun decimalIds (fun id => .ok (Store.getRun s.pg.db 0 id)) "2").isOk) = true := by decide
  rw [hs] at hok
  have hrunOk : (getRun decimalIds (fun id => .ok (Store.getRun s.pg.db 0 id)) "2").isOk = true := hok
  obtain ⟨herror, -, hcount⟩ := routes_agree (U := decimalIds) (World.play_reach .init hs) 0 "2"
  cases hdto : getRun decimalIds (fun id => .ok (Store.getRun s.pg.db 0 id)) "2" with
  | error e =>
    rw [hdto] at hrunOk
    cases hrunOk
  | ok dto =>
    cases hdtos : listFindingsForRun decimalIds (fun id => .ok (Store.getRun s.pg.db 0 id))
        (fun id => .ok (Store.listFindingsForRun s.pg.db id)) "2" with
    | error e =>
      have hrun := (herror e).mpr hdtos
      rw [hdto] at hrun
      cases hrun
    | ok dtos => exact ⟨s, dto, dtos, hs, hdto, hdtos, hcount dto dtos hdto hdtos⟩

end runs

end SoroFuzz.Api
