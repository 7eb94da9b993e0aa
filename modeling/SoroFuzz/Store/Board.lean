/-
  SoroFuzz.Store.Board — what the store keeps, whichever implementation keeps it.

  A `Board` is a list of slots, oldest first, each a campaign with its one run and its one
  job, and the findings posted so far. A moment is a `Stamp`: `MockStore` and Postgres
  each read their own clock. `Board.mock` is the board as `MockStore`'s vectors hold it;
  the rows that Postgres holds are under ids renamed by a `Renaming`.

  Proved:
  - `Board.add`, `Board.alter`, `Board.post`, `Board.drop`: the changes a board goes
    through keep its invariants, which are its fields.
-/

import SoroFuzz.Store.Mock
import SoroFuzz.Lib.Keyed

namespace SoroFuzz.Store

open Lib.Keyed

/-- A moment, as each store's clock reads it. -/
structure Stamp where
  mock : DateTime
  pg : DateTime
  deriving DecidableEq, Repr

/-- The ids that Postgres generates for those that `MockStore` does. -/
structure Renaming where
  campaign : Uuid → Uuid
  run : Uuid → Uuid
  job : Uuid → Uuid
  finding : Uuid → Uuid
  campaign_injective : Function.Injective campaign
  run_injective : Function.Injective run
  job_injective : Function.Injective job
  finding_injective : Function.Injective finding

/-- A campaign, its run and its job, with what only Postgres keeps of them. -/
structure Slot where
  campaignId : Uuid
  runId : Uuid
  jobId : Uuid
  input : NewCampaign
  status : CampaignStatus
  iterations : Int
  logTail : Option String
  claimedBy : Option String
  attempts : Int
  createdAt : Stamp
  startedAt : Option Stamp
  finishedAt : Option Stamp
  updatedAt : DateTime
  claimedAt : Option DateTime
  worker : Option String

/-- A finding, with the campaign of its run. -/
structure Posted where
  id : Uuid
  runId : Uuid
  campaignId : Uuid
  targetId : String
  finding : NewFinding
  createdAt : Stamp

namespace Slot

def record (s : Slot) : CampaignRecord :=
  { id := s.campaignId, targetId := s.input.targetId, name := s.input.name, invariantIds := s.input.invariantIds,
    timeBudgetSecs := s.input.timeBudgetSecs, status := s.status, runId := s.runId, createdAt := s.createdAt.mock }

def mockRun (s : Slot) : MockRun :=
  { id := s.runId, campaignId := s.campaignId, status := s.status.mirror, iterations := s.iterations,
    startedAt := s.startedAt.map Stamp.mock, finishedAt := s.finishedAt.map Stamp.mock, logTail := s.logTail }

def mockJob (s : Slot) : MockJob :=
  { id := s.jobId, campaignId := s.campaignId, runId := s.runId, claimedBy := s.claimedBy, attempts := s.attempts }

/-- The run's record, as `MockStore::get_run` returns it. -/
def runRecord (s : Slot) (elapsedSecs : Int) (findingsCount : Nat) : RunRecord :=
  { id := s.runId, campaignId := s.campaignId, targetId := s.input.targetId, status := s.status.mirror,
    timeBudgetSecs := s.input.timeBudgetSecs, elapsedSecs, iterations := s.iterations, findingsCount,
    startedAt := s.startedAt.map Stamp.mock, finishedAt := s.finishedAt.map Stamp.mock }

variable (ρ : Renaming)

def campaignRow (s : Slot) : CampaignRow :=
  { targetId := s.input.targetId, name := s.input.name, invariantIds := s.input.invariantIds,
    timeBudgetSecs := s.input.timeBudgetSecs, status := s.status, createdAt := s.createdAt.pg,
    updatedAt := s.updatedAt }

def runRow (s : Slot) : RunRow :=
  { campaignId := ρ.campaign s.campaignId, status := s.status.mirror, iterations := s.iterations,
    startedAt := s.startedAt.map Stamp.pg, finishedAt := s.finishedAt.map Stamp.pg, worker := s.worker,
    logTail := s.logTail }

def jobRow (s : Slot) : JobRow :=
  { campaignId := ρ.campaign s.campaignId, runId := ρ.run s.runId, claimedBy := s.claimedBy, claimedAt := s.claimedAt,
    attempts := s.attempts, createdAt := s.createdAt.pg }

/-- The campaign's record, as `SELECT_CAMPAIGN_WITH_RUN` returns it. -/
def pgRecord (s : Slot) : CampaignRecord :=
  { id := ρ.campaign s.campaignId, targetId := s.input.targetId, name := s.input.name,
    invariantIds := s.input.invariantIds, timeBudgetSecs := s.input.timeBudgetSecs, status := s.status,
    runId := ρ.run s.runId, createdAt := s.createdAt.pg }

/-- The run's record, as `SELECT_RUN` returns it. -/
def pgRunRecord (s : Slot) (elapsedSecs : Int) (findingsCount : Nat) : RunRecord :=
  { id := ρ.run s.runId, campaignId := ρ.campaign s.campaignId, targetId := s.input.targetId,
    status := s.status.mirror, timeBudgetSecs := s.input.timeBudgetSecs, elapsedSecs, iterations := s.iterations,
    findingsCount, startedAt := s.startedAt.map Stamp.pg, finishedAt := s.finishedAt.map Stamp.pg }

end Slot

namespace Posted

def record (f : Posted) : FindingRecord :=
  { id := f.id, runId := f.runId, campaignId := f.campaignId, targetId := f.targetId, invariant := f.finding.invariant,
    message := f.finding.message, stepIndex := f.finding.stepIndex, sequence := f.finding.sequence,
    fuzzTargetName := f.finding.fuzzTargetName, artifactPath := f.finding.artifactPath,
    requiresSanitizerThread := f.finding.requiresSanitizerThread, createdAt := f.createdAt.mock }

variable (ρ : Renaming)

def row (f : Posted) : FindingRow := ⟨ρ.run f.runId, f.finding, f.createdAt.pg⟩

/-- The finding's record, as `SELECT_FINDING` returns it. -/
def pgRecord (f : Posted) : FindingRecord :=
  { id := ρ.finding f.id, runId := ρ.run f.runId, campaignId := ρ.campaign f.campaignId, targetId := f.targetId,
    invariant := f.finding.invariant, message := f.finding.message, stepIndex := f.finding.stepIndex,
    sequence := f.finding.sequence, fuzzTargetName := f.finding.fuzzTargetName, artifactPath := f.finding.artifactPath,
    requiresSanitizerThread := f.finding.requiresSanitizerThread, createdAt := f.createdAt.pg }

end Posted

/-- The finding is of the run of one of the slots. -/
def Posted.Of (slots : List Slot) (f : Posted) : Prop :=
  ∃ s ∈ slots, s.runId = f.runId ∧ s.campaignId = f.campaignId ∧ s.input.targetId = f.targetId

/-- The slots in the order they were created, and the findings of their runs. -/
structure Board where
  slots : List Slot
  posted : List Posted
  campaignIds : (slots.map Slot.campaignId).Nodup
  runIds : (slots.map Slot.runId).Nodup
  jobIds : (slots.map Slot.jobId).Nodup
  findingIds : (posted.map Posted.id).Nodup
  posted_of : ∀ f ∈ posted, f.Of slots
  mock_later : slots.Pairwise (·.createdAt.mock < ·.createdAt.mock)
  pg_later : slots.Pairwise (·.createdAt.pg < ·.createdAt.pg)

namespace Board

def empty : Board := ⟨[], [], .nil, .nil, .nil, .nil, nofun, .nil, .nil⟩

def mock (b : Board) : MockStore :=
  ⟨b.slots.map Slot.record, b.slots.map Slot.mockRun, b.slots.map Slot.mockJob, b.posted.map Posted.record⟩

variable (b : Board)

theorem slot_of_campaignId {s t : Slot} (hs : s ∈ b.slots) (ht : t ∈ b.slots) (h : s.campaignId = t.campaignId) :
    s = t := List.inj_on_of_nodup_map b.campaignIds hs ht h

theorem slot_of_runId {s t : Slot} (hs : s ∈ b.slots) (ht : t ∈ b.slots) (h : s.runId = t.runId) : s = t :=
  List.inj_on_of_nodup_map b.runIds hs ht h

theorem slot_of_jobId {s t : Slot} (hs : s ∈ b.slots) (ht : t ∈ b.slots) (h : s.jobId = t.jobId) : s = t :=
  List.inj_on_of_nodup_map b.jobIds hs ht h

/-- What a change of a slot leaves alone: its ids, what it was created with, and when. -/
structure Keeps (f : Slot → Slot) : Prop where
  campaignId : ∀ s, (f s).campaignId = s.campaignId
  runId : ∀ s, (f s).runId = s.runId
  jobId : ∀ s, (f s).jobId = s.jobId
  input : ∀ s, (f s).input = s.input
  createdAt : ∀ s, (f s).createdAt = s.createdAt

/-- A new slot, created after the others. -/
def add (s : Slot) (hc : ∀ t ∈ b.slots, t.campaignId ≠ s.campaignId) (hr : ∀ t ∈ b.slots, t.runId ≠ s.runId)
    (hj : ∀ t ∈ b.slots, t.jobId ≠ s.jobId) (hm : ∀ t ∈ b.slots, t.createdAt.mock < s.createdAt.mock)
    (hp : ∀ t ∈ b.slots, t.createdAt.pg < s.createdAt.pg) : Board where
  slots := b.slots ++ [s]
  posted := b.posted
  campaignIds := by
    rw [List.map_append]
    exact b.campaignIds.append (List.nodup_singleton _) (by simpa using hc)
  runIds := by
    rw [List.map_append]
    exact b.runIds.append (List.nodup_singleton _) (by simpa using hr)
  jobIds := by
    rw [List.map_append]
    exact b.jobIds.append (List.nodup_singleton _) (by simpa using hj)
  findingIds := b.findingIds
  posted_of f hf := by
    obtain ⟨t, ht, h⟩ := b.posted_of f hf
    exact ⟨t, List.mem_append_left _ ht, h⟩
  mock_later := List.pairwise_append.mpr ⟨b.mock_later, List.pairwise_singleton _ _, by simpa using hm⟩
  pg_later := List.pairwise_append.mpr ⟨b.pg_later, List.pairwise_singleton _ _, by simpa using hp⟩

/-- The slot whose `id` is `i` changes. -/
def alter (id : Slot → Uuid) (i : Uuid) {f : Slot → Slot} (h : Keeps f) : Board where
  slots := change id i f b.slots
  posted := b.posted
  campaignIds := by rw [map_change_frame h.campaignId]; exact b.campaignIds
  runIds := by rw [map_change_frame h.runId]; exact b.runIds
  jobIds := by rw [map_change_frame h.jobId]; exact b.jobIds
  findingIds := b.findingIds
  posted_of g hg := by
    obtain ⟨s, hs, hr, hc, ht⟩ := b.posted_of g hg
    refine ⟨_, mem_change.mpr ⟨s, hs, rfl⟩, ?_⟩
    split
    · rw [h.runId, h.campaignId, h.input]
      exact ⟨hr, hc, ht⟩
    · exact ⟨hr, hc, ht⟩
  mock_later := by
    have hmap : (change id i f b.slots).map (·.createdAt.mock) = b.slots.map (·.createdAt.mock) :=
      map_change_frame fun s => by rw [h.createdAt]
    refine List.pairwise_map.mp (hmap ▸ ?_)
    exact List.pairwise_map.mpr b.mock_later
  pg_later := by
    have hmap : (change id i f b.slots).map (·.createdAt.pg) = b.slots.map (·.createdAt.pg) :=
      map_change_frame fun s => by rw [h.createdAt]
    refine List.pairwise_map.mp (hmap ▸ ?_)
    exact List.pairwise_map.mpr b.pg_later

theorem find?_alter {id : Slot → Uuid} {s : Slot} {f : Slot → Slot} (h : Keeps f) (hs : s ∈ b.slots)
    (hnd : ((b.alter id (id s) h).slots.map id).Nodup) (hid : id (f s) = id s) :
    (b.alter id (id s) h).slots.find? (fun t => id t = id s) = some (f s) := by
  have hmem : f s ∈ (b.alter id (id s) h).slots := mem_change.mpr ⟨s, hs, if_pos rfl⟩
  have hfind := find?_id hnd hmem
  rwa [hid] at hfind

/-- What a change of a slot does not show. -/
theorem alter_map {α : Type} {proj : Slot → α} {id : Slot → Uuid} {i : Uuid} {f : Slot → Slot} (h : Keeps f)
    (hproj : ∀ s, proj (f s) = proj s) : (b.alter id i h).slots.map proj = b.slots.map proj := map_change_frame hproj

/-- New findings of one slot. -/
def post (fs : List Posted) (hnd : (fs.map Posted.id).Nodup) (hnew : ∀ f ∈ fs, ∀ g ∈ b.posted, g.id ≠ f.id)
    (hs : ∀ f ∈ fs, f.Of b.slots) : Board :=
  { b with
    posted := b.posted ++ fs
    findingIds := by
      rw [List.map_append]
      refine b.findingIds.append hnd fun i hi hi' => ?_
      obtain ⟨g, hg, rfl⟩ := List.mem_map.mp hi
      obtain ⟨f, hf, he⟩ := List.mem_map.mp hi'
      exact hnew f hf g hg he.symm
    posted_of := by
      intro f hf
      rcases List.mem_append.mp hf with hf | hf
      · exact b.posted_of f hf
      · exact hs f hf }

theorem post_mock {fs : List Posted} {hnd : (fs.map Posted.id).Nodup} {hnew : ∀ f ∈ fs, ∀ g ∈ b.posted, g.id ≠ f.id}
    {hs : ∀ f ∈ fs, f.Of b.slots} :
    (b.post fs hnd hnew hs).mock = { b.mock with findings := b.mock.findings ++ fs.map Posted.record } := by
  simp [mock, post]

/-- The findings of a run are gone. -/
def drop (runId : Uuid) : Board :=
  { b with
    posted := b.posted.filter (·.runId ≠ runId)
    findingIds := (List.filter_sublist.map _).nodup b.findingIds
    posted_of := fun f hf => b.posted_of f (List.mem_of_mem_filter hf) }

end Board

end SoroFuzz.Store
