/-
  SoroFuzz.Store.Sequential — what each method does, called when no other is under way,
  to `MockStore`'s vectors and to Postgres's tables when they hold the same board.

  Proved, method by method (`mock_...` and `pg_...`): both go from the board to the same
  next board, and reply from the same slot of it.
-/

import SoroFuzz.Store.Tables
import SoroFuzz.Store.Commit
import Mathlib.Data.List.Find

namespace SoroFuzz.Store

open Lib.Keyed
open Lib.Sql
open Lib.ReadCommitted (alone applyAll applyAll_nil applyAll_cons applyAll_append apply_some lookup_applyAll_other)

/-! ## How a slot changes -/

namespace Slot

/-- A campaign just created, its run pending and its job unclaimed. -/
def new (campaignId runId jobId : Uuid) (input : NewCampaign) (now : Stamp) : Slot :=
  { campaignId, runId, jobId, input, status := .queued, iterations := 0, logTail := none, claimedBy := none,
    attempts := 0, createdAt := now, startedAt := none, finishedAt := none, updatedAt := now.pg, claimedAt := none,
    worker := none }

def cancel (now : Stamp) (s : Slot) : Slot :=
  { s with status := .cancelled, finishedAt := some now, updatedAt := now.pg }

def claim (workerId : String) (now : DateTime) (s : Slot) : Slot :=
  { s with claimedBy := some workerId, claimedAt := some now, attempts := s.attempts + 1 }

def start (now : Stamp) (workerId : String) (s : Slot) : Slot :=
  { s with status := .running, startedAt := some now, worker := some workerId, updatedAt := now.pg }

def finish (now : Stamp) (finish : RunFinish) (s : Slot) : Slot :=
  { s with
    status := finish.status.campaignStatus, iterations := finish.iterations, logTail := finish.logTail,
    finishedAt := some now, updatedAt := now.pg }

/-- What `finish_run` posts, from its `k`th finding on. -/
def postings (s : Slot) (ids : Nat → Uuid) (clock : Nat → DateTime) (now : DateTime) (fs : List NewFinding) (k : Nat) :
    List Posted :=
  (fs.zipIdx k).map fun (f, j) =>
    { id := ids j, runId := s.runId, campaignId := s.campaignId, targetId := s.input.targetId, finding := f,
      createdAt := ⟨clock j, now⟩ }

/-- They get the ids generated, one after the other. -/
theorem postings_ids (s : Slot) (ids : Nat → Uuid) (clock : Nat → DateTime) (now : DateTime) (fs : List NewFinding) :
    (s.postings ids clock now fs 0).map Posted.id = (List.range fs.length).map ids := by
  rw [postings, List.map_map, List.range_eq_range', ← List.zipIdx_map_snd, List.map_map]
  rfl

theorem postings_of {s t : Slot} {slots : List Slot} {ids : Nat → Uuid} {clock : Nat → DateTime} {now : DateTime}
    {fs : List NewFinding} {k : Nat} (ht : t ∈ slots) (hr : t.runId = s.runId) (hc : t.campaignId = s.campaignId)
    (hi : t.input = s.input) : ∀ f ∈ s.postings ids clock now fs k, f.Of slots := by
  intro f hf
  obtain ⟨e, -, rfl⟩ := List.mem_map.mp hf
  exact ⟨t, ht, hr, hc, congrArg NewCampaign.targetId hi⟩

theorem keeps_cancel (now : Stamp) : Board.Keeps (cancel now) :=
  ⟨fun _ => rfl, fun _ => rfl, fun _ => rfl, fun _ => rfl, fun _ => rfl⟩

theorem keeps_claim (workerId : String) (now : DateTime) : Board.Keeps (claim workerId now) :=
  ⟨fun _ => rfl, fun _ => rfl, fun _ => rfl, fun _ => rfl, fun _ => rfl⟩

theorem keeps_start (now : Stamp) (workerId : String) : Board.Keeps (start now workerId) :=
  ⟨fun _ => rfl, fun _ => rfl, fun _ => rfl, fun _ => rfl, fun _ => rfl⟩

theorem keeps_finish (now : Stamp) (f : RunFinish) : Board.Keeps (finish now f) :=
  ⟨fun _ => rfl, fun _ => rfl, fun _ => rfl, fun _ => rfl, fun _ => rfl⟩

end Slot

variable {b : Board} {s : Slot}

/-- The slot found by an id: it is on the board, and no other has the id. -/
theorem Board.find?_spec {id : Slot → Uuid} {i : Uuid} (hs : b.slots.find? (fun s => id s = i) = some s) :
    s ∈ b.slots ∧ id s = i := ⟨List.mem_of_find?_eq_some hs, by simpa using List.find?_some hs⟩

/-! ## MockStore -/

section mock

theorem mock_find_campaign (id : Uuid) :
    b.mock.campaigns.find? (·.id = id) = (b.slots.find? (·.campaignId = id)).map Slot.record := List.find?_map

theorem mock_find_campaign_of_run (id : Uuid) :
    b.mock.campaigns.find? (·.runId = id) = (b.slots.find? (·.runId = id)).map Slot.record := List.find?_map

theorem mock_find_run (id : Uuid) : b.mock.runs.find? (·.id = id) = (b.slots.find? (·.runId = id)).map Slot.mockRun :=
  List.find?_map

/-- Changing the vectors in place is changing the board. -/
theorem modifyFirst_map {α : Type} {proj : Slot → α} {p : α → Bool} {g : α → α} {id : Slot → Uuid} {f : Slot → Slot}
    (hnd : (b.slots.map id).Nodup) (hs : b.slots.find? (fun s => p (proj s)) = some s)
    (hg : proj (f s) = g (proj s)) :
    MockStore.modifyFirst p g (b.slots.map proj) = (change id (id s) f b.slots).map proj := replaceF_map hnd hs hg

theorem mock_cancelCampaign {id : Uuid} (now : Stamp) (hs : b.slots.find? (·.campaignId = id) = some s)
    (hterm : s.status.isTerminal = false) :
    b.mock.cancelCampaign id now.mock =
      (some (s.cancel now).record, (b.alter Slot.campaignId s.campaignId (Slot.keeps_cancel now)).mock) := by
  rw [MockStore.cancelCampaign, mock_find_campaign, hs]
  have hnot : ¬ s.record.status.isTerminal = true := by simp [Slot.record, hterm]
  simp only [Option.map_some, if_neg hnot, Prod.mk.injEq, MockStore.mk.injEq, Board.mock]
  refine ⟨rfl, ?_, ?_, ?_, rfl⟩
  · exact modifyFirst_map b.campaignIds hs rfl
  · exact modifyFirst_map b.campaignIds hs rfl
  · exact (b.alter_map (Slot.keeps_cancel now) fun _ => rfl).symm

theorem mock_cancelCampaign_terminal {id : Uuid} (now : DateTime) (hs : b.slots.find? (·.campaignId = id) = some s)
    (hterm : s.status.isTerminal = true) : b.mock.cancelCampaign id now = (some s.record, b.mock) := by
  rw [MockStore.cancelCampaign, mock_find_campaign, hs]
  exact if_pos hterm

theorem mock_getRun_none {id : Uuid} (now : DateTime) (hs : b.slots.find? (·.runId = id) = none) :
    b.mock.getRun id now = some none := by
  rw [MockStore.getRun, mock_find_run, hs]
  rfl

theorem mock_getRun {id : Uuid} (now : DateTime) (hs : b.slots.find? (·.runId = id) = some s) :
    b.mock.getRun id now =
      some (some (s.runRecord (MockStore.elapsedSecs s.mockRun now) (b.posted.filter (·.runId = id)).length)) := by
  have hcount : (b.mock.findings.filter (·.runId = id)).length = (b.posted.filter (·.runId = id)).length := by
    rw [show b.mock.findings = b.posted.map Posted.record from rfl, List.filter_map, List.length_map]
    rfl
  rw [MockStore.getRun, mock_find_run, mock_find_campaign_of_run, hs, hcount]
  rfl

theorem mock_listFindingsForRun (runId : Uuid) :
    (b.mock.listFindingsForRun runId).Perm ((b.posted.filter (·.runId = runId)).map Posted.record) := by
  refine (List.mergeSort_perm _ _).trans (List.Perm.of_eq ?_)
  rw [show b.mock.findings = b.posted.map Posted.record from rfl, List.filter_map]
  rfl

/-- The run's job can be claimed. -/
def Slot.claimable (s : Slot) : Bool := s.claimedBy.isNone && decide (s.status = .queued)

theorem CampaignStatus.mirror_pending {s : CampaignStatus} : s.mirror = .pending ↔ s = .queued := by
  cases s <;> simp [CampaignStatus.mirror]

theorem CampaignStatus.mirror_running {s : CampaignStatus} : s.mirror = .running ↔ s = .running := by
  cases s <;> simp [CampaignStatus.mirror]

theorem mock_claimable (hs : s ∈ b.slots) : MockStore.claimable b.mock.runs s.mockJob = s.claimable := by
  have hany : (b.mock.runs.any fun r => decide (r.id = s.runId ∧ r.status = .pending)) =
      decide (s.status = .queued) := by
    rw [Bool.eq_iff_iff, List.any_eq_true, decide_eq_true_iff]
    constructor
    · intro hm
      obtain ⟨r, hr, hp⟩ := hm
      obtain ⟨t, ht, rfl⟩ := List.mem_map.mp hr
      obtain ⟨hid, hst⟩ := of_decide_eq_true hp
      rw [b.slot_of_runId ht hs hid] at hst
      exact CampaignStatus.mirror_pending.mp hst
    · intro hq
      exact ⟨_, List.mem_map_of_mem hs, decide_eq_true ⟨rfl, CampaignStatus.mirror_pending.mpr hq⟩⟩
  exact congrArg (s.claimedBy.isNone && ·) hany

theorem mock_find_job : b.mock.jobs.find? (MockStore.claimable b.mock.runs) =
    (b.slots.find? Slot.claimable).map Slot.mockJob := by
  rw [show b.mock.jobs = b.slots.map Slot.mockJob from rfl, List.find?_map]
  congr 1
  exact List.find?_congr fun t ht => mock_claimable ht

theorem mock_claimJob (workerId : String) (now : DateTime) (hs : b.slots.find? Slot.claimable = some s) :
    b.mock.claimJob workerId =
      (some ⟨s.jobId, s.campaignId, s.runId, s.attempts + 1⟩,
        (b.alter Slot.jobId s.jobId (Slot.keeps_claim workerId now)).mock) := by
  have hj : b.slots.find? (fun t => MockStore.claimable b.mock.runs t.mockJob) = some s := by
    rw [← hs]
    exact List.find?_congr fun t ht => mock_claimable ht
  rw [MockStore.claimJob, mock_find_job, hs]
  simp only [Option.map_some, Prod.mk.injEq, MockStore.mk.injEq, Board.mock]
  refine ⟨rfl, ?_, ?_, ?_, rfl⟩
  · exact (b.alter_map (Slot.keeps_claim workerId now) fun _ => rfl).symm
  · exact (b.alter_map (Slot.keeps_claim workerId now) fun _ => rfl).symm
  · exact modifyFirst_map b.jobIds hj rfl

theorem mock_startRun {runId : Uuid} (now : Stamp) (workerId : String) (hs : b.slots.find? (·.runId = runId) = some s)
    (hq : s.status = .queued) :
    b.mock.startRun runId now.mock =
      (true, ((b.alter Slot.runId s.runId (Slot.keeps_start now workerId)).drop runId).mock) := by
  rw [MockStore.startRun, mock_find_run, hs]
  have hnot : ¬ s.mockRun.status ≠ .pending := not_not.mpr (CampaignStatus.mirror_pending.mpr hq)
  simp only [Option.map_some, if_neg hnot, Prod.mk.injEq, MockStore.mk.injEq, Board.mock]
  refine ⟨trivial, ?_, ?_, ?_, ?_⟩
  · exact modifyFirst_map b.runIds hs (if_pos hq).symm
  · exact modifyFirst_map b.runIds hs rfl
  · exact (b.alter_map (Slot.keeps_start now workerId) fun _ => rfl).symm
  · exact List.filter_map

theorem mock_startRun_not {runId : Uuid} (now : DateTime)
    (hs : ∀ s, b.slots.find? (·.runId = runId) = some s → s.status ≠ .queued) :
    b.mock.startRun runId now = (false, b.mock) := by
  rw [MockStore.startRun, mock_find_run]
  cases hf : b.slots.find? (·.runId = runId) with
  | none => rfl
  | some s => exact if_pos (fun e => hs s hf (CampaignStatus.mirror_pending.mp e))

/-- Each finding is pushed with the run's campaign. -/
theorem mock_pushFindings {ids : Nat → Uuid} {clock : Nat → DateTime} (now : DateTime) (fs : List NewFinding) :
    ∀ (m : MockStore) (k : Nat), m.campaigns.find? (·.runId = s.runId) = some s.record →
      m.pushFindings s.runId ids clock fs k =
        some { m with findings := m.findings ++ (s.postings ids clock now fs k).map Posted.record } := by
  induction fs with
  | nil =>
    intro m k _
    simp [MockStore.pushFindings, Slot.postings]
  | cons f fs ih =>
    intro m k hm
    simp only [MockStore.pushFindings, MockStore.findFindingRecord, hm, Option.map_some, Option.bind_eq_bind,
      Option.bind_some]
    rw [ih _ (k + 1)]
    · simp [Slot.postings, Posted.record, Slot.record]
    · exact hm

section finish
variable {finish : RunFinish} {ids : Nat → Uuid} {clock : Nat → DateTime} (now : Stamp) {fs : List Posted}

theorem mock_finishRun (hs : b.slots.find? (·.runId = s.runId) = some s) (hr : s.status = .running)
    (hnow : now.mock = clock 0) {b' : Board} (hb' : b.alter Slot.runId s.runId (Slot.keeps_finish now finish) = b')
    (hfs : s.postings ids (fun k => clock (k + 1)) now.pg finish.findings 0 = fs) (hnd hnew hslot) :
    b.mock.finishRun s.runId finish ids clock = some (b'.post fs hnd hnew hslot).mock := by
  have hb := Board.find?_spec hs
  have hruns : MockStore.modifyFirst (·.id = s.runId)
      (fun r : MockRun => { r with
        status := finish.status.runStatus, iterations := finish.iterations, logTail := finish.logTail,
        finishedAt := some (clock 0) }) b.mock.runs = b'.mock.runs := by
    rw [← hb']
    refine modifyFirst_map b.runIds hs ?_
    simp [Slot.mockRun, Slot.finish, hnow]
  have hcampaigns : MockStore.modifyFirst (·.runId = s.runId)
      (fun c : CampaignRecord => { c with status := finish.status.campaignStatus }) b.mock.campaigns =
      b'.mock.campaigns := by
    rw [← hb']
    exact modifyFirst_map b.runIds hs rfl
  have hjobs : b.mock.jobs = b'.mock.jobs := by
    rw [← hb']
    exact (b.alter_map (Slot.keeps_finish now finish) fun _ => rfl).symm
  have hfindings : b.mock.findings = b'.mock.findings := by rw [← hb']; rfl
  have hfind : b'.mock.campaigns.find? (·.runId = s.runId) = some (s.finish now finish).record := by
    subst hb'
    rw [mock_find_campaign_of_run, b.find?_alter (Slot.keeps_finish now finish) hb.1 (Board.runIds _) rfl]
    rfl
  have hstatus : b.mock.finishStatus s.runId finish (clock 0) = (true, { b.mock with runs := b'.mock.runs }) := by
    rw [MockStore.finishStatus, mock_find_run, hs, ← hruns]
    exact if_pos (CampaignStatus.mirror_running.mpr hr)
  rw [MockStore.finishRun, hstatus]
  dsimp only
  rw [hcampaigns, hjobs, hfindings, Board.post_mock, ← hfs]
  exact mock_pushFindings (s := s.finish now finish) now.pg _ _ 0 hfind

/-- Only the findings are posted. -/
theorem mock_finishRun_not (hs : b.slots.find? (·.runId = s.runId) = some s) (hr : s.status ≠ .running)
    (hfs : s.postings ids clock now.pg finish.findings 0 = fs) (hnd hnew hslot) :
    b.mock.finishRun s.runId finish ids clock = some (b.post fs hnd hnew hslot).mock := by
  have hfind : b.mock.campaigns.find? (·.runId = s.runId) = some s.record := by
    rw [mock_find_campaign_of_run, hs]
    rfl
  have hstatus : b.mock.finishStatus s.runId finish (clock 0) = (false, b.mock) := by
    rw [MockStore.finishStatus, mock_find_run, hs]
    exact if_neg (fun e => hr (CampaignStatus.mirror_running.mp e))
  rw [MockStore.finishRun, hstatus, Board.post_mock, ← hfs]
  exact mock_pushFindings now.pg _ _ 0 hfind

end finish

end mock

/-! ## Postgres -/

section pg
variable {ρ : Renaming} {d : Db}

/-- No run is of a campaign that is not there. -/
theorem runs_any_eq_false (h : Stored ρ b d) {id : Uuid} (hid : ∀ t ∈ b.slots, t.campaignId ≠ id) {c : CampaignRow} :
    ((Db.runs (d.insert (.campaigns (ρ.campaign id)) c)).any fun r => r.2.campaignId = ρ.campaign id) = false := by
  rw [List.any_eq_false]
  intro e he
  obtain ⟨i, r⟩ := e
  have hr : d.run i = some r := by simpa [Db.mem_runs] using he
  obtain ⟨t, ht, -, rfl⟩ := (h.slots.runs i r).mp hr
  rw [decide_eq_true_iff]
  exact fun e => hid t ht (ρ.campaign_injective e)

theorem pg_createCampaign (h : Stored ρ b d) {campaignId runId jobId : Uuid} {input : NewCampaign} (now : Stamp)
    (hin : input.storable = true) (hs : Slot.new campaignId runId jobId input now = s)
    (hc : ∀ t ∈ b.slots, t.campaignId ≠ s.campaignId) (hr : ∀ t ∈ b.slots, t.runId ≠ s.runId) (hj : ∀ t ∈ b.slots, t.jobId ≠ s.jobId)
    (hm : ∀ t ∈ b.slots, t.createdAt.mock < s.createdAt.mock) (hp : ∀ t ∈ b.slots, t.createdAt.pg < s.createdAt.pg) :
    ∃ d' : Db, alone (createCampaign (ρ.campaign campaignId) (ρ.run runId) (ρ.job jobId) input now.pg) [] d =
      (.created (s.pgRecord ρ), d') ∧ Stored ρ (b.add s hc hr hj hm hp) d' := by
  have hcampaign : d.campaign (ρ.campaign s.campaignId) = none :=
    h.slots.campaigns.lookup_none fun t ht e => hc t ht (ρ.campaign_injective e)
  have hrun : d.run (ρ.run s.runId) = none := h.slots.runs.lookup_none fun t ht e => hr t ht (ρ.run_injective e)
  have hjob : d.job (ρ.job s.jobId) = none := h.slots.jobs.lookup_none fun t ht e => hj t ht (ρ.job_injective e)
  have hstored : Stored ρ (b.add s hc hr hj hm hp) (applyAll (s.inserts ρ) d) := h.add hc hr hj
  have hrow : campaignWithRun (applyAll (s.inserts ρ) d) (ρ.campaign s.campaignId) = some (s.pgRecord ρ) := by
    have hmem : s ∈ (b.add s hc hr hj hm hp).slots := List.mem_append_right _ (List.mem_singleton.mpr rfl)
    rw [campaignWithRun_eq hstored, find?_id (Board.campaignIds _) hmem]
    rfl
  refine ⟨_, ?_, hstored⟩
  subst hs
  refine (alone_insertRow ?_ (by simp [hin])).trans ((alone_insertRow ?_ (runs_any_eq_false h hc)).trans
    ((alone_insertRow ?_ rfl).trans (alone_select.trans ?_)))
  · exact hcampaign
  · exact (lookup_applyAll_other _ _ (by simp)).trans hrun
  · exact (lookup_applyAll_other _ _ (by simp)).trans hjob
  · split
    · rename_i row heq
      cases hrow.symm.trans heq
      rfl
    · rename_i heq
      cases hrow.symm.trans heq

theorem pg_getCampaign (h : Stored ρ b d) (id : Uuid) :
    alone (getCampaign (ρ.campaign id)) [] d =
      (.campaign ((b.slots.find? (·.campaignId = id)).map (Slot.pgRecord ρ)), d) := by
  rw [getCampaign, alone_select, applyAll_nil, campaignWithRun_eq h]
  rfl

theorem pg_cancelCampaign_none (h : Stored ρ b d) {id : Uuid} (now : DateTime)
    (hs : b.slots.find? (·.campaignId = id) = none) :
    alone (cancelCampaign (ρ.campaign id) now) [] d = (.campaign none, d) := by
  rw [cancelCampaign, alone_select, applyAll_nil, campaignWithRun_eq h, hs]
  rfl

theorem pg_cancelCampaign_terminal (h : Stored ρ b d) {id : Uuid} (now : DateTime)
    (hs : b.slots.find? (·.campaignId = id) = some s) (hterm : s.status.isTerminal = true) :
    alone (cancelCampaign (ρ.campaign id) now) [] d = (.campaign (some (s.pgRecord ρ)), d) := by
  rw [cancelCampaign, alone_select, applyAll_nil, campaignWithRun_eq h, hs]
  dsimp only [Option.map_some]
  rw [if_pos (by exact hterm)]
  rfl

theorem pg_cancelCampaign (h : Stored ρ b d) {id : Uuid} (now : Stamp)
    (hs : b.slots.find? (·.campaignId = id) = some s) (hterm : s.status.isTerminal = false) :
    ∃ d' : Db, alone (cancelCampaign (ρ.campaign id) now.pg) [] d =
      (.campaign (some ((s.cancel now).pgRecord ρ)), d') ∧
        Stored ρ (b.alter Slot.campaignId s.campaignId (Slot.keeps_cancel now)) d' := by
  obtain ⟨hmem, rfl⟩ := Board.find?_spec hs
  have hcampaign : Db.campaign (applyAll [] d) (ρ.campaign s.campaignId) = some s.campaignRow :=
    h.slots.campaigns.lookup hmem
  have hrun : Db.run (applyAll ([] ++ puts [⟨.campaigns (ρ.campaign s.campaignId), (s.cancel now).campaignRow⟩]) d)
      (ρ.run s.runId) = some (s.runRow ρ) := (lookup_applyAll_other _ _ (by simp)).trans (h.slots.runs.lookup hmem)
  have hnot : ¬ (s.pgRecord ρ).status.isTerminal = true := by simp [Slot.pgRecord, hterm]
  refine ⟨applyAll [⟨.campaigns (ρ.campaign s.campaignId), some (s.cancel now).campaignRow⟩,
    ⟨.runs (ρ.run s.runId), some ((s.cancel now).runRow ρ)⟩] d, ?_, ?_, ?_⟩
  · rw [cancelCampaign, alone_select, applyAll_nil, campaignWithRun_eq h, hs]
    dsimp only [Option.map_some]
    rw [if_neg hnot]
    refine (alone_update (updates_campaigns hcampaign rfl fun _ _ _ h => h)).trans
      ((alone_update (updates_runs hrun rfl fun i r hr he => ?_)).trans rfl)
    exact h.wf.runUnique i _ r _ ((lookup_applyAll_other _ _ (by simp)).symm.trans hr) (h.slots.runs.lookup hmem) he
  · refine h.slots.moved hmem (fun _ ht e => b.slot_of_campaignId ht hmem e) (Slot.keeps_cancel now) (fun _ => rfl) ?_
    constructor <;> simp
  · intro i f
    simpa [Board.alter] using h.findings i f

/-- The jobs that can be claimed are those of the slots that can be. -/
theorem mem_claimable_slots (h : Stored ρ b d) {i : Uuid} {j : JobRow} :
    (i, j) ∈ claimable ⟨d, fun _ => false⟩ ↔
      ∃ s ∈ b.slots, s.claimable = true ∧ ρ.job s.jobId = i ∧ s.jobRow ρ = j := by
  rw [claimable, List.mem_filter, Db.mem_jobQueue]
  constructor
  · intro hm
    obtain ⟨hj, hc⟩ := hm
    obtain ⟨s, hs, rfl, rfl⟩ := (h.slots.jobs i j).mp hj
    refine ⟨s, hs, ?_, rfl, rfl⟩
    have hrun : d.run (ρ.run s.runId) = some (s.runRow ρ) := h.slots.runs.lookup hs
    simpa [hrun, Slot.claimable, Slot.jobRow, Slot.runRow, CampaignStatus.mirror_pending] using hc
  · intro hm
    obtain ⟨s, hs, hc, rfl, rfl⟩ := hm
    refine ⟨h.slots.jobs.lookup hs, ?_⟩
    have hrun : d.run (ρ.run s.runId) = some (s.runRow ρ) := h.slots.runs.lookup hs
    simpa [hrun, Slot.claimable, Slot.jobRow, Slot.runRow, CampaignStatus.mirror_pending] using hc

theorem pg_claimJob_none (h : Stored ρ b d) (tie : Uuid → Nat) {workerId : String} (hid : storable workerId = true)
    (now : DateTime) (hs : b.slots.find? Slot.claimable = none) : alone (claimJob tie workerId now) [] d = (.claimed none, d) := by
  have hnil : claimable ⟨d, fun _ => false⟩ = [] := by
    rw [List.eq_nil_iff_forall_not_mem]
    intro e he
    obtain ⟨s, hs', hc, -⟩ := (mem_claimable_slots h).mp he
    exact List.find?_eq_none.mp hs s hs' hc
  exact alone_claimJob_none hid now (by rw [hnil]; rfl)

theorem pg_claimJob (h : Stored ρ b d) (tie : Uuid → Nat) {workerId : String} (hid : storable workerId = true)
    (now : DateTime) (hs : b.slots.find? Slot.claimable = some s) :
    ∃ d' : Db, alone (claimJob tie workerId now) [] d =
      (.claimed (some ⟨ρ.job s.jobId, ρ.campaign s.campaignId, ρ.run s.runId, s.attempts + 1⟩), d') ∧
        Stored ρ (b.alter Slot.jobId s.jobId (Slot.keeps_claim workerId now)) d' := by
  have hmem := List.mem_of_find?_eq_some hs
  have hold : oldest tie (claimable ⟨d, fun _ => false⟩) = some (ρ.job s.jobId, s.jobRow ρ) := by
    refine oldest_eq ((mem_claimable_slots h).mpr ⟨s, hmem, List.find?_some hs, rfl, rfl⟩) fun e he => ?_
    obtain ⟨t, ht, hc, hid, hrow⟩ := (mem_claimable_slots h).mp he
    rcases find?_first b.pg_later hs ht hc with rfl | hlt
    · exact Or.inl (Prod.ext hid.symm hrow.symm)
    · exact Or.inr (decide_eq_true (Or.inl (by rw [← hrow]; exact hlt)))
  refine ⟨d.insert (.jobQueue (ρ.job s.jobId)) ((s.claim workerId now).jobRow ρ), ?_, ?_, ?_⟩
  · exact alone_claimJob_some hid now hold
  · exact h.slots.claimed hmem (Slot.keeps_claim workerId now) (fun _ => rfl) (fun _ => rfl) (by simp) (by simp)
      (by simp)
  · intro i f
    simpa [Board.alter] using h.findings i f

theorem pg_startRun_not (h : Stored ρ b d) {runId : Uuid} {workerId : String} (hid : storable workerId = true)
    (now : DateTime) (hs : ∀ s, b.slots.find? (·.runId = runId) = some s → s.status ≠ .queued) :
    alone (startRun (ρ.run runId) workerId now) [] d = (.started false, d) := by
  rw [startRun, binding_ok hid]
  refine (alone_update (updates_runs_nil fun i r hr hm => ?_)).trans rfl
  obtain ⟨rfl, hp⟩ := hm
  have hrun : d.run (ρ.run runId) = some r := hr
  rw [run_eq h] at hrun
  obtain ⟨s, hs', rfl⟩ := Option.map_eq_some_iff.mp hrun
  exact hs s hs' (CampaignStatus.mirror_pending.mp hp)

section deletes
variable {p : (k : Key) → Row k → Bool} {i : Uuid}

theorem Db.campaign_deletes (h : ∀ c, p (.campaigns i) c = false) (D : Db) :
    Db.campaign (applyAll (deletes p D) D) i = D.campaign i := lookup_applyAll_other _ _ (wrote_deletes_of h)

theorem Db.run_deletes (h : ∀ r, p (.runs i) r = false) (D : Db) :
    Db.run (applyAll (deletes p D) D) i = D.run i := lookup_applyAll_other _ _ (wrote_deletes_of h)

theorem Db.job_deletes (h : ∀ j, p (.jobQueue i) j = false) (D : Db) :
    Db.job (applyAll (deletes p D) D) i = D.job i := lookup_applyAll_other _ _ (wrote_deletes_of h)

end deletes

theorem pg_startRun (h : Stored ρ b d) {runId : Uuid} {workerId : String} (hid : storable workerId = true)
    (now : Stamp) (hs : b.slots.find? (·.runId = runId) = some s) (hq : s.status = .queued) :
    ∃ d' : Db, alone (startRun (ρ.run runId) workerId now.pg) [] d = (.started true, d') ∧
      Stored ρ ((b.alter Slot.runId s.runId (Slot.keeps_start now workerId)).drop runId) d' := by
  obtain ⟨hmem, rfl⟩ := Board.find?_spec hs
  have hrun : Db.run (applyAll [] d) (ρ.run s.runId) = some (s.runRow ρ) := h.slots.runs.lookup hmem
  rw [startRun, binding_ok hid]
  refine ⟨_, (alone_update (updates_runs hrun ⟨rfl, CampaignStatus.mirror_pending.mpr hq⟩ fun _ _ _ h => h.1)).trans
    (alone_delete.trans ((alone_update (updates_campaigns (c := s.campaignRow) ?_ ⟨rfl, hq⟩ fun _ _ _ h => h.1)).trans
      rfl)), ?_, ?_⟩
  · refine (lookup_applyAll_other _ _ ?_).trans (h.slots.campaigns.lookup hmem)
    simp [wrote_deletes_of]
  · refine h.slots.moved hmem (fun _ ht e => b.slot_of_runId ht hmem e) (Slot.keeps_start now workerId)
      (fun _ => rfl) ?_
    constructor <;> intro i <;>
      simp only [applyAll_append, applyAll_cons, applyAll_nil, apply_some, puts_cons, puts_nil]
    · rw [Db.campaign_insert, Db.campaign_deletes fun _ => rfl, Db.campaign_insert_ne _ (by simp)]
      rfl
    · rw [Db.run_insert_ne _ (by simp), Db.run_deletes fun _ => rfl, Db.run_insert]
      rfl
    · rw [Db.job_insert_ne _ (by simp), Db.job_deletes fun _ => rfl,
        Db.job_insert_ne _ (by simp)]
  · refine h.findings.filter (q := fun f => f.runId ≠ ρ.run s.runId) ?_ fun i => ?_
    · intro f _
      simp [Posted.row, ρ.run_injective.eq_iff]
    · simp only [applyAll_append, applyAll_cons, applyAll_nil, apply_some, puts_cons, puts_nil]
      rw [Db.finding_insert_ne _ (by simp), Db.finding, lookup_deletes, AList.lookup_insert_ne (by simp), Db.finding]
      simp

section finish
variable {finish : RunFinish} {ids : Nat → Uuid} {clock : Nat → DateTime} (now : Stamp) {fs : List Posted}

/-- Each finding is inserted under its new id; no other table changes. -/
theorem pg_insertFindings (gs : List NewFinding) : ∀ (k : Nat) (ws : List Write) (ps : List Posted),
    (∀ g ∈ gs, g.storable = true) → Db.run (applyAll ws d) (ρ.run s.runId) ≠ none →
    Holds (Db.finding (applyAll ws d)) (fun f => ρ.finding f.id) (Posted.row ρ) ps →
    ((ps ++ s.postings ids clock now.pg gs k).map Posted.id).Nodup →
    ∃ d' : Db, alone (insertFindings (ρ.run s.runId) (fun j => ρ.finding (ids j)) now.pg gs k) ws d = (.finished, d') ∧
      Same (applyAll ws d) d' ∧
        Holds d'.finding (fun f => ρ.finding f.id) (Posted.row ρ) (ps ++ s.postings ids clock now.pg gs k) := by
  induction gs with
  | nil =>
    intro k ws ps _ _ hps _
    refine ⟨_, rfl, ⟨fun _ => rfl, fun _ => rfl, fun _ => rfl⟩, ?_⟩
    simpa [Slot.postings] using hps
  | cons g gs ih =>
    intro k ws ps htexts hrun hps hnd
    obtain ⟨hg, hgs⟩ := List.forall_mem_cons.mp htexts
    generalize hf : (⟨ids k, s.runId, s.campaignId, s.input.targetId, g, ⟨clock k, now.pg⟩⟩ : Posted) = f
    have hcons : ps ++ s.postings ids clock now.pg (g :: gs) k =
        (ps ++ [f]) ++ s.postings ids clock now.pg gs (k + 1) := by
      simp [Slot.postings, ← hf]
    rw [hcons] at hnd ⊢
    have hfresh : ∀ x ∈ ps, ρ.finding x.id ≠ ρ.finding (ids k) := by
      rw [List.map_append, List.map_append] at hnd
      obtain ⟨-, -, hne⟩ := List.nodup_append.mp (List.nodup_append.mp hnd).1
      intro x hx e
      exact hne x.id (List.mem_map_of_mem hx) (ids k) (by simp [← hf]) (ρ.finding_injective e)
    have hnone := hps.lookup_none hfresh
    have hviolates : (decide (Db.run (applyAll ws d) (ρ.run s.runId) = none) || !g.storable) = false := by
      simp [hrun, hg]
    obtain ⟨d', hd', hsame, hholds⟩ := ih (k + 1) (ws ++ [⟨.findings (ρ.finding (ids k)), some (f.row ρ)⟩]) (ps ++ [f])
      hgs (by simpa [applyAll_append] using hrun)
      (hps.append (y := f) (by rw [← hf]; exact hfresh) (by simp [applyAll_append, ← hf])) hnd
    refine ⟨d', ?_, ?_, hholds⟩
    · rw [← hd', ← hf]
      exact alone_insertRow hnone hviolates
    · exact ⟨fun i => (hsame.campaign i).trans (by simp [applyAll_append]),
        fun i => (hsame.run i).trans (by simp [applyAll_append]),
        fun i => (hsame.job i).trans (by simp [applyAll_append])⟩

theorem pg_finishRun (h : Stored ρ b d) (hfin : finish.storable = true)
    (hs : b.slots.find? (·.runId = s.runId) = some s) (hr : s.status = .running) {b' : Board} (hb' : b.alter Slot.runId s.runId (Slot.keeps_finish now finish) = b')
    (hfs : s.postings ids clock now.pg finish.findings 0 = fs) (hnd hnew hslot) :
    ∃ d' : Db, alone (finishRun (ρ.run s.runId) finish (fun j => ρ.finding (ids j)) now.pg) [] d = (.finished, d') ∧
      Stored ρ (b'.post fs hnd hnew hslot) d' := by
  subst hb' hfs
  have hmem := (Board.find?_spec hs).1
  have hrun : Db.run (applyAll [] d) (ρ.run s.runId) = some (s.runRow ρ) := h.slots.runs.lookup hmem
  have hmoved : SlotsStored ρ (b.alter Slot.runId s.runId (Slot.keeps_finish now finish)).slots
      (applyAll [⟨.runs (ρ.run s.runId), some ((s.finish now finish).runRow ρ)⟩,
        ⟨.campaigns (ρ.campaign s.campaignId), some (s.finish now finish).campaignRow⟩] d) := by
    refine h.slots.moved hmem (fun _ ht e => b.slot_of_runId ht hmem e) (Slot.keeps_finish now finish) (fun _ => rfl) ?_
    constructor <;> simp
  have hposted : Holds (Db.finding (applyAll [⟨.runs (ρ.run s.runId), some ((s.finish now finish).runRow ρ)⟩,
      ⟨.campaigns (ρ.campaign s.campaignId), some (s.finish now finish).campaignRow⟩] d)) (fun f => ρ.finding f.id)
      (Posted.row ρ) b.posted := by
    intro i f
    simpa using h.findings i f
  obtain ⟨hlog, htexts⟩ := Bool.and_eq_true_iff.mp hfin
  obtain ⟨d', hd', hsame, hholds⟩ := pg_insertFindings now finish.findings 0 _ b.posted (List.all_eq_true.mp htexts)
    (by simp) hposted (Board.post _ _ hnd hnew hslot).findingIds
  refine ⟨d', ?_, hmoved.same hsame, hholds⟩
  rw [← hd', finishRun, binding_ok hlog]
  refine (alone_update (updates_runs hrun ⟨rfl, CampaignStatus.mirror_running.mpr hr⟩ fun _ _ _ h => h.1)).trans
    ((alone_update (updates_campaigns (c := s.campaignRow) ?_ rfl fun _ _ _ h => h)).trans ?_)
  · exact (lookup_applyAll_other _ _ (by simp)).trans (h.slots.campaigns.lookup hmem)
  · exact congrArg (fun ws => alone _ ws d) (by simp [Slot.runRow, Slot.campaignRow, Slot.finish])

/-- Only the findings are posted. -/
theorem pg_finishRun_not (h : Stored ρ b d) (hfin : finish.storable = true)
    (hs : b.slots.find? (·.runId = s.runId) = some s) (hr : s.status ≠ .running)
    (hfs : s.postings ids clock now.pg finish.findings 0 = fs) (hnd hnew hslot) :
    ∃ d' : Db, alone (finishRun (ρ.run s.runId) finish (fun j => ρ.finding (ids j)) now.pg) [] d = (.finished, d') ∧
      Stored ρ (b.post fs hnd hnew hslot) d' := by
  subst hfs
  have hmem := (Board.find?_spec hs).1
  have hrun : Db.run (applyAll [] d) (ρ.run s.runId) = some (s.runRow ρ) := h.slots.runs.lookup hmem
  obtain ⟨hlog, htexts⟩ := Bool.and_eq_true_iff.mp hfin
  obtain ⟨d', hd', hsame, hholds⟩ := pg_insertFindings now finish.findings 0 [] b.posted (List.all_eq_true.mp htexts)
    (by rw [hrun]; simp) h.findings (b.post _ hnd hnew hslot).findingIds
  refine ⟨d', ?_, h.slots.same hsame, hholds⟩
  rw [← hd', finishRun, binding_ok hlog]
  refine alone_update (updates_runs_nil fun i r hr' hm => ?_)
  obtain ⟨rfl, hst⟩ := hm
  rw [hrun] at hr'
  cases hr'
  exact hr (CampaignStatus.mirror_running.mp hst)

end finish

end pg

end SoroFuzz.Store
