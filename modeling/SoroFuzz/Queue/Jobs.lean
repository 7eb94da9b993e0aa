/-
  SoroFuzz.Queue.Jobs — what the job queue holds, and what a cancel before the start of a
  run comes to (`store/postgres.rs`).

  A job is put in the queue with its campaign and never taken out: `claim_job` marks it,
  and what makes it claimable is that mark and its run's status. Read off the commits, the
  queue is a set that `create_campaign` adds to and that `claim_job` and
  `cancel_campaign` take from.

  Proved:
  - `backlog_commit`: what every commit keeps of that (`Backlog`).
  - `queue_exact`: in every reachable world the claimable jobs are those that were created,
    and neither claimed nor cancelled.
  - `cancelled_for_good`: a run that was cancelled before it was started is never given to
    the runner, and shows nothing but the cancel ever after.
-/

import SoroFuzz.Queue.AtMostOnce
import SoroFuzz.Queue.Kept
import SoroFuzz.Queue.Origin
import SoroFuzz.Store.Read

namespace SoroFuzz.Store

/-- A `claim_job` returned the job. -/
def Claimed (cs : List Commit) (jobId : Uuid) : Prop :=
  ∃ tx tie workerId job, (⟨tx, .claimJob tie workerId, .claimed (some job)⟩ : Commit) ∈ cs ∧ job.jobId = jobId

structure Backlog (d : Db) (cs : List Commit) : Prop where
  enqueued : ∀ id runId jobId input, Created cs id runId jobId input →
    ∃ j, d.job jobId = some j ∧ j.campaignId = id ∧ j.runId = runId
  claimed : ∀ jobId j, d.job jobId = some j → j.claimedBy ≠ none → Claimed cs jobId
  /-- Of a run that was not started, only a cancel has changed anything. -/
  untouched : ∀ runId r, d.run runId = some r → Started cs runId ∨ (r.startedAt = none ∧ r.iterations = 0 ∧
    (r.status = .pending ∨ (r.status = .cancelled ∧ Cancelled cs r.campaignId)))

theorem backlog_nil : Backlog ∅ [] where
  enqueued _ _ _ _ h := by obtain ⟨_, _, h⟩ := h; cases h
  claimed _ _ h := by cases h
  untouched _ _ h := by cases h

theorem Claimed.mono {cs cs' : List Commit} (h : cs ⊆ cs') {jobId : Uuid} (hc : Claimed cs jobId) :
    Claimed cs' jobId := by
  obtain ⟨tx, tie, workerId, job, hm, hid⟩ := hc
  exact ⟨tx, tie, workerId, job, h hm, hid⟩

section commit
variable {ok : CampaignStatus → Prop} {b : DateTime} {d0 d d' : Db} {cs : List Commit} {tx : Nat} {c : Call}
  {reply : Reply}

theorem enqueued_commit (he : Effect ok b d0 c reply d d') {id runId jobId : Uuid} {input : NewCampaign}
    {row : CampaignRecord} (hc : c = .createCampaign id runId jobId input) (hr : reply = .created row) :
    ∃ j, d'.job jobId = some j ∧ j.campaignId = id ∧ j.runId = runId := by
  cases he with
  | created campaignId runId' jobId' input' row' _ _ _ =>
    cases hc
    exact ⟨_, by simp; rfl, rfl, rfl⟩
  | _ => cases hr

theorem claimed_by_commit (h : Backlog d cs) (he : Effect ok b d0 c reply d d') {jobId : Uuid} {j : JobRow}
    (hj : d'.job jobId = some j) (hclaimed : j.claimedBy ≠ none) : Claimed (⟨tx, c, reply⟩ :: cs) jobId := by
  have hold : ∀ {q : JobRow}, d.job jobId = some q → q.claimedBy ≠ none → Claimed (⟨tx, c, reply⟩ :: cs) jobId :=
    fun hq hc => (h.claimed jobId _ hq hc).mono (List.subset_cons_self _ _)
  cases he with
  | created campaignId runId jobId' input row _ _ _ =>
    simp at hj
    split at hj
    · cases hj
      exact absurd rfl hclaimed
    · exact hold hj hclaimed
  | got | cancelNoop | claimedNone | startedNot => exact hold hj hclaimed
  | cancelled _ _ _ _ _ _ _ _ _ _ hmv _ | started _ _ _ _ _ _ _ _ hmv _ _ | finished _ _ _ _ _ _ _ _ hmv _ =>
    exact hold ((hmv.job jobId) ▸ hj) hclaimed
  | claimed tie workerId id q hq _ =>
    simp at hj
    split at hj
    · rename_i heq
      exact ⟨tx, tie, workerId, _, List.mem_cons_self, heq.symm⟩
    · exact hold hj hclaimed
  | finishedNot _ _ _ _ _ _ _ hs _ => exact hold ((hs.job jobId) ▸ hj) hclaimed

theorem untouched_commit (h : Backlog d cs) (he : Effect ok b d0 c reply d d') {runId : Uuid} {r : RunRow}
    (hr : d'.run runId = some r) : Started (⟨tx, c, reply⟩ :: cs) runId ∨ (r.startedAt = none ∧ r.iterations = 0 ∧
      (r.status = .pending ∨ (r.status = .cancelled ∧ Cancelled (⟨tx, c, reply⟩ :: cs) r.campaignId))) := by
  have hsub : cs ⊆ ⟨tx, c, reply⟩ :: cs := List.subset_cons_self _ _
  have hold : d.run runId = some r → Started (⟨tx, c, reply⟩ :: cs) runId ∨ (r.startedAt = none ∧ r.iterations = 0 ∧
      (r.status = .pending ∨ (r.status = .cancelled ∧ Cancelled (⟨tx, c, reply⟩ :: cs) r.campaignId))) := by
    intro hr0
    rcases h.untouched runId r hr0 with ⟨i, w, hm⟩ | ⟨hs, hi, hp | ⟨hst, hc⟩⟩
    · exact Or.inl ⟨i, w, hsub hm⟩
    · exact Or.inr ⟨hs, hi, Or.inl hp⟩
    · exact Or.inr ⟨hs, hi, Or.inr ⟨hst, hc.mono hsub⟩⟩
  cases he with
  | created campaignId runId' jobId' input row _ _ _ =>
    simp at hr
    split at hr
    · cases hr
      exact Or.inr ⟨rfl, rfl, Or.inl rfl⟩
    · exact hold hr
  | got | cancelNoop | claimedNone | startedNot => exact hold hr
  | cancelled id runId' row q r0 hrow _ _ hr0 hid hmv _ =>
    rw [hmv.run] at hr
    split at hr
    · rename_i heq
      subst heq
      cases hr
      rcases h.untouched _ r0 hr0 with ⟨i, w, hm⟩ | ⟨hs, hi, -⟩
      · exact Or.inl ⟨i, w, hsub hm⟩
      · exact Or.inr ⟨hs, hi, Or.inr ⟨rfl, tx, row, hid ▸ List.mem_cons_self, hrow⟩⟩
    · exact hold hr
  | claimed => exact hold (by simpa using hr)
  | started runId' workerId _ r0 _ _ _ _ hmv _ _ =>
    rw [hmv.run] at hr
    split at hr
    · rename_i heq
      exact Or.inl ⟨tx, workerId, heq ▸ List.mem_cons_self⟩
    · exact hold hr
  | finishedNot _ _ _ _ _ _ _ hs _ => exact hold ((hs.run runId) ▸ hr)
  | finished runId' f ids _ r0 hr0 hrun _ hmv _ =>
    rw [hmv.run] at hr
    split at hr
    · rename_i heq
      subst heq
      -- It was running, so it was started.
      rcases h.untouched _ r0 hr0 with ⟨i, w, hm⟩ | ⟨-, -, hst | ⟨hst, -⟩⟩
      · exact Or.inl ⟨i, w, hsub hm⟩
      · rw [hrun] at hst
        cases hst
      · rw [hrun] at hst
        cases hst
    · exact hold hr

theorem backlog_commit (h : Backlog d cs) (hw : Wf d) (he : Effect ok b d0 c reply d d') :
    Backlog d' (⟨tx, c, reply⟩ :: cs) where
  enqueued id runId jobId input hc := by
    obtain ⟨i, row, hm⟩ := hc
    rcases List.mem_cons.mp hm with heq | hm
    · cases heq
      exact enqueued_commit he rfl rfl
    · obtain ⟨j, hj, hid, hrun⟩ := h.enqueued id runId jobId input ⟨i, row, hm⟩
      obtain ⟨j', hj', hrun', hid', -⟩ := (effect_persist hw he).job jobId j hj
      exact ⟨j', hj', hid'.trans hid, hrun'.trans hrun⟩
  claimed _ _ hj hc := claimed_by_commit h he hj hc
  untouched _ _ hr := untouched_commit h he hr

end commit

/-- The jobs that a `claim_job` could return if no other transaction was in flight. -/
def claimableJobs (d : Db) : List (Uuid × JobRow) := claimable ⟨d, fun _ => false⟩

theorem mem_claimableJobs {d : Db} {jobId : Uuid} {j : JobRow} : (jobId, j) ∈ claimableJobs d ↔
    d.job jobId = some j ∧ j.claimedBy = none ∧ ∃ r, d.run j.runId = some r ∧ r.status = .pending := by
  rw [claimableJobs, mem_claimable]
  simp only [and_true]

end SoroFuzz.Store

namespace SoroFuzz.Queue

open SoroFuzz.Store
open World

variable {ws : Nat → Worker} {s : World}

theorem backlog (h : World.Reach ws s) : Backlog s.pg.db (commits s.log) :=
  reach_commits Backlog backlog_nil (fun hw he hb => backlog_commit hb hw he) h

/-- A run that was started had its job claimed. -/
theorem claimed_of_started (h : World.Reach ws s) {runId jobId : Uuid} {j : JobRow} (hs : Started (commits s.log) runId)
    (hj : Db.job s.pg.db jobId = some j) (hrun : j.runId = runId) : j.claimedBy ≠ none := by
  obtain ⟨S, hS⟩ := custody h
  obtain ⟨tx, workerId, hm⟩ := hs
  have hstage := hS.trace.starts _ _ _ (hS.sound.committed _ _ _ (mem_commits.mp hm)).1
  have hne : S runId ≠ .unclaimed := by
    intro e
    rw [e] at hstage
    exact absurd hstage (by decide)
  obtain ⟨id, q, hq, hqrun, hclaimed⟩ := hS.jobs runId hne
  obtain rfl := hS.sound.ok.inv.jobUnique id jobId q j hq hj (hqrun.trans hrun.symm)
  rw [hj] at hq
  cases hq
  exact hclaimed

/-- The queue holds what was put there, less what was claimed and what was cancelled. -/
theorem queue_exact (h : World.Reach ws s) (jobId : Uuid) :
    (∃ j, (jobId, j) ∈ claimableJobs s.pg.db) ↔
      ∃ campaignId runId input, Created (commits s.log) campaignId runId jobId input ∧
        ¬ Claimed (commits s.log) jobId ∧ ¬ Cancelled (commits s.log) campaignId := by
  obtain ⟨S, hS⟩ := custody h
  have hwf : Wf s.pg.db := hS.sound.ok.inv
  have hb := backlog h
  constructor
  · intro hm
    obtain ⟨j, hm⟩ := hm
    obtain ⟨hj, hnone, r, hr, hpend⟩ := mem_claimableJobs.mp hm
    obtain ⟨input, hc⟩ := (origin h).job jobId j hj
    refine ⟨j.campaignId, j.runId, input, hc, ?_, ?_⟩
    · rintro ⟨tx, tie, workerId, job, hclaim, rfl⟩
      obtain ⟨q, hq, -, hclaimed⟩ := hS.history.claimed tx tie workerId job hclaim
      rw [hj] at hq
      cases hq
      exact hclaimed hnone
    · intro hcancel
      obtain ⟨runId, q, hq, hid, hst⟩ := hS.history.cancelled _ hcancel
      obtain ⟨p, hp, hpid⟩ := hwf.jobRun jobId j hj
      obtain rfl := hwf.runUnique runId j.runId q p hq hp (hid.trans hpid.symm)
      rw [hr] at hq
      cases hq
      rw [hpend] at hst
      cases hst
  · rintro ⟨campaignId, runId, input, hc, hclaim, hcancel⟩
    obtain ⟨j, hj, hid, hrun⟩ := hb.enqueued _ _ _ _ hc
    have hnone : j.claimedBy = none := by
      by_contra hne
      exact hclaim (hb.claimed jobId j hj hne)
    obtain ⟨r, hr, hrid⟩ := hwf.jobRun jobId j hj
    refine ⟨j, mem_claimableJobs.mpr ⟨hj, hnone, r, hr, ?_⟩⟩
    rcases hb.untouched _ r hr with hs | ⟨-, -, hpend | ⟨-, hc'⟩⟩
    · exact absurd hnone (claimed_of_started h hs hj rfl)
    · exact hpend
    · exact absurd (hrid.trans hid ▸ hc') hcancel

theorem queue_exact_created : ∃ s, play (fun _ => tokenWorker) World.init createAct = some s ∧
    ((∃ j, (3, j) ∈ claimableJobs s.pg.db) ↔
      ∃ campaignId runId input, Created (commits s.log) campaignId runId 3 input ∧
        ¬ Claimed (commits s.log) 3 ∧ ¬ Cancelled (commits s.log) campaignId) ∧
    ∃ j, (3, j) ∈ claimableJobs s.pg.db := by
  obtain ⟨s, hs⟩ := Option.isSome_iff_exists.mp
    (show (play (fun _ => tokenWorker) World.init createAct).isSome = true by decide)
  have hjobs : (play (fun _ => tokenWorker) World.init createAct).map (fun s => claimableJobs s.pg.db) =
      some [(3, ⟨1, 2, none, none, 0, 0⟩)] := by decide
  rw [hs] at hjobs
  have hone : claimableJobs s.pg.db = [(3, ⟨1, 2, none, none, 0, 0⟩)] := Option.some.inj hjobs
  exact ⟨s, hs, queue_exact (play_reach .init hs) 3, _, by rw [hone]; exact List.mem_singleton_self _⟩

/-- No `start_run` commits once a cancel has. -/
theorem not_started_after (h : World.Reach ws s) {campaignId runId : Uuid} {i : Nat} {row : CampaignRecord}
    {log : List Event}
    (hlog : (.committed i (.cancelCampaign campaignId) (.campaign (some row)) :: log : List Event) <:+ s.log)
    (hrow : row.status = .cancelled) (hnot : ¬ Started (commits log) runId) {r : RunRow}
    (hr : Db.run s.pg.db runId = some r) (hid : r.campaignId = campaignId) : ¬ Started (commits s.log) runId := by
  obtain ⟨S, hS⟩ := custody h
  rintro ⟨tx, workerId, hm⟩
  have hm := mem_commits.mp hm
  obtain ⟨newer, hnewer⟩ := hlog
  rw [← hnewer] at hm
  rcases List.mem_append.mp hm with hin | hin
  · -- It came after the cancel.
    obtain ⟨a, b, rfl⟩ := List.append_of_mem hin
    refine hS.history.live tx runId workerId
      (commits (b ++ .committed i (.cancelCampaign campaignId) (.campaign (some row)) :: log)) ⟨commits a, ?_⟩ r hr ?_
    · rw [← hnewer, List.append_assoc]
      simp [commits]
    · exact ⟨i, row, hid ▸ mem_commits.mpr (List.mem_append_right _ List.mem_cons_self), hrow⟩
  · rcases List.mem_cons.mp hin with heq | hin
    · cases heq
    · exact hnot ⟨tx, workerId, mem_commits.mpr hin⟩

/-- A run that is cancelled before it is started stays so, and never runs. -/
theorem cancelled_for_good (h : World.Reach ws s) {campaignId runId jobId : Uuid} {input : NewCampaign}
    (hcreated : Created (commits s.log) campaignId runId jobId input) {i : Nat} {row : CampaignRecord}
    {log : List Event}
    (hlog : (.committed i (.cancelCampaign campaignId) (.campaign (some row)) :: log : List Event) <:+ s.log)
    (hrow : row.status = .cancelled) (hnot : ¬ Started (commits log) runId) :
    (∀ k job, .invoked k job ∈ s.log → job.runId ≠ runId) ∧
    (∀ id f, Db.finding s.pg.db id = some f → f.runId ≠ runId) ∧
    ∀ now, ∃ record, getRun s.pg.db now runId = some record ∧ record.campaignId = campaignId ∧
      record.targetId = input.targetId ∧ record.status = .cancelled ∧ record.startedAt = none ∧
      record.elapsedSecs = 0 ∧ record.iterations = 0 ∧ record.findingsCount = 0 := by
  obtain ⟨S, hS⟩ := custody h
  have hwf : Wf s.pg.db := hS.sound.ok.inv
  obtain ⟨⟨c, hc, hinput⟩, r, hr, hid⟩ := (origin h).created _ _ _ _ hcreated
  have hno := not_started_after h hlog hrow hnot hr hid
  have hinvoked : ∀ k job, .invoked k job ∈ s.log → job.runId ≠ runId := by
    rintro k job hm rfl
    exact hno (hS.trace.invokes k job hm).2
  have hfinding : ∀ id f, Db.finding s.pg.db id = some f → f.runId ≠ runId := by
    rintro id f hf rfl
    obtain ⟨g, tx, ids, hm⟩ := hS.history.findings id f hf
    obtain ⟨k, job, a, hran, hrun, -⟩ := hS.trace.finishes _ _ _ _ (hS.sound.committed _ _ _ (mem_commits.mp hm)).1
    exact hinvoked k job (hS.trace.rans k job a hran).2 hrun
  have hcancel : Cancelled (commits s.log) campaignId :=
    ⟨i, row, mem_commits.mpr (hlog.subset List.mem_cons_self), hrow⟩
  have hst : r.status = .cancelled := by
    obtain ⟨runId', q, hq, hqid, hst⟩ := hS.history.cancelled _ hcancel
    obtain rfl := hwf.runUnique runId' runId q r hq hr (hqid.trans hid.symm)
    rw [hr] at hq
    cases hq
    exact hst
  obtain ⟨hstarted, hiter, -⟩ := ((backlog h).untouched runId r hr).resolve_left hno
  refine ⟨hinvoked, hfinding, fun now => ?_⟩
  have hrows : (Db.findings s.pg.db).filter (fun f => f.2.runId = runId) = [] := by
    refine List.filter_eq_nil_iff.mpr fun ⟨id, f⟩ hm => ?_
    rw [decide_eq_true_iff]
    exact hfinding id f (Db.mem_findings.mp hm)
  have helapsed : elapsedSecs now r = 0 := by rw [elapsedSecs, hstarted]
  refine ⟨_, Option.bind_eq_some_iff.mpr ⟨r, hr, Option.bind_eq_some_iff.mpr ⟨c, hid ▸ hc, rfl⟩⟩, hid, ?_, hst,
    hstarted, helapsed, hiter, ?_⟩
  · rw [← hinput]
    rfl
  · rw [hrows]
    rfl

/-- A campaign is created, claimed and loaded, and cancelled before its run is started. -/
def cancelledAct : List Act :=
  createAct ++ claimAct ++ [.api (.cancelCampaign 1), .pg (.exec 3), .pg (.exec 3), .pg (.exec 3), .pg (.commit 3)]

def nightlyRow (status : CampaignStatus) : CampaignRecord := ⟨1, "token", "nightly", [], 60, status, 2, 0⟩

theorem cancelled_for_good_claimed : ∃ s, play (fun _ => tokenWorker) World.init cancelledAct = some s ∧
    (∀ k job, .invoked k job ∈ s.log → job.runId ≠ 2) ∧
    ∃ record, getRun s.pg.db 0 2 = some record ∧ record.status = .cancelled ∧ record.iterations = 0 := by
  obtain ⟨s, hs⟩ := Option.isSome_iff_exists.mp
    (show (play (fun _ => tokenWorker) World.init cancelledAct).isSome = true by decide)
  have hlog : (play (fun _ => tokenWorker) World.init cancelledAct).map (fun s => s.log) =
      (play (fun _ => tokenWorker) World.init cancelledAct).map
        (fun s => .committed 3 (.cancelCampaign 1) (.campaign (some (nightlyRow .cancelled))) :: s.log.drop 1) := rfl
  have hbefore : (play (fun _ => tokenWorker) World.init cancelledAct).map (fun s => commits (s.log.drop 1)) =
      some [⟨2, .getCampaign 1, .campaign (some (nightlyRow .queued))⟩,
        ⟨1, .claimJob id "worker-1-0", .claimed (some ⟨3, 1, 2, 1⟩)⟩,
        ⟨0, .createCampaign 1 2 3 ⟨"token", "nightly", [], 60⟩, .created (nightlyRow .queued)⟩] := rfl
  rw [hs] at hlog hbefore
  have hcons : s.log = .committed 3 (.cancelCampaign 1) (.campaign (some (nightlyRow .cancelled))) :: s.log.drop 1 :=
    Option.some.inj hlog
  have hcommits : commits (s.log.drop 1) = _ := Option.some.inj hbefore
  have hsub : commits (s.log.drop 1) ⊆ commits s.log := commits_subset fun e he => List.mem_of_mem_drop he
  have hnot : ¬ Started (commits (s.log.drop 1)) 2 := by
    rintro ⟨tx, workerId, hm⟩
    rw [hcommits] at hm
    simp at hm
  have hcreated : Created (commits s.log) 1 2 3 ⟨"token", "nightly", [], 60⟩ := by
    refine ⟨0, nightlyRow .queued, hsub ?_⟩
    rw [hcommits]
    simp
  obtain ⟨hinvoked, -, hrun⟩ := cancelled_for_good (play_reach .init hs) hcreated ⟨[], hcons.symm⟩ rfl hnot
  obtain ⟨record, hrecord, -, -, hst, -, -, hiter, -⟩ := hrun 0
  exact ⟨s, hs, hinvoked, record, hrecord, hst, hiter⟩

end SoroFuzz.Queue
