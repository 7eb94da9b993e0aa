/-
  SoroFuzz.Queue.Origin — where the committed rows come from, and the jobs that the
  runner is given.

  Only `create_campaign` inserts campaigns, runs and jobs, the three together, and no
  UPDATE changes which campaign and run a row belongs to, nor what a campaign was created
  with. So each of these rows points back to one committed `create_campaign`, and so
  does what a worker was told of the job it is at.

  Proved:
  - `origin_commit`: the next commit keeps it (`Origin`), and a `claim_job` returns what
    one `create_campaign` created together.
  - `runLoop_errands`: a worker runs no job but the one made of the campaign that
    `get_campaign` returned for the job it claimed, and of that campaign's target.
  - `ordered`: so in every reachable world, each job the runner was given is made of one
    committed `create_campaign`, and of the manifest.
-/

import SoroFuzz.Queue.Budget
import SoroFuzz.Queue.Carry

namespace SoroFuzz.Store

/-- A committed `create_campaign` made the campaign, with its run and its job. -/
def Created (cs : List Commit) (campaignId runId jobId : Uuid) (input : NewCampaign) : Prop :=
  ∃ tx row, (⟨tx, .createCampaign campaignId runId jobId input, .created row⟩ : Commit) ∈ cs

structure Origin (d : Db) (cs : List Commit) : Prop where
  campaign : ∀ id c, d.campaign id = some c → ∃ runId jobId, Created cs id runId jobId c.input
  run : ∀ runId r, d.run runId = some r → ∃ jobId input, Created cs r.campaignId runId jobId input
  job : ∀ jobId j, d.job jobId = some j → ∃ input, Created cs j.campaignId j.runId jobId input
  claimed : ∀ tx tie workerId job, (⟨tx, .claimJob tie workerId, .claimed (some job)⟩ : Commit) ∈ cs →
    ∃ input, Created cs job.campaignId job.runId job.jobId input
  /-- What was created is there. -/
  created : ∀ id runId jobId input, Created cs id runId jobId input →
    CreatedWith d id input ∧ ∃ r, d.run runId = some r ∧ r.campaignId = id

theorem Created.mono {cs cs' : List Commit} (h : cs ⊆ cs') {id runId jobId : Uuid} {input : NewCampaign}
    (hc : Created cs id runId jobId input) : Created cs' id runId jobId input := by
  obtain ⟨tx, row, hm⟩ := hc
  exact ⟨tx, row, h hm⟩

theorem origin_nil : Origin ∅ [] where
  campaign _ _ h := by cases h
  run _ _ h := by cases h
  job _ _ h := by cases h
  claimed _ _ _ _ h := by cases h
  created _ _ _ _ h := by obtain ⟨_, _, h⟩ := h; cases h

/-- A campaign is created with one input. -/
theorem CreatedWith.unique {d : Db} {id : Uuid} {input input' : NewCampaign} (h : CreatedWith d id input)
    (h' : CreatedWith d id input') : input = input' := by
  obtain ⟨c, hc, rfl⟩ := h
  obtain ⟨c', hc', rfl⟩ := h'
  rw [hc] at hc'
  cases hc'
  rfl

/-! ## The next commit -/

section commit
variable {ok : CampaignStatus → Prop} {b : DateTime} {d0 d d' : Db} {cs : List Commit} {tx : Nat} {c : Call}
  {reply : Reply}

/-- Every campaign was there before, created with the same, or is the one just created. -/
theorem campaign_commit (he : Effect ok b d0 c reply d d') {id : Uuid} {e : CampaignRow} (h : d'.campaign id = some e) :
    (∃ e0, d.campaign id = some e0 ∧ e0.input = e.input) ∨
      ∃ runId jobId row, c = .createCampaign id runId jobId e.input ∧ reply = .created row := by
  cases he with
  | created campaignId runId jobId input row _ _ _ =>
    simp at h
    split at h
    · rename_i heq
      subst heq
      cases h
      exact Or.inr ⟨runId, jobId, row, rfl, rfl⟩
    · exact Or.inl ⟨e, h, rfl⟩
  | got | cancelNoop | claimedNone | startedNot => exact Or.inl ⟨e, h, rfl⟩
  | cancelled _ _ _ c0 _ _ hc _ _ _ hmv _ | started _ _ c0 _ _ _ hc _ hmv _ _ | finished _ _ _ c0 _ _ _ hc hmv _ =>
    rw [hmv.campaign] at h
    split at h
    · rename_i heq
      subst heq
      cases h
      exact Or.inl ⟨c0, hc, rfl⟩
    · exact Or.inl ⟨e, h, rfl⟩
  | claimed => exact Or.inl ⟨e, by simpa using h, rfl⟩
  | finishedNot _ _ _ _ _ _ _ hs _ => exact Or.inl ⟨e, (hs.campaign id) ▸ h, rfl⟩

theorem run_commit (he : Effect ok b d0 c reply d d') {runId : Uuid} {r : RunRow} (h : d'.run runId = some r) :
    (∃ r0, d.run runId = some r0 ∧ r0.campaignId = r.campaignId) ∨
      ∃ jobId input row, c = .createCampaign r.campaignId runId jobId input ∧ reply = .created row := by
  cases he with
  | created campaignId runId' jobId input row _ _ _ =>
    simp at h
    split at h
    · rename_i heq
      subst heq
      cases h
      exact Or.inr ⟨jobId, input, row, rfl, rfl⟩
    · exact Or.inl ⟨r, h, rfl⟩
  | got | cancelNoop | claimedNone | startedNot => exact Or.inl ⟨r, h, rfl⟩
  | cancelled _ _ _ _ _ _ _ _ hr _ hmv _ | started _ _ _ _ hr _ _ _ hmv _ _ | finished _ _ _ _ _ hr _ _ hmv _ =>
    exact Or.inl (hmv.run_before hr rfl h)
  | claimed => exact Or.inl ⟨r, by simpa using h, rfl⟩
  | finishedNot _ _ _ _ _ _ _ hs _ => exact Or.inl ⟨r, (hs.run runId) ▸ h, rfl⟩

theorem job_commit (he : Effect ok b d0 c reply d d') {jobId : Uuid} {j : JobRow} (h : d'.job jobId = some j) :
    (∃ j0, d.job jobId = some j0 ∧ j0.campaignId = j.campaignId ∧ j0.runId = j.runId) ∨
      ∃ input row, c = .createCampaign j.campaignId j.runId jobId input ∧ reply = .created row := by
  cases he with
  | created campaignId runId' jobId' input row _ _ _ =>
    simp at h
    split at h
    · rename_i heq
      subst heq
      cases h
      exact Or.inr ⟨input, row, rfl, rfl⟩
    · exact Or.inl ⟨j, h, rfl, rfl⟩
  | got | cancelNoop | claimedNone | startedNot => exact Or.inl ⟨j, h, rfl, rfl⟩
  | cancelled _ _ _ _ _ _ _ _ _ _ hmv _ | started _ _ _ _ _ _ _ _ hmv _ _ | finished _ _ _ _ _ _ _ _ hmv _ =>
    exact Or.inl ⟨j, (hmv.job jobId) ▸ h, rfl, rfl⟩
  | claimed _ _ id q hq _ =>
    simp at h
    split at h
    · rename_i heq
      subst heq
      cases h
      exact Or.inl ⟨q, hq, rfl, rfl⟩
    · exact Or.inl ⟨j, h, rfl, rfl⟩
  | finishedNot _ _ _ _ _ _ _ hs _ => exact Or.inl ⟨j, (hs.job jobId) ▸ h, rfl, rfl⟩

/-- The job that a `claim_job` returns was there. -/
theorem claim_commit {tie : Uuid → Nat} {workerId : String} {job : ClaimedJob}
    (he : Effect ok b d0 (.claimJob tie workerId) (.claimed (some job)) d d') :
    ∃ j, d.job job.jobId = some j ∧ j.campaignId = job.campaignId ∧ j.runId = job.runId := by
  generalize hcall : Call.claimJob tie workerId = c at he
  generalize hreply : Reply.claimed (some job) = reply at he
  cases he with
  | claimed _ _ id j hj _ =>
    cases hreply
    exact ⟨j, hj, rfl, rfl⟩
  | _ => cases hreply

theorem created_commit {id runId jobId : Uuid} {input : NewCampaign} {row : CampaignRecord}
    (he : Effect ok b d0 (.createCampaign id runId jobId input) (.created row) d d') :
    CreatedWith d' id input ∧ ∃ r, d'.run runId = some r ∧ r.campaignId = id := by
  generalize hcall : Call.createCampaign id runId jobId input = c at he
  generalize hreply : Reply.created row = reply at he
  cases he with
  | created =>
    cases hcall
    exact ⟨⟨_, (by simp; rfl), rfl⟩, _, (by simp; rfl), rfl⟩
  | _ => cases hreply

theorem origin_commit (h : Origin d cs) (hw : Wf d) (he : Effect ok b d0 c reply d d') :
    Origin d' (⟨tx, c, reply⟩ :: cs) where
  campaign id e hid := by
    rcases campaign_commit he hid with ⟨e0, he0, hin⟩ | ⟨runId, jobId, row, rfl, rfl⟩
    · obtain ⟨runId, jobId, hc⟩ := h.campaign id e0 he0
      exact ⟨runId, jobId, hin ▸ hc.mono (List.subset_cons_self _ _)⟩
    · exact ⟨runId, jobId, tx, row, List.mem_cons_self⟩
  run runId r hr := by
    rcases run_commit he hr with ⟨r0, hr0, hid⟩ | ⟨jobId, input, row, rfl, rfl⟩
    · obtain ⟨jobId, input, hc⟩ := h.run runId r0 hr0
      exact ⟨jobId, input, hid ▸ hc.mono (List.subset_cons_self _ _)⟩
    · exact ⟨jobId, input, tx, row, List.mem_cons_self⟩
  job jobId j hj := by
    rcases job_commit he hj with ⟨j0, hj0, hid, hrun⟩ | ⟨input, row, rfl, rfl⟩
    · obtain ⟨input, hc⟩ := h.job jobId j0 hj0
      exact ⟨input, hid ▸ hrun ▸ hc.mono (List.subset_cons_self _ _)⟩
    · exact ⟨input, tx, row, List.mem_cons_self⟩
  claimed tx' tie workerId job hm := by
    rcases List.mem_cons.mp hm with heq | hm
    · cases heq
      obtain ⟨j, hj, hid, hrun⟩ := claim_commit he
      obtain ⟨input, hc⟩ := h.job _ j hj
      exact ⟨input, hid ▸ hrun ▸ hc.mono (List.subset_cons_self _ _)⟩
    · obtain ⟨input, hc⟩ := h.claimed tx' tie workerId job hm
      exact ⟨input, hc.mono (List.subset_cons_self _ _)⟩
  created id runId jobId input hc := by
    obtain ⟨tx', row, hm⟩ := hc
    rcases List.mem_cons.mp hm with heq | hm
    · cases heq
      exact created_commit he
    · obtain ⟨hin, r, hr, hid⟩ := h.created id runId jobId input ⟨tx', row, hm⟩
      obtain ⟨r', hr', hid', -⟩ := (effect_persist hw he).run runId r hr
      exact ⟨effect_input he hin, r', hr', hid'.trans hid⟩

end commit

end SoroFuzz.Store

namespace SoroFuzz.Queue

open SoroFuzz.Store
open Lib.Process
open World

/-! ## The job that a worker runs -/

/-- The job that `process` makes of a campaign and of its target. -/
def Orders (targets : TargetRegistry) (campaignId runId : Uuid) (input : NewCampaign) (job : RunJob) : Prop :=
  ∃ target, targets.get input.targetId = some target ∧
    job = { runId, campaignId, fuzzTargetName := target.fuzzTargetName, invariantIds := input.invariantIds,
            timeBudgetSecs := (max input.timeBudgetSecs 0).toNat }

/-- What a worker knows of the job it is at. -/
inductive Errand where
  | nothing
  | claimed (campaignId runId : Uuid)
  | loaded (campaignId runId : Uuid) (row : CampaignRecord)

def Errand.reply : Errand → StoreOp → Reply → Errand
  | _, .claimJob _, .claimed (some job) => .claimed job.campaignId job.runId
  | .claimed campaignId runId, .getCampaign _, .campaign (some row) => .loaded campaignId runId row
  | φ, _, _ => φ

/-- It is the campaign of the job just claimed. -/
def Errand.Loads : Errand → Uuid → Prop
  | .claimed campaignId _, id => id = campaignId
  | _, _ => False

def Errand.Makes (targets : TargetRegistry) : Errand → RunJob → Prop
  | .loaded campaignId runId row, job => Orders targets campaignId runId row.input job
  | _, _ => False

def errands (w : Worker) : Protocol Action Action.Answer Errand where
  allows
    | φ, .store (.getCampaign id) => φ.Loads id
    | φ, .run job => φ.Makes w.targets job
    | _, _ => True
  after
    | φ, .store op, r => φ.reply op r
    | φ, _, _ => φ

variable {w : Worker}

theorem finished_errands (φ : Errand) (job : RunJob) (answer : Except RunnerError RunResult) :
    Obeys (errands w) φ (w.finished job answer) :=
  obeys_act trivial fun _ => obeys_act trivial fun _ => obeys_act trivial fun _ => obeys_ret _

theorem started_errands {campaignId runId : Uuid} {row : CampaignRecord} {target : Target}
    (ht : w.targets.get row.targetId = some target) (r : Reply) :
    Obeys (errands w) (.loaded campaignId runId row) (w.started campaignId runId row target r) := by
  unfold Worker.started
  split
  · exact obeys_act trivial fun _ => obeys_act trivial fun _ =>
      obeys_act ⟨target, ht, rfl⟩ fun answer => finished_errands _ _ answer
  · exact obeys_ret _

theorem loaded_errands (campaignId runId : Uuid) (r : Reply) :
    Obeys (errands w) ((Errand.claimed campaignId runId).reply (.getCampaign campaignId) r)
      (w.loaded campaignId runId r) := by
  unfold Worker.loaded
  split
  · split
    · exact obeys_ret _
    · rename_i target ht
      exact obeys_act trivial fun r => started_errands ht r
  · exact obeys_ret _

theorem runLoop_errands (φ : Errand) : Obeys (errands w) φ w.runLoop := by
  refine obeys_act trivial fun r => ?_
  split
  · exact obeys_act rfl fun r => loaded_errands _ _ r
  · exact obeys_ret _

/-! ## Over every interleaving -/

theorem origin {ws : Nat → Worker} {s : World} (h : World.Reach ws s) : Origin s.pg.db (commits s.log) :=
  reach_commits Origin origin_nil (fun hw he ho => origin_commit ho hw he) h

/-- What the worker knows was created, together. -/
def Errand.Made (s : World) : Errand → Prop
  | .nothing => True
  | .claimed campaignId runId => ∃ jobId input, Created (commits s.log) campaignId runId jobId input
  | .loaded campaignId runId row => ∃ jobId, Created (commits s.log) campaignId runId jobId row.input

variable {ws : Nat → Worker} {s s' : World}

theorem Errand.Made.later (hcs : commits s.log ⊆ commits s'.log) : ∀ φ : Errand, φ.Made s → φ.Made s'
  | .nothing, _ => trivial
  | .claimed _ _, h => by
    obtain ⟨jobId, input, hc⟩ := h
    exact ⟨jobId, input, hc.mono hcs⟩
  | .loaded _ _ _, h => by
    obtain ⟨jobId, hc⟩ := h
    exact ⟨jobId, hc.mono hcs⟩

/-- The answer that a worker waited for. A `get_campaign` that it made for the job it
    claimed returned what the campaign was created with. -/
theorem made_reply (hr : World.Reach ws s) {k tx : Nat} {op : StoreOp} {r : Reply} {φ : Errand}
    (hallow : (errands w).allows φ (.store op)) (hφ : φ.Made s) (hcalled : .called k op tx ∈ s.log)
    (hreply : replyOf s.log tx = some r) : (φ.reply op r).Made s := by
  have hsound := reach_sound hr
  obtain ⟨tie, ids, hbegan⟩ := hsound.called k _ tx hcalled
  have hcommitted : ∀ {x : Reply}, r = x → x ≠ .error → x ≠ .campaign none →
      .committed tx (op.call tie ids) x ∈ s.log := by
    rintro x rfl he hn
    rcases mem_of_replyOf hreply with ⟨c, hc⟩ | ha
    · obtain rfl := hsound.once tx _ _ (hsound.committed tx c _ hc).1 hbegan
      exact hc
    · rcases hsound.aborted tx _ ha with e | e
      · exact absurd e he
      · exact absurd e hn
  unfold Errand.reply
  split
  · rename_i job
    obtain ⟨input, hc⟩ := (origin hr).claimed tx tie _ job (mem_commits.mpr (hcommitted rfl (by simp) (by simp)))
    exact ⟨job.jobId, input, hc⟩
  · rename_i campaignId runId id row
    obtain rfl : id = campaignId := hallow
    obtain ⟨jobId, input, hc⟩ := hφ
    have hread := (budgeted hr).read tx id row (hcommitted rfl (by simp) (by simp))
    obtain rfl := ((origin hr).created id runId jobId input hc).1.unique hread
    exact ⟨jobId, hc⟩
  · exact hφ

theorem carries_errand (h : World.Reach ws s) :
    ∀ k, Carries (fun k => errands (ws k)) (fun s φ => φ.Made s) s k (s.workers k) := by
  induction h with
  | init => exact fun _ => ⟨.nothing, obeys_ret _, trivial⟩
  | @step s s' a hr hs ih =>
    have hstep := step_cases hs
    refine carries_step .nothing (fun k => runLoop_errands _) (fun _ => trivial)
      (Errand.Made.later (commits_subset hstep.log_subset)) (fun k φ op tx r => made_reply hr) ?_ ?_ hstep ih
    · intro k φ op _ hφ
      cases φ <;> cases op <;> exact hφ
    · intro k φ a r hno _ hφ
      cases a with
      | store op => exact absurd rfl (hno op)
      | _ => exact hφ

theorem World.Stepped.invoked (hs : Stepped ws s s') {k : Nat} {job : RunJob} (hm : .invoked k job ∈ s'.log) :
    .invoked k job ∈ s.log ∨ ∃ next, s.workers k = .at (.act (.run job) next) := by
  cases hs with
  | tick | poll | publisher => exact Or.inl hm
  | call => exact Or.inl ((List.mem_cons.mp ((List.mem_cons.mp hm).resolve_left nofun)).resolve_left nofun)
  | run k' job' next hk =>
    rcases List.mem_cons.mp hm with heq | hm
    · cases heq
      exact Or.inr ⟨next, hk⟩
    · exact Or.inl hm
  | _ => exact Or.inl ((List.mem_cons.mp hm).resolve_left nofun)

/-- A job that the runner was given is made of one committed `create_campaign`, and of
    the target that the worker's manifest has for it. -/
theorem ordered (h : World.Reach ws s) {k : Nat} {job : RunJob} (hm : .invoked k job ∈ s.log) :
    ∃ jobId input, Created (commits s.log) job.campaignId job.runId jobId input ∧
      Orders (ws k).targets job.campaignId job.runId input job := by
  induction h with
  | init => cases hm
  | @step s s' a hr hs ih =>
    have hstep := step_cases hs
    have hcs := commits_subset hstep.log_subset
    rcases hstep.invoked hm with hold | ⟨next, hk⟩
    · obtain ⟨jobId, input, hc, ho⟩ := ih hold
      exact ⟨jobId, input, hc.mono hcs, ho⟩
    · have hcarry := carries_errand hr k
      rw [hk] at hcarry
      obtain ⟨φ, hp, hφ⟩ := hcarry
      have hallow := hp.allows
      cases φ with
      | loaded campaignId runId row =>
        obtain ⟨target, ht, rfl⟩ := hallow
        obtain ⟨jobId, hc⟩ := hφ
        exact ⟨jobId, row.input, hc.mono hcs, target, ht, rfl⟩
      | _ => exact hallow.elim

end SoroFuzz.Queue
