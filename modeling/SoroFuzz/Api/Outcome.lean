/-
  SoroFuzz.Api.Outcome — `GET /runs/{id}` says what came of a run.

  `start_run`, `finish_run` and `cancel_campaign` write the run's row, each when it
  commits, and a worker calls the first two about what its runner did. `Tally` reads the
  row off the commits; the log reads them off the runner.

  Proved:
  - `tally_commit`: a run counts nothing until its `finish_run` commits, and from then on
    what that one says, whatever cancels it before or after.
  - `run_explained`: whatever the interleaving, the status, the iterations and the number
    of findings that are shown of a run are accounted for by the one answer that a runner
    gave for it and by the cancel, if there were any (`Explained`).
-/

import SoroFuzz.Api.Findings
import SoroFuzz.Queue.Jobs

namespace SoroFuzz.Store

/-- What is counted of a run: nothing yet, or what a `finish_run` of it said. -/
inductive Counted (cs : List Commit) (runId : Uuid) (r : RunRow) : Prop
  | nothing : r.iterations = 0 → r.logTail = none →
      (r.status = .pending ∨ r.status = .running ∨ (r.status = .cancelled ∧ Cancelled cs r.campaignId)) →
      Counted cs runId r
  | finished (f : RunFinish) : Finished cs runId f → r.iterations = f.iterations → r.logTail = f.logTail →
      (r.status = f.status.runStatus ∨ (r.status = .cancelled ∧ Cancelled cs r.campaignId)) → Counted cs runId r

def Tally (d : Db) (cs : List Commit) : Prop := ∀ runId r, d.run runId = some r → Counted cs runId r

theorem Counted.mono {cs cs' : List Commit} (h : cs ⊆ cs') {runId : Uuid} {r : RunRow} (hc : Counted cs runId r) :
    Counted cs' runId r := by
  cases hc with
  | nothing hi ht hs => exact .nothing hi ht (hs.imp_right (Or.imp_right fun hs => ⟨hs.1, hs.2.mono h⟩))
  | finished f hf hi ht hs => exact .finished f (hf.mono h) hi ht (hs.imp_right fun hs => ⟨hs.1, hs.2.mono h⟩)

/-- Nothing is counted of a run that is pending. -/
theorem Counted.pending {cs : List Commit} {runId : Uuid} {r : RunRow} (h : Counted cs runId r)
    (hs : r.status = .pending) : r.iterations = 0 ∧ r.logTail = none := by
  cases h with
  | nothing hi ht => exact ⟨hi, ht⟩
  | finished f _ _ _ hst =>
    rw [hs] at hst
    rcases hst with hst | ⟨hst, -⟩
    · cases hf : f.status <;> rw [hf] at hst <;> cases hst
    · cases hst

theorem tally_nil : Tally ∅ [] := by
  intro _ _ h
  cases h

theorem tally_commit {ok : CampaignStatus → Prop} {b : DateTime} {d0 d d' : Db} {cs : List Commit} {tx : Nat}
    {c : Call} {reply : Reply} (h : Tally d cs) (he : Effect ok b d0 c reply d d') :
    Tally d' (⟨tx, c, reply⟩ :: cs) := by
  intro runId r hr
  have hold : ∀ r', d.run runId = some r' → Counted (⟨tx, c, reply⟩ :: cs) runId r' := fun r' hr' =>
    (h runId r' hr').mono (List.subset_cons_self _ _)
  cases he with
  | created campaignId runId' jobId input row _ _ _ =>
    simp at hr
    split at hr
    · cases hr
      exact .nothing rfl rfl (Or.inl rfl)
    · exact hold r hr
  | got | cancelNoop | claimedNone | startedNot => exact hold r hr
  | cancelled id runId' row q r0 hrow _ _ hr0 hid hmv _ =>
    rw [hmv.run] at hr
    split at hr
    · rename_i heq
      subst heq
      cases hr
      have hcancelled : Cancelled (⟨tx, .cancelCampaign id, .campaign (some row)⟩ :: cs) r0.campaignId :=
        ⟨tx, row, hid ▸ List.mem_cons_self, hrow⟩
      cases hold r0 hr0 with
      | nothing hi ht => exact .nothing hi ht (Or.inr (Or.inr ⟨rfl, hcancelled⟩))
      | finished f hf hi ht => exact .finished f hf hi ht (Or.inr ⟨rfl, hcancelled⟩)
    · exact hold r hr
  | claimed => exact hold r (by simpa using hr)
  | started runId' workerId _ r0 hr0 hpend _ _ hmv _ _ =>
    rw [hmv.run] at hr
    split at hr
    · rename_i heq
      subst heq
      cases hr
      obtain ⟨hi, ht⟩ := (hold r0 hr0).pending hpend
      exact .nothing hi ht (Or.inr (Or.inl rfl))
    · exact hold r hr
  | finishedNot _ _ _ _ _ _ _ hs _ => exact hold r ((hs.run runId) ▸ hr)
  | finished runId' f ids _ r0 _ _ _ hmv _ =>
    rw [hmv.run] at hr
    split at hr
    · rename_i heq
      subst heq
      cases hr
      exact .finished f ⟨tx, ids, List.mem_cons_self⟩ rfl rfl (Or.inl rfl)
    · exact hold r hr

end SoroFuzz.Store

namespace SoroFuzz.Queue

open SoroFuzz.Store

variable {ws : Nat → Worker} {s : World}

theorem tally (h : World.Reach ws s) : Tally s.pg.db (World.commits s.log) :=
  reach_commits Tally tally_nil (fun _ he ht => tally_commit ht he) h

/-- How many findings `SELECT_RUN` counts, once the run's `finish_run` has committed. -/
theorem findings_counted (h : World.Reach ws s) {runId : Uuid} {f : RunFinish}
    (hf : Finished (World.commits s.log) runId f) :
    ((Db.findings s.pg.db).filter fun e => e.2.runId = runId).length = f.findings.length := by
  obtain ⟨tx, ids, hm⟩ := hf
  obtain ⟨b, hshelf⟩ := (findingsKept h).shelf tx runId f ids hm
  rw [hshelf.rows_perm.length_eq, List.length_ofFn]

theorem none_counted (h : World.Reach ws s) {runId : Uuid} (hno : ∀ f, ¬ Finished (World.commits s.log) runId f) :
    ((Db.findings s.pg.db).filter fun e => e.2.runId = runId).length = 0 := by
  obtain ⟨S, hS⟩ := custody h
  rw [List.length_eq_zero_iff, List.filter_eq_nil_iff]
  intro e he
  rw [decide_eq_true_iff]
  rintro rfl
  obtain ⟨f, hf⟩ := hS.history.findings e.1 e.2 (Db.mem_findings.mp he)
  exact hno f hf

/-- Nothing was finished of a run that has not ended. -/
theorem not_finished (h : World.Reach ws s) {runId : Uuid} {r : RunRow} (hr : Db.run s.pg.db runId = some r)
    (hs : r.status.isTerminal = false) (f : RunFinish) : ¬ Finished (World.commits s.log) runId f := by
  intro hf
  obtain ⟨S, hS⟩ := custody h
  obtain ⟨q, hq, hst⟩ := hS.history.finished runId f hf
  rw [hr] at hq
  cases hq
  rcases hst with hst | hst
  · cases hfs : f.status <;> rw [hst, hfs] at hs <;> cases hs
  · rw [hst] at hs
    cases hs

end SoroFuzz.Queue

namespace SoroFuzz.Api

open SoroFuzz.Store
open SoroFuzz.Queue (Worker World RunJob RunResult RunnerError)

/-- What is shown of a run, and why. -/
inductive Explained (ws : Nat → Worker) (s : World) (dto : RunDto) : Prop
  | waiting : dto.status = .pending → (∀ k job, .invoked k job ∈ s.log → job.runId ≠ dto.id) → dto.iterations = 0 →
      dto.findingsCount = 0 → Explained ws s dto
  | underway : dto.status = .running → Started (World.commits s.log) dto.id → dto.iterations = 0 →
      dto.findingsCount = 0 → Explained ws s dto
  /-- The runner answered, and the worker's `finish_run` came in time. -/
  | ended (k : Nat) (job : RunJob) (a : Except RunnerError RunResult) : .ran k job a ∈ s.log → job.runId = dto.id →
      dto.status = ((ws k).finish job.fuzzTargetName a).status.runStatus →
      dto.iterations = ((ws k).finish job.fuzzTargetName a).iterations →
      dto.findingsCount = ((ws k).finish job.fuzzTargetName a).findings.length → Explained ws s dto
  | cancelled : dto.status = .cancelled → Cancelled (World.commits s.log) dto.campaignId → dto.iterations = 0 →
      dto.findingsCount = 0 → Explained ws s dto
  /-- The runner answered, but a cancel overtook the `finish_run`, or overwrote it. -/
  | overruled (k : Nat) (job : RunJob) (a : Except RunnerError RunResult) : .ran k job a ∈ s.log → job.runId = dto.id →
      dto.status = .cancelled → Cancelled (World.commits s.log) dto.campaignId →
      (dto.iterations = 0 ∨ dto.iterations = ((ws k).finish job.fuzzTargetName a).iterations) →
      dto.findingsCount = ((ws k).finish job.fuzzTargetName a).findings.length → Explained ws s dto

variable {U : UuidText} {ws : Nat → Worker} {s : World}

/-- A run shows as it was created, and nothing that did not happen. -/
theorem run_explained (h : World.Reach ws s) {now : DateTime} {raw : String} {dto : RunDto}
    (hget : getRun U (fun id => .ok (Store.getRun s.pg.db now id)) raw = .ok dto) :
    (∃ jobId input, Created (World.commits s.log) dto.campaignId dto.id jobId input ∧ dto.targetId = input.targetId ∧
      dto.timeBudgetSecs = input.timeBudgetSecs) ∧ Explained ws s dto := by
  obtain ⟨id, record, -, hrecord, rfl⟩ := getRun_ok_iff.mp hget
  obtain ⟨r, hr, hrest⟩ := Option.bind_eq_some_iff.mp (Except.ok.inj hrecord)
  obtain ⟨c, hc, hrec⟩ := Option.bind_eq_some_iff.mp hrest
  cases hrec
  obtain ⟨S, hS⟩ := Queue.custody h
  refine ⟨?_, ?_⟩
  · obtain ⟨jobId, input, hcreated⟩ := (Queue.origin h).run id r hr
    obtain ⟨⟨c', hc', rfl⟩, -⟩ := Queue.run_created h hcreated
    rw [hc] at hc'
    cases hc'
    exact ⟨jobId, c.input, hcreated, rfl, rfl⟩
  · cases Queue.tally h id r hr with
    | nothing hi _ hs =>
      rcases hs with hs | hs | ⟨hs, hcancelled⟩
      · refine .waiting hs (fun k job hm he => ?_) hi (Queue.none_counted h (Queue.not_finished h hr (by rw [hs]; rfl)))
        obtain ⟨q, hq, hne⟩ := hS.history.started _ (hS.trace.invokes k job hm).2
        have hid : job.runId = id := he
        rw [hid, hr] at hq
        cases hq
        exact hne hs
      · have hstarted : Started (World.commits s.log) id := by
          refine ((Queue.backlog h).untouched id r hr).resolve_right fun hno => ?_
          rcases hno.2.2 with hst | ⟨hst, -⟩ <;> rw [hs] at hst <;> cases hst
        exact .underway hs hstarted hi (Queue.none_counted h (Queue.not_finished h hr (by rw [hs]; rfl)))
      · by_cases hf : ∃ f, Finished (World.commits s.log) id f
        · obtain ⟨f, hf⟩ := hf
          obtain ⟨k, job, a, hran, -, hrun, rfl⟩ := Queue.finished_by h hf
          exact .overruled k job a hran hrun hs hcancelled (Or.inl hi) (Queue.findings_counted h hf)
        · exact .cancelled hs hcancelled hi (Queue.none_counted h fun f hf' => hf ⟨f, hf'⟩)
    | finished f hf hi _ hs =>
      obtain ⟨k, job, a, hran, -, hrun, rfl⟩ := Queue.finished_by h hf
      rcases hs with hs | ⟨hs, hcancelled⟩
      · exact .ended k job a hran hrun hs hi (Queue.findings_counted h hf)
      · exact .overruled k job a hran hrun hs hcancelled (Or.inr hi) (Queue.findings_counted h hf)

theorem run_explained_crashRun : ∃ s dto, World.play (fun _ => Queue.tokenWorker) World.init Queue.crashRun = some s ∧
    getRun decimalIds (fun id => .ok (Store.getRun s.pg.db 0 id)) "2" = .ok dto ∧ dto.findingsCount = 1 ∧
    Explained (fun _ => Queue.tokenWorker) s dto := by
  obtain ⟨s, hs⟩ := Option.isSome_iff_exists.mp
    (show (World.play (fun _ => Queue.tokenWorker) World.init Queue.crashRun).isSome = true by decide)
  have hone : (World.play (fun _ => Queue.tokenWorker) World.init Queue.crashRun).any (fun s =>
      (getRun decimalIds (fun id => .ok (Store.getRun s.pg.db 0 id)) "2").toOption.any (·.findingsCount = 1)) = true := by
    decide
  rw [hs] at hone
  obtain ⟨dto, hdto, hcount⟩ := (Option.any_eq_true _ _).mp
    (show (getRun decimalIds (fun id => .ok (Store.getRun s.pg.db 0 id)) "2").toOption.any _ = true from hone)
  have hget : getRun decimalIds (fun id => .ok (Store.getRun s.pg.db 0 id)) "2" = .ok dto := by
    cases hx : getRun decimalIds (fun id => .ok (Store.getRun s.pg.db 0 id)) "2" with
    | error e =>
      rw [hx] at hdto
      cases hdto
    | ok x =>
      rw [hx] at hdto
      cases hdto
      rfl
  exact ⟨s, dto, hs, hget, of_decide_eq_true hcount, (run_explained (World.play_reach .init hs) hget).2⟩

end SoroFuzz.Api
