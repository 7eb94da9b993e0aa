/-
  SoroFuzz.Queue.RunFailure — what is stored of a run whose command exits on its own with
  nothing of a crash in its output: a compilation that failed, a toolchain or a container
  that is not there.

  A run that the runner could not carry out is to end failed, with no finding
  (`RunFinishStatus`). The runner takes every exit code but 0 for a crash.

  Proved:
  - `process_cases`: `process` leaves the run unended, or stores the runner's answer.
  - `nonzero_stored`: of a nonzero exit the fallback finding is stored, on a completed
    run.
  - `not_a_finding_iff`: so no finding is stored, and the run fails, exactly when the
    exit code is 0 or absent.
-/

import SoroFuzz.Queue.Stranded
import SoroFuzz.Runner.Subprocess

namespace SoroFuzz.Queue

open SoroFuzz.Store
open Lib.Process
open Lib.ReadCommitted (alone)
open Runner (SandboxOutput SubprocessRunner Unicode fallbackFinding)

variable {o : Outside} {w : Worker} {d d' : Db} {campaignId runId : Uuid}

/-- Every finding was there before. -/
def NoNewFinding (d d' : Db) : Prop := ∀ i f, d'.finding i = some f → d.finding i = some f

/-- The runner's answer is stored, from `d1` on. -/
structure Stored (d1 d' : Db) (runId : Uuid) (finish : RunFinish) (ids : Nat → Uuid) (now : DateTime) : Prop where
  run : ∃ r, d'.run runId = some r ∧ r.status = finish.status.runStatus
  findings : Added d1 d' runId finish.findings ids now

/-- The run has not ended, and there is no new finding. -/
structure Unended (d d' : Db) (runId : Uuid) : Prop where
  run : ∃ r, d'.run runId = some r ∧ r.status.isTerminal = false
  findings : NoNewFinding d d'

/-- `process` leaves the run unended, or starts it, runs it and stores the answer. -/
def Processed (o : Outside) (w : Worker) (runId : Uuid) (d d' : Db) : Prop :=
  Unended d d' runId ∨
    ∃ job d1, NoNewFinding d d1 ∧ Stored d1 d' runId (w.finish job.fuzzTargetName (o.runner job)) o.ids o.now

/-! ## process -/

theorem finished_cases (h : Wf d) (hids : NewIds d o.ids) (job : RunJob) {r : RunRow}
    (hr : d.run job.runId = some r) (hrun : r.status = .running) :
    Processed o w job.runId d (interp o 2 (w.finished job (o.runner job)) d) := by
  have hstays : Unended d d job.runId := ⟨⟨r, hr, by simp [hrun, RunStatus.isTerminal]⟩, fun _ _ hf => hf⟩
  cases hfin : (w.finish job.fuzzTargetName (o.runner job)).storable with
  | true =>
    obtain ⟨d', hd', hst, hadd⟩ := alone_finishRun_stores o.now h hfin hids hr hrun
    simp only [Worker.finished, interp, StoreOp.call, body, hd']
    cases o.fate 2 with
    | lost => exact Or.inl hstays
    | _ => exact Or.inr ⟨job, d, fun _ _ hf => hf, hst, hadd⟩
  | false =>
    simp only [Worker.finished, interp, StoreOp.call, body, alone_finishRun_refused o.now hfin]
    cases o.fate 2 <;> exact Or.inl hstays

theorem Processed.after {d1 : Db} (hsub : NoNewFinding d d1) (h : Processed o w runId d1 d') :
    Processed o w runId d d' := by
  rcases h with hun | ⟨job, d2, hsub2, hst⟩
  · exact Or.inl ⟨hun.run, fun i f hf => hsub i f (hun.findings i f hf)⟩
  · exact Or.inr ⟨job, d2, fun i f hf => hsub i f (hsub2 i f hf), hst⟩

theorem startRun_cases (h : Wf d) (hids : NewIds d o.ids) {r : RunRow} (hr : d.run runId = some r)
    (hpend : r.status = .pending) (campaign : CampaignRecord) (target : Target) :
    Processed o w runId d (interp o 1 (.act (.store (.startRun runId w.id)) fun reply =>
      w.started campaignId runId campaign target reply) d) := by
  obtain ⟨d', hd', -, hrunning, hfind⟩ := alone_startRun o.now h w.idStorable hr
  obtain ⟨r', hr', hst⟩ := hrunning hpend
  have hw' : Wf d' := alone_wf (c := .startRun runId w.id) h hd'
  have hids' : NewIds d' o.ids := hids.of_sub hfind
  simp only [interp, StoreOp.call, body, hd']
  cases o.fate 1 with
  | ok =>
    simp only [hpend, decide_true, Worker.started, interp]
    exact Processed.after hfind (finished_cases hw' hids' ⟨runId, campaignId, _, _, _⟩ hr' hst)
  | lost => exact Or.inl ⟨⟨r, hr, by simp [hpend, RunStatus.isTerminal]⟩, fun _ _ hf => hf⟩
  | unacked => exact Or.inl ⟨⟨r', hr', by simp [hst, RunStatus.isTerminal]⟩, hfind⟩

theorem process_cases (h : Wf d) (hids : NewIds d o.ids) {c : CampaignRow} {r : RunRow}
    (hc : d.campaign campaignId = some c) (hr : d.run runId = some r) (hpend : r.status = .pending) :
    Processed o w runId d (interp o 0 (w.process campaignId runId) d) := by
  have hstays : Unended d d runId := ⟨⟨r, hr, by simp [hpend, RunStatus.isTerminal]⟩, fun _ _ hf => hf⟩
  obtain ⟨row, hrow, -⟩ := campaignWithRun_of h hc
  have hget : alone (getCampaign campaignId) [] d = (.campaign (some row), d) := by
    rw [← hrow]; rfl
  simp only [Worker.process, interp, StoreOp.call, body, hget]
  cases o.fate 0 with
  | ok =>
    simp only [Worker.loaded]
    cases w.targets.get row.targetId with
    | none => exact Or.inl hstays
    | some target => exact startRun_cases h hids hr hpend row target
  | _ => exact Or.inl hstays

/-! ## A run that was not carried out -/

/-- The runner is the subprocess runner, and its sandbox answers `output`. -/
def Outside.sandboxed (o : Outside) (U : Unicode) (runner : SubprocessRunner) (output : SandboxOutput) : Outside :=
  { o with runner := fun job => (runner.run U (fun _ _ _ _ => .ok output) job).2 }

/-- No finding of the run is stored, and a nonzero exit makes the run fail. -/
structure NotAFinding (output : SandboxOutput) (runId : Uuid) (d d' : Db) : Prop where
  findings : ∀ i f, d'.finding i = some f → f.runId = runId → d.finding i = some f
  failed : output.ExitedNonzero → ∃ r, d'.run runId = some r ∧ r.status = .failed

variable {U : Unicode} {runner : SubprocessRunner} {output : SandboxOutput}

theorem sandboxed_nonzero (hu : output.Unmarked U) (hexit : output.ExitedNonzero) (job : RunJob) :
    ∃ result, (o.sandboxed U runner output).runner job = .ok result ∧ result.outcome = .completed ∧
      result.findings = [fallbackFinding output] :=
  Runner.run_unmarked_nonzero rfl hu hexit

theorem sandboxed_clean (hu : output.Unmarked U) (hexit : ¬ output.ExitedNonzero) (job : RunJob) :
    ∃ result, (o.sandboxed U runner output).runner job = .ok result ∧ result.findings = [] :=
  ⟨_, Runner.run_finished rfl hu.inTime, by simp [Runner.parse_finding_none hexit]⟩

theorem stored_status {job : RunJob} {d1 : Db} {result : RunResult} (hres : o.runner job = .ok result)
    (hout : result.outcome = .completed)
    (hst : Stored d1 d' runId (w.finish job.fuzzTargetName (o.runner job)) o.ids o.now) :
    ∃ r, d'.run runId = some r ∧ r.status = .completed := by
  obtain ⟨r, hr, hs⟩ := hst.run
  exact ⟨r, hr, by rw [hs, hres]; simp [Worker.finish, hout, RunFinishStatus.runStatus]⟩

/-- Of a nonzero exit, the run is completed with the fallback finding for its only new
    one. -/
theorem nonzero_stored (h : Wf d) (hids : NewIds d o.ids) {c : CampaignRow} {r : RunRow}
    (hc : d.campaign campaignId = some c) (hr : d.run runId = some r) (hpend : r.status = .pending)
    (hworks : Works (o.sandboxed U runner output) w campaignId runId c) (hu : output.Unmarked U)
    (hexit : output.ExitedNonzero) :
    let d' := interp (o.sandboxed U runner output) 0 (w.process campaignId runId) d
    (∃ r', d'.run runId = some r' ∧ r'.status = .completed) ∧
      ∃ job : RunJob, d'.finding (o.ids 0) =
        some ⟨runId, w.toNewFinding (fallbackFinding output) job.fuzzTargetName, o.now⟩ := by
  intro d'
  have hended : Ended d' runId :=
    (ended_iff (o := o.sandboxed U runner output) h hids hc hr).mpr (Or.inr ⟨hpend, hworks⟩)
  rcases process_cases (o := o.sandboxed U runner output) (w := w) h hids hc hr hpend with hun | ⟨job, d1, -, hst⟩
  · obtain ⟨r', hr', hnot⟩ := hun.run
    rw [ended_of hr'] at hended
    rw [hended] at hnot
    cases hnot
  · obtain ⟨result, hres, hout, hfind⟩ := sandboxed_nonzero hu hexit job
    refine ⟨stored_status hres hout hst, job, hst.findings.new 0 _ ?_⟩
    rw [hres]
    simp [Worker.finish, hfind]

/-- Of a command that exits with nothing of a crash in its output, no finding is stored,
    and a nonzero exit makes the run fail, exactly when the exit code is 0 or absent. -/
theorem not_a_finding_iff {s : Pg} (h : Reach s) (hids : NewIds s.db o.ids) {c : CampaignRow} {r : RunRow}
    (hc : Db.campaign s.db campaignId = some c) (hr : Db.run s.db runId = some r) (hpend : r.status = .pending)
    (hu : output.Unmarked U) :
    NotAFinding output runId s.db (interp (o.sandboxed U runner output) 0 (w.process campaignId runId) s.db) ↔
      output.exitCode = none ∨ output.exitCode = some 0 := by
  rw [← Runner.not_exitedNonzero_iff]
  have hcases := process_cases (o := o.sandboxed U runner output) (w := w) (pg_ok h).inv hids hc hr hpend
  constructor
  · intro hnot hexit
    obtain ⟨r', hr', hfailed⟩ := hnot.failed hexit
    rcases hcases with hun | ⟨job, d1, -, hst⟩
    · obtain ⟨q, hq, hnt⟩ := hun.run
      rw [hr'] at hq
      cases hq
      rw [hfailed] at hnt
      cases hnt
    · obtain ⟨result, hres, hout, -⟩ := sandboxed_nonzero hu hexit job
      obtain ⟨q, hq, hcompleted⟩ := stored_status hres hout hst
      rw [hr'] at hq
      cases hq
      rw [hfailed] at hcompleted
      cases hcompleted
  · intro hexit
    refine ⟨fun i f hf _ => ?_, fun hnz => absurd hnz hexit⟩
    rcases hcases with hun | ⟨job, d1, hsub, hst⟩
    · exact hun.findings i f hf
    · obtain ⟨result, hres, hfind⟩ := sandboxed_clean hu hexit job
      have hnil : (w.finish job.fuzzTargetName ((o.sandboxed U runner output).runner job)).findings = [] := by
        rw [hres]
        simp [Worker.finish, hfind]
      refine hsub i f ?_
      rw [← hst.findings.other i (fun k hk => by rw [hnil] at hk; exact absurd hk (Nat.not_lt_zero k))]
      exact hf

/-- `cargo fuzz` as configured by default. -/
def nightlyRunner : SubprocessRunner := ⟨"/fuzz", "nightly", none, 3600⟩

def finishedClean : SandboxOutput := ⟨"", "Done 100000 runs in 30 second(s)\n", some 0, false⟩

/-- What `cargo` says of a toolchain that is not there. -/
def noToolchain : SandboxOutput := ⟨"", "error: toolchain 'nightly' is not installed\n", some 1, false⟩

theorem not_a_finding_clean : ∃ s, Reach s ∧ Db.run s.db 2 = some pendingRun ∧
    NotAFinding finishedClean 2 s.db
      (interp (allWell.sandboxed Runner.asciiOnly nightlyRunner finishedClean) 0 (tokenWorker.process 1 2) s.db) := by
  obtain ⟨s, hs, -, hc, hr, hf⟩ := createAndClaim_reach
  exact ⟨s, hs, hr, (not_a_finding_iff hs (newIds_of_empty hf) hc hr rfl ⟨rfl, by decide, by decide⟩).mpr (Or.inr rfl)⟩

theorem toolchain_filed_as_finding : ¬ ∀ (o : Outside) (w : Worker) (U : Unicode) (runner : SubprocessRunner)
    (output : SandboxOutput) (s : Pg), Reach s → NewIds s.db o.ids → output.Unmarked U →
      ∀ campaignId runId c r, Db.campaign s.db campaignId = some c → Db.run s.db runId = some r →
        r.status = .pending →
          NotAFinding output runId s.db
            (interp (o.sandboxed U runner output) 0 (w.process campaignId runId) s.db) := by
  intro hall
  obtain ⟨s, hs, -, hc, hr, hf⟩ := createAndClaim_reach
  have hids := newIds_of_empty hf
  have hu : noToolchain.Unmarked Runner.asciiOnly := ⟨rfl, by decide, by decide⟩
  have hexit : noToolchain.ExitedNonzero := ⟨1, rfl, by decide⟩
  have hworks : Works (allWell.sandboxed Runner.asciiOnly nightlyRunner noToolchain) tokenWorker 1 2 queuedCampaign :=
    ⟨rfl, rfl, rfl, by simp [allWell, Outside.sandboxed], fun target htarget => by cases htarget; decide⟩
  obtain ⟨r', hr', hfailed⟩ :=
    (hall allWell tokenWorker _ nightlyRunner noToolchain s hs hids hu 1 2 _ _ hc hr rfl).failed hexit
  obtain ⟨⟨q, hq, hcompleted⟩, -⟩ := nonzero_stored (pg_ok hs).inv hids hc hr rfl hworks hu hexit
  rw [hr'] at hq
  cases hq
  rw [hfailed] at hcompleted
  cases hcompleted

end SoroFuzz.Queue
