/-
  SoroFuzz.Queue.AtMostOnce — a job is claimed once, its run is executed once, and what
  is stored is what that execution found.

  Proved, of every reachable world (`at_most_once`):
  - no job is returned by two `claim_job`s, and no run is given to the runner twice;
  - no run is given to the runner whose campaign was cancelled before `start_run`
    updated the run;
  - when a run's `finish_run` commits, the run's findings in the store are those of the
    runner's one answer, each once, whatever cancel raced it.
-/

import SoroFuzz.Queue.Custody

namespace SoroFuzz.Queue

open SoroFuzz.Store
open World

/-- The findings stored for the run, in heap order. -/
def storedFindings (d : Db) (runId : Uuid) : List NewFinding :=
  (d.findings.filter fun f => f.2.runId = runId).map fun f => f.2.finding

/-- What the runner found, as the worker stores it. -/
def foundBy (w : Worker) (job : RunJob) : Except RunnerError RunResult → List NewFinding
  | .ok result => result.findings.map (w.toNewFinding · job.fuzzTargetName)
  | .error _ => []

theorem finish_findings (w : Worker) (job : RunJob) (answer : Except RunnerError RunResult) :
    (w.finish job.fuzzTargetName answer).findings = foundBy w job answer := by
  cases answer <;> rfl

/-! ## Stored findings -/

/-- The k-th of the findings that `Added` adds. -/
def addedRow (runId : Uuid) (fs : List NewFinding) (ids : Nat → Uuid) (b : DateTime) (k : Fin fs.length) :
    Uuid × FindingRow :=
  (ids k, ⟨runId, fs[k], b⟩)

/-- When `fs` is added for a run that had no findings, its findings are `fs`. -/
theorem storedFindings_added {d d' : Db} {runId : Uuid} {fs : List NewFinding} {ids : Nat → Uuid} {b : DateTime}
    (h : Added d d' runId fs ids b) (hnone : ∀ i f, d.finding i = some f → f.runId ≠ runId) :
    (storedFindings d' runId).Perm fs := by
  have hnew : ((List.finRange fs.length).map (addedRow runId fs ids b)).Nodup := by
    refine (List.nodup_finRange _).map fun j k e => ?_
    exact Fin.ext (h.distinct j j.2 k k.2 (Prod.mk.inj e).1)
  have hperm : (d'.findings.filter fun f => f.2.runId = runId).Perm
    ((List.finRange fs.length).map (addedRow runId fs ids b)) := by
    refine (List.perm_ext_iff_of_nodup ((Db.findings_nodup d').filter _) hnew).mpr ?_
    intro e
    obtain ⟨i, f⟩ := e
    rw [List.mem_filter, Db.mem_findings, List.mem_map]
    constructor
    · intro hm
      obtain ⟨hf, hr⟩ := hm
      rcases h.cases hf with hold | ⟨k, g, hg, rfl, rfl⟩
      · exact absurd (by simpa using hr) (hnone i f hold)
      · obtain ⟨hk, rfl⟩ := List.getElem?_eq_some_iff.mp hg
        exact ⟨⟨k, hk⟩, List.mem_finRange _, rfl⟩
    · intro hm
      obtain ⟨k, -, e⟩ := hm
      cases e
      exact ⟨h.new k _ (List.getElem?_eq_getElem k.2), by simp⟩
  have hmap := hperm.map fun f => f.2.finding
  rw [List.map_map] at hmap
  exact hmap.trans (List.Perm.of_eq (List.map_get_finRange fs))

variable {ws : Nat → Worker} {s s' : World} {S : Uuid → Stage}

/-- The commit of a `finish_run`. -/
theorem Custody.finish_commit (h : Custody ws s S) {i : Nat} {t : Txn} {runId : Uuid} {f : RunFinish} {ids : Nat → Uuid}
    (hs : step ws s (.pg (.commit i)) = some s') (ht : s.pg.txns.lookup i = some t)
      (hc : t.call = .finishRun runId f ids) :
    ∃ k job answer, .ran k job answer ∈ s.log ∧ job.runId = runId ∧
      (storedFindings s'.pg.db runId).Perm (foundBy (ws k) job answer) := by
  obtain ⟨pg, hpg, rfl⟩ := Option.map_eq_some_iff.mp hs
  obtain ⟨k, job, answer, hran, hrun, hf⟩ := h.trace.finishes i runId f ids (hc ▸ h.sound.txns i t ht)
  refine ⟨k, job, answer, hran, hrun, ?_⟩
  rw [← finish_findings, ← hf]
  have hnone : ∀ j g, Db.finding s.pg.db j = some g → g.runId ≠ runId := by
    rintro j g hg rfl
    obtain ⟨f', hf'⟩ := h.history.findings j g hg
    have hdone := h.finished g.runId f' hf'
    rw [(h.finishing i t g.runId f ids ht hc).1] at hdone
    cases hdone
  cases Lib.ReadCommitted.step_cases body hpg with
  | commit _ t' r ht' hp =>
    rw [ht] at ht'; cases ht'
    have he := (Lib.ReadCommitted.commit_post h.sound.ok ht hp).2.2
    rw [hc] at he
    dsimp only
    generalize Lib.ReadCommitted.applyAll t.writes s.pg.db = d' at he ⊢
    cases he with
    | finishedNot _ _ _ _ _ _ _ _ ha => exact storedFindings_added ha hnone
    | finished _ _ _ _ _ _ _ _ _ ha => exact storedFindings_added ha hnone

/-- No cancel came before the UPDATE that started a run the runner was given. -/
theorem Custody.uncancelled (h : Custody ws s S) {runId : Uuid} (hinv : runId ∈ invokedRuns s.log) :
    ∃ r, Db.run s.pg.db runId = some r ∧ ∀ i workerId log,
      (.executed i (.startRun runId workerId) .startRun :: log) <:+ s.log → ¬ Cancelled (commits log) r.campaignId := by
  obtain ⟨k, job, hm, rfl⟩ := Trace.mem_invokedRuns.mp hinv
  have hstarted := (h.trace.invokes k job hm).2
  obtain ⟨r, hr, -⟩ := h.history.started _ hstarted
  refine ⟨r, hr, fun i workerId log hs hc => ?_⟩
  obtain ⟨tx, w, hcommit⟩ := hstarted
  have hcommit := mem_commits.mp hcommit
  -- It is the run's one `start_run`, and its commit came later.
  obtain rfl : i = tx := h.trace.startOnce i tx _ workerId w (h.sound.executed _ _ _ (hs.subset List.mem_cons_self))
    (h.sound.committed _ _ _ hcommit).1
  have hbefore := h.sound.ended i _ _ log hs
  obtain ⟨l1, hlog⟩ := hs
  rw [← hlog] at hcommit
  rcases List.mem_append.mp hcommit with hin | hin
  · obtain ⟨a, b, rfl⟩ := List.append_of_mem hin
    refine h.history.live i _ w (commits (b ++ .executed i (.startRun job.runId workerId) .startRun :: log))
      ⟨commits a, ?_⟩ r hr
      (hc.mono (commits_subset fun e he => ?_))
    · rw [← hlog, List.append_assoc]
      simp [commits]
    · exact List.mem_append_right _ (List.mem_cons_of_mem _ he)
  · rcases List.mem_cons.mp hin with heq | hin
    · cases heq
    · exact hbefore _ _ hin

structure AtMostOnce (ws : Nat → Worker) (s : World) : Prop where
  claims : (claimedJobs (commits s.log)).Nodup
  invocations : (invokedRuns s.log).Nodup
  uncancelled : ∀ runId ∈ invokedRuns s.log, ∃ r, Db.run s.pg.db runId = some r ∧ ∀ i workerId log,
    (.executed i (.startRun runId workerId) .startRun :: log) <:+ s.log → ¬ Cancelled (commits log) r.campaignId
  findings : ∀ s' i t runId f ids, step ws s (.pg (.commit i)) = some s' → s.pg.txns.lookup i = some t →
    t.call = .finishRun runId f ids → ∃ k job answer, .ran k job answer ∈ s.log ∧ job.runId = runId ∧
      (storedFindings s'.pg.db runId).Perm (foundBy (ws k) job answer)

theorem at_most_once (h : World.Reach ws s) : AtMostOnce ws s := by
  obtain ⟨S, hS⟩ := custody h
  exact ⟨hS.claims, hS.trace.invokedOnce, fun _ hm => hS.uncancelled hm, fun _ _ _ _ _ _ hs ht hc =>
    hS.finish_commit hs ht hc⟩

/-- A run that finds one crash, from its campaign's creation to its close. -/
def crashRun : List Act :=
  createAct ++ claimAct ++ startAct ++
    [.answer 0 (.ok ⟨.completed, 7, [⟨"no-negative-balance", "-1", 0, [], none, "crash-1"⟩], none⟩), .proceed 0,
      .call 0 id id, .pg (.exec 4), .pg (.exec 4), .pg (.exec 4), .pg (.commit 4), .reply 0, .proceed 0]

theorem at_most_once_crashRun : ∃ s, play (fun _ => tokenWorker) World.init crashRun = some s ∧
    invokedRuns s.log = [2] ∧
    AtMostOnce (fun _ => tokenWorker) s := by
  obtain ⟨s, hs⟩ := Option.isSome_iff_exists.mp
    (show (play (fun _ => tokenWorker) World.init crashRun).isSome = true by decide)
  have hinv : (play (fun _ => tokenWorker) World.init crashRun).any (fun s => invokedRuns s.log = [2]) =
    true := by decide
  rw [hs] at hinv
  exact ⟨s, hs, of_decide_eq_true hinv, at_most_once (play_reach .init hs)⟩

end SoroFuzz.Queue
