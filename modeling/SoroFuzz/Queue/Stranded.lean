/-
  SoroFuzz.Queue.Stranded — what becomes of a claimed job when `Worker::process` returns.

  `interp` runs `process` with nothing else in flight. Each of its calls to the store
  meets a fate: it returns what it returns, or its `Err` comes before its effect, or
  after it (COMMIT was sent and the connection lost). A job is `Reclaimable` when some
  interleaving of the store's calls has a `claim_job` about to return it.

  Proved:
  - `claimed_not_reclaimable`: nothing ever makes a claimed job claimable again.
  - `not_stranded_iff`: so the job is stranded unless its run had ended before, or every
    step of `process` works: the campaign loads, its target is in the manifest, the run
    starts, and its outcome is stored, which it is not when one of its texts has a U+0000.
  - `stranded_unknown_target`: with the target gone from the manifest, the campaign
    stays queued.
-/

import SoroFuzz.Queue.Process
import SoroFuzz.Store.Interleave
import SoroFuzz.Store.Texts

namespace SoroFuzz.Queue

open SoroFuzz.Store
open Lib.Process
open Lib.ReadCommitted (alone alone_meets Meets Rely applyAll)

inductive Fate where
  | ok
  /-- The call failed and had no effect. -/
  | lost
  /-- The call took effect, and returned an error. -/
  | unacked
  deriving DecidableEq, Repr

/-- What `process` meets outside: the fate of its n-th call to the store, the time and
    the ids that Postgres generates, and the runner. -/
structure Outside where
  fate : Nat → Fate
  now : DateTime
  tie : Nat → Nat
  ids : Nat → Uuid
  runner : RunJob → Except RunnerError RunResult

/-- The rows that are left when the process returns; `n` counts its calls to the store. -/
def interp (o : Outside) : Nat → Process → Db → Db
  | _, .ret, d => d
  | n, .act (.store op) next, d =>
    let (r, d') := alone (body (op.call o.tie o.ids) o.now) [] d
    match o.fate n with
    | .ok => interp o (n + 1) (next r) d'
    | .lost => interp o (n + 1) (next .error) d
    | .unacked => interp o (n + 1) (next .error) d'
  | n, .act (.run job) next, d => interp o n (next (o.runner job)) d
  | n, .act (.publisher _) next, d | n, .act (.emit _ _) next, d | n, .act (.close _) next, d => interp o n (next ()) d

/-- A later `claim_job` can return the job. -/
def Reclaimable (now : DateTime) (d : Db) (jobId : Uuid) : Prop :=
  ∃ s tx t tie workerId job, Lib.ReadCommitted.Run body (fun _ _ => true) ⟨d, now, ∅⟩ s ∧ s.txns.lookup tx = some t ∧
    t.call = .claimJob tie workerId ∧ t.prog = .commit (.claimed (some job)) ∧ job.jobId = jobId

def Ended (d : Db) (runId : Uuid) : Prop := ∃ r, d.run runId = some r ∧ r.status.isTerminal = true

/-- The ids Postgres generates are not in use, and all different. -/
structure NewIds (d : Db) (ids : Nat → Uuid) : Prop where
  unused : ∀ k, d.finding (ids k) = none
  distinct : Function.Injective ids

theorem NewIds.of_sub {d d' : Db} {ids : Nat → Uuid} (h : NewIds d ids)
    (hsub : ∀ i f, d'.finding i = some f → d.finding i = some f) : NewIds d' ids := by
  refine ⟨fun k => Option.eq_none_iff_forall_not_mem.mpr fun f hf => ?_, h.distinct⟩
  have := hsub _ f hf
  rw [h.unused k] at this; cases this

/-! ## A claimed job stays claimed -/

theorem claimed_not_reclaimable {now : DateTime} {d : Db} (h : Wf d) {jobId : Uuid} {j : JobRow}
    (hj : d.job jobId = some j) (hc : j.claimedBy ≠ none) : ¬ Reclaimable now d jobId := by
  intro hm
  obtain ⟨s, tx, t, tie, workerId, job, hrun, ht, hcall, hprog, rfl⟩ := hm
  obtain ⟨hok, hpersist⟩ := run_storeSpec (Lib.ReadCommitted.quiet_ok h) hrun
  obtain ⟨j', hj', -, -, hclaimed⟩ := Persist.job hpersist _ j hj
  have he := (Lib.ReadCommitted.commit_post hok ht hprog).2.2
  rw [hcall] at he
  generalize applyAll t.writes s.db = d' at he
  cases he with
  | claimed _ _ id q hq hnone =>
    rw [hj'] at hq
    cases hq
    exact hclaimed hc hnone

/-! ## The store's calls, run alone -/

section alone
variable {d : Db} {now : DateTime}

/-- What a method does that runs alone: its effect, or nothing and a refusal. -/
theorem alone_body (now : DateTime) (h : Wf d) (c : Call) :
    (Wf (alone (body c now) [] d).2 ∧ Persist d (alone (body c now) [] d).2 ∧
      Effect (fun _ => True) now d c (alone (body c now) [] d).1 d (alone (body c now) [] d).2) ∨
    ((alone (body c now) [] d).2 = d ∧
      ((alone (body c now) [] d).1 = .error ∨ (alone (body c now) [] d).1 = .campaign none)) :=
  alone_meets (S := storeSpec fun _ => True) (fun _ _ _ _ _ _ _ => trivial) (n := now) h (body_meets _ c now d h)

theorem alone_wf (h : Wf d) {c : Call} {reply : Reply} {d' : Db}
    (he : alone (body c now) [] d = (reply, d')) : Wf d' := by
  rcases alone_body now h c with ⟨hw, -⟩ | ⟨hsame, -⟩
  · rwa [he] at hw
  · rw [he] at hsame
    obtain rfl : d' = d := hsame
    exact h

/-- The campaign's record is found, with what it was created with. -/
theorem campaignWithRun_of (h : Wf d) {id : Uuid} {c : CampaignRow} (hc : d.campaign id = some c) :
    ∃ row, campaignWithRun d id = some row ∧ row.targetId = c.targetId ∧ row.invariantIds = c.invariantIds ∧
      row.timeBudgetSecs = c.timeBudgetSecs := by
  obtain ⟨runId, r, hr, hcid⟩ := h.campaignRun id c hc
  have hex : ∃ x ∈ selectCampaignWithRun d, x.id = id := by
    refine ⟨_, List.mem_flatMap.mpr ⟨(id, c), Db.mem_campaigns.mpr hc, List.mem_map.mpr ⟨(runId, r), ?_, rfl⟩⟩, rfl⟩
    exact List.mem_filter.mpr ⟨Db.mem_runs.mpr hr, by simpa using hcid⟩
  obtain ⟨x, hx, hxid⟩ := hex
  obtain ⟨row, hrow⟩ := Option.isSome_iff_exists.mp
    (List.find?_isSome (p := (·.id = id)).mpr ⟨x, hx, decide_eq_true hxid⟩)
  refine ⟨row, hrow, ?_⟩
  have hid : row.id = id := by simpa using List.find?_some hrow
  obtain ⟨⟨i, e⟩, he, hm⟩ := List.mem_flatMap.mp (List.mem_of_find?_eq_some hrow)
  obtain ⟨⟨k, q⟩, -, rfl⟩ := List.mem_map.mp hm
  have he' : d.campaign i = some e := Db.mem_campaigns.mp he
  have hii : i = id := hid
  rw [hii, hc] at he'
  cases he'
  exact ⟨rfl, rfl, rfl⟩

theorem alone_startRun (now : DateTime) (h : Wf d) {runId : Uuid} {workerId : String}
    (hid : storable workerId = true) {r : RunRow} (hr : d.run runId = some r) :
    ∃ d' : Db, alone (startRun runId workerId now) [] d = (.started (decide (r.status = .pending)), d') ∧
      (r.status ≠ .pending → d' = d) ∧ (r.status = .pending → ∃ r', d'.run runId = some r' ∧ r'.status = .running) ∧
      ∀ i f, d'.finding i = some f → d.finding i = some f := by
  have hreply : ∃ b, (alone (startRun runId workerId now) [] d).1 = .started b := by
    rw [startRun, Lib.Sql.binding_ok hid]
    simp only [Lib.Sql.update, alone]
    split
    · exact ⟨false, rfl⟩
    · exact ⟨true, rfl⟩
  obtain ⟨b, hb⟩ := hreply
  have he := alone_body now h (.startRun runId workerId)
  simp only [body] at he
  generalize alone (startRun runId workerId now) [] d = out at hb he
  obtain ⟨reply, d'⟩ := out
  dsimp only at hb he
  subst hb
  refine ⟨d', ?_⟩
  rcases he with ⟨-, -, he⟩ | ⟨-, he | he⟩
  · cases he with
    | startedNot d1 _ _ hp0 hp1 hnot =>
      obtain ⟨r1, hr1, -, hl1⟩ := hp0.run runId r hr
      obtain ⟨r2, hr2, -, hl2⟩ := hp1.run runId r1 hr1
      rw [hr] at hr2; cases hr2
      have hne : r.status ≠ .pending := hl1.antisymm hl2 ▸ hnot r1 hr1
      exact ⟨by simp [hne], fun _ => rfl, fun hp => absurd hp hne, fun _ _ hf => hf⟩
    | started _ _ c q hq hpend hc hcq hmv hf _ =>
      rw [hr] at hq; cases hq
      exact ⟨by simp [hpend], fun hne => absurd hpend hne, fun _ => ⟨_, by rw [hmv.run]; exact if_pos rfl, rfl⟩, hf⟩
  · cases he
  · cases he

/-- The INSERT of a finding of a run that exists goes through if its texts are stored. -/
theorem insert_violates {runId : Uuid} {f : NewFinding} :
    (decide (Db.run d runId = none) || !f.storable) = false ↔ Db.run d runId ≠ none ∧ f.storable = true := by
  rw [Bool.or_eq_false_iff, decide_eq_false_iff_not, Bool.not_eq_false']

/-- New and distinct ids are enough. -/
theorem alone_insertFindings {runId : Uuid} {ids : Nat → Uuid} :
    ∀ (fs : List NewFinding) (k : Nat) (ws : List Write), (∀ f ∈ fs, f.storable = true) →
      Db.run (applyAll ws d) runId ≠ none →
      (∀ j, k ≤ j → j < k + fs.length → Db.finding (applyAll ws d) (ids j) = none) →
      (∀ i j, k ≤ i → i < j → j < k + fs.length → ids i ≠ ids j) →
        (alone (insertFindings runId ids now fs k) ws d).1 = .finished := by
  intro fs
  induction fs with
  | nil => intros; rfl
  | cons f fs ih =>
    intro k ws hfs hrun hnew hdistinct
    rw [List.length_cons] at hnew hdistinct
    rw [insertFindings, Lib.Sql.alone_insertRow (hnew k (Nat.le_refl k) (by omega))
      (insert_violates.mpr ⟨hrun, hfs f List.mem_cons_self⟩)]
    refine ih (k + 1) _ (fun g hg => hfs g (List.mem_cons_of_mem _ hg)) ?_ (fun j hj hlt => ?_) fun i j hi hij hj =>
      hdistinct i j (by omega) hij (by omega)
    · simpa [Lib.ReadCommitted.applyAll_append] using hrun
    · have hne : ids j ≠ ids k := (hdistinct k j (Nat.le_refl k) (by omega) (by omega)).symm
      simpa [Lib.ReadCommitted.applyAll_append, hne] using hnew j (by omega) (by omega)

theorem alone_finishRun_finished (now : DateTime) (h : Wf d) {runId : Uuid} {finish : RunFinish}
    (hfin : finish.storable = true) {ids : Nat → Uuid} {r : RunRow} (hr : d.run runId = some r)
    (hnew : ∀ k < finish.findings.length, d.finding (ids k) = none)
    (hdistinct : ∀ j < finish.findings.length, ∀ k < finish.findings.length, ids j = ids k → j = k) :
    (alone (finishRun runId finish ids now) [] d).1 = .finished := by
  have happly : Db.run (applyAll [] d) runId = some r := hr
  have hapart : ∀ i j, 0 ≤ i → i < j → j < 0 + finish.findings.length → ids i ≠ ids j := by
    intro i j _ hij hj he
    have := hdistinct i (by omega) j (by omega) he
    omega
  obtain ⟨hlog, hfindings⟩ := (Bool.and_eq_true _ _).mp hfin
  have hstored : ∀ f ∈ finish.findings, f.storable = true := List.all_eq_true.mp hfindings
  rw [finishRun, Lib.Sql.binding_ok hlog]
  by_cases hrun : r.status = .running
  · obtain ⟨c, hc⟩ := h.runCampaign runId r hr
    refine (congrArg Prod.fst ((Lib.Sql.alone_update (updates_runs happly ⟨rfl, hrun⟩ fun _ _ _ h => h.1)).trans
      (Lib.Sql.alone_update (updates_campaigns (c := c) ?_ rfl fun _ _ _ h => h)))).trans ?_
    · exact (Lib.ReadCommitted.lookup_applyAll_other _ _ (by simp)).trans hc
    · exact alone_insertFindings _ 0 _ hstored (by simp) (fun j _ hj => by simpa using hnew j (by omega)) hapart
  · refine (congrArg Prod.fst (Lib.Sql.alone_update (updates_runs_nil fun i q hq hm => ?_))).trans ?_
    · obtain ⟨rfl, hst⟩ := hm
      rw [happly] at hq
      cases hq
      exact hrun hst
    · exact alone_insertFindings _ 0 _ hstored (by simp [hr]) (fun j _ hj => by simpa using hnew j (by omega)) hapart

/-- With new ids, the outcome of a run that is running gets stored. -/
theorem alone_finishRun_stores (now : DateTime) (h : Wf d) {runId : Uuid} {finish : RunFinish} {ids : Nat → Uuid}
    (hfin : finish.storable = true) (hids : NewIds d ids) {r : RunRow} (hr : d.run runId = some r)
    (hrun : r.status = .running) :
    ∃ d' : Db, alone (finishRun runId finish ids now) [] d = (.finished, d') ∧
      (∃ r', d'.run runId = some r' ∧ r'.status = finish.status.runStatus) ∧
      Added d d' runId finish.findings ids now := by
  have hreply := alone_finishRun_finished now h hfin hr (fun k _ => hids.unused k) fun _ _ _ _ he => hids.distinct he
  have he := alone_body now h (.finishRun runId finish ids)
  simp only [body] at he
  generalize alone (finishRun runId finish ids now) [] d = out at hreply he
  obtain ⟨reply, d'⟩ := out
  dsimp only at hreply he
  subst hreply
  refine ⟨d', rfl, ?_⟩
  rcases he with ⟨-, -, he⟩ | ⟨-, he | he⟩
  · cases he with
    | finishedNot d1 _ _ _ hp0 hp1 hnot =>
      obtain ⟨r1, hr1, -, hl1⟩ := hp0.run runId r hr
      obtain ⟨r2, hr2, -, hl2⟩ := hp1.run runId r1 hr1
      rw [hr] at hr2; cases hr2
      exact absurd ((hl1.antisymm hl2).symm.trans hrun) (hnot r1 hr1)
    | finished _ _ _ c q _ _ _ hmv hadd => exact ⟨⟨_, by rw [hmv.run]; exact if_pos rfl, rfl⟩, hadd⟩
  · cases he
  · cases he

theorem alone_finishRun (now : DateTime) (h : Wf d) {runId : Uuid} {finish : RunFinish} {ids : Nat → Uuid}
    (hfin : finish.storable = true) (hids : NewIds d ids) {r : RunRow} (hr : d.run runId = some r)
    (hrun : r.status = .running) :
    ∃ d', alone (finishRun runId finish ids now) [] d = (.finished, d') ∧ Ended d' runId := by
  obtain ⟨d', hd', ⟨r', hr', hst⟩, -⟩ := alone_finishRun_stores now h hfin hids hr hrun
  exact ⟨d', hd', r', hr', by simp [hst]⟩

end alone

/-! ## process -/

variable {o : Outside} {w : Worker} {d : Db}

/-- What `interp` does is one of the interleavings of the store's calls. -/
theorem interp_run {s0 : Pg} {p : Process} {n : Nat}
    (h : Lib.ReadCommitted.Run body (fun _ _ => true) s0 ⟨d, o.now, ∅⟩) :
    Lib.ReadCommitted.Run body (fun _ _ => true) s0 ⟨interp o n p d, o.now, ∅⟩ := by
  induction p generalizing n d with
  | ret => exact h
  | act a next ih =>
    cases a with
    | store op =>
      have hcall := Lib.ReadCommitted.alone_run body (op.call o.tie o.ids) h
      simp only [interp]
      split
      · exact ih _ hcall
      · exact ih _ h
      · exact ih _ hcall
    | _ => exact ih _ h

theorem interp_persist (h : Wf d) {p : Process} {n : Nat} : Wf (interp o n p d) ∧ Persist d (interp o n p d) := by
  obtain ⟨hok, hpersist⟩ := run_storeSpec (Lib.ReadCommitted.quiet_ok h) (interp_run (o := o) (p := p) (n := n) .refl)
  exact ⟨hok.inv, hpersist⟩

theorem ended_of {runId : Uuid} {r : RunRow} (hr : d.run runId = some r) :
    Ended d runId ↔ r.status.isTerminal = true := by
  constructor
  · intro h
    obtain ⟨q, hq, ht⟩ := h
    rw [hr] at hq; cases hq
    exact ht
  · exact fun ht => ⟨r, hr, ht⟩

/-- The job that `process` gives to the runner. -/
def jobOf (campaignId runId : Uuid) (c : CampaignRow) (target : Target) : RunJob where
  runId := runId
  campaignId := campaignId
  fuzzTargetName := target.fuzzTargetName
  invariantIds := c.invariantIds
  timeBudgetSecs := (max c.timeBudgetSecs 0).toNat

/-- Every step of `process` works: the campaign loads, its target is in the manifest, the
    run starts, and `finish_run` works on an answer that Postgres stores. -/
structure Works (o : Outside) (w : Worker) (campaignId runId : Uuid) (c : CampaignRow) : Prop where
  loads : o.fate 0 = .ok
  target : (w.targets.get c.targetId).isSome = true
  starts : o.fate 1 = .ok
  stores : o.fate 2 ≠ .lost
  storable : ∀ target, w.targets.get c.targetId = some target →
    answerStorable target.fuzzTargetName (o.runner (jobOf campaignId runId c target)) = true

/-- A started run ends unless `finish_run` fails. -/
theorem finished_ended_iff (h : Wf d) (hids : NewIds d o.ids) (job : RunJob) {r : RunRow}
    (hr : d.run job.runId = some r) (hrun : r.status = .running) (answer : Except RunnerError RunResult) :
    Ended (interp o 2 (w.finished job answer) d) job.runId ↔
      o.fate 2 ≠ .lost ∧ answerStorable job.fuzzTargetName answer = true := by
  have hstays : ¬ Ended d job.runId := by simp [ended_of hr, hrun, RunStatus.isTerminal]
  rw [← w.finish_storable]
  cases hfin : (w.finish job.fuzzTargetName answer).storable with
  | true =>
    obtain ⟨d', hd', hended⟩ := alone_finishRun o.now h hfin hids hr hrun
    simp only [Worker.finished, interp, StoreOp.call, body, hd']
    cases o.fate 2 with
    | ok => simpa using hended
    | lost => simpa using hstays
    | unacked => simpa using hended
  | false =>
    simp only [Worker.finished, interp, StoreOp.call, body, alone_finishRun_refused o.now hfin]
    cases o.fate 2 <;> simpa using hstays

/-- A run whose campaign is loaded and has a target. -/
theorem startRun_ended_iff (h : Wf d) (hids : NewIds d o.ids) {campaignId runId : Uuid} {c : CampaignRow} {r : RunRow}
    (hr : d.run runId = some r) {campaign : CampaignRecord} (hinv : campaign.invariantIds = c.invariantIds)
    (hbudget : campaign.timeBudgetSecs = c.timeBudgetSecs) (target : Target) :
    Ended (interp o 1 (.act (.store (.startRun runId w.id)) fun reply =>
      w.started campaignId runId campaign target reply) d) runId ↔
      r.status.isTerminal = true ∨ (r.status = .pending ∧ o.fate 1 = .ok ∧ o.fate 2 ≠ .lost ∧
        answerStorable target.fuzzTargetName (o.runner (jobOf campaignId runId c target)) = true) := by
  obtain ⟨d', hd', hnot, hrunning, hfind⟩ := alone_startRun o.now h w.idStorable hr
  have hw' : Wf d' := alone_wf (c := .startRun runId w.id) h hd'
  have hids' : NewIds d' o.ids := hids.of_sub hfind
  simp only [interp, StoreOp.call, body, hd']
  by_cases hpend : r.status = .pending
  · obtain ⟨r', hr', hst⟩ := hrunning hpend
    cases hfate : o.fate 1 with
    | ok =>
      simp only [hpend, decide_true, Worker.started, interp, hinv, hbudget]
      refine (finished_ended_iff hw' hids' (jobOf campaignId runId c target) hr' hst _).trans ?_
      simp [RunStatus.isTerminal, jobOf]
    | lost => simp [Worker.started, interp, ended_of hr, hpend]
    | unacked => simp [Worker.started, interp, ended_of hr', hst, hpend, RunStatus.isTerminal]
  · rw [hnot hpend]
    cases o.fate 1 <;> simp [Worker.started, interp, ended_of hr, hpend]

theorem ended_iff (h : Wf d) (hids : NewIds d o.ids) {campaignId runId : Uuid} {c : CampaignRow} {r : RunRow}
    (hc : d.campaign campaignId = some c) (hr : d.run runId = some r) :
    Ended (interp o 0 (w.process campaignId runId) d) runId ↔
      r.status.isTerminal = true ∨ (r.status = .pending ∧ Works o w campaignId runId c) := by
  obtain ⟨row, hrow, htarget, hinv, hbudget⟩ := campaignWithRun_of h hc
  have hget : alone (getCampaign campaignId) [] d = (.campaign (some row), d) := by
    rw [← hrow]; rfl
  simp only [Worker.process, interp, StoreOp.call, body, hget]
  cases hfate : o.fate 0 with
  | ok =>
    simp only [Worker.loaded]
    rw [htarget]
    cases htgt : w.targets.get c.targetId with
    | none =>
      have hno : ¬ Works o w campaignId runId c := fun hw => by have := hw.target; rw [htgt] at this; cases this
      simp [interp, ended_of hr, hno]
    | some target =>
      have hworks : Works o w campaignId runId c ↔ o.fate 1 = .ok ∧ o.fate 2 ≠ .lost ∧
          answerStorable target.fuzzTargetName (o.runner (jobOf campaignId runId c target)) = true := by
        constructor
        · exact fun hw => ⟨hw.starts, hw.stores, hw.storable target htgt⟩
        · refine fun ⟨h1, h2, h3⟩ => ⟨hfate, by rw [htgt]; rfl, h1, h2, fun target' htgt' => ?_⟩
          rw [htgt] at htgt'
          cases htgt'
          exact h3
      simp only [startRun_ended_iff h hids hr hinv hbudget, hworks]
  | _ =>
    have hno : ¬ Works o w campaignId runId c := fun hw => by have := hw.loads; rw [hfate] at this; cases this
    simp [Worker.loaded, interp, ended_of hr, hno]

/-- What becomes of a claimed job: its run has ended, or the job can be claimed again. -/
def NotStranded (now : DateTime) (d : Db) (jobId runId : Uuid) : Prop := Ended d runId ∨ Reclaimable now d jobId

theorem process_not_reclaimable (h : Wf d) {jobId : Uuid} {j : JobRow} (hj : d.job jobId = some j)
    (hclaimed : j.claimedBy ≠ none) :
    ¬ Reclaimable o.now (interp o 0 (w.process j.campaignId j.runId) d) jobId := by
  obtain ⟨hw, hp⟩ := interp_persist h (o := o) (p := w.process j.campaignId j.runId) (n := 0)
  obtain ⟨j', hj', -, -, hstill⟩ := hp.job jobId j hj
  exact claimed_not_reclaimable hw hj' (hstill hclaimed)

theorem not_stranded_iff {o : Outside} {w : Worker} {s : Pg} (h : Reach s) (hids : NewIds s.db o.ids)
    {jobId : Uuid} {j : JobRow}
    {c : CampaignRow} {r : RunRow} (hj : Db.job s.db jobId = some j) (hclaimed : j.claimedBy ≠ none)
    (hc : Db.campaign s.db j.campaignId = some c) (hr : Db.run s.db j.runId = some r) :
    NotStranded o.now (interp o 0 (w.process j.campaignId j.runId) s.db) jobId j.runId ↔
      r.status.isTerminal = true ∨ (r.status = .pending ∧ Works o w j.campaignId j.runId c) := by
  have hwf := (pg_ok h).inv
  rw [NotStranded, ended_iff hwf hids hc hr]
  exact or_iff_left (process_not_reclaimable hwf hj hclaimed)

/-- Campaign 1 with run 2 and job 3, created; job 3 claimed. -/
def createAndClaim : List PgAct :=
  [.start 0 (.createCampaign 1 2 3 ⟨"token", "nightly", [], 60⟩), .exec 0, .exec 0, .exec 0, .exec 0, .commit 0,
    .start 1 (.claimJob id "worker-1-0"), .exec 1, .commit 1]

def claimedJob : JobRow := ⟨1, 2, some "worker-1-0", some 0, 1, 0⟩
def queuedCampaign : CampaignRow := ⟨"token", "nightly", [], 60, .queued, 0, 0⟩
def pendingRun : RunRow := ⟨1, .pending, 0, none, none, none, none⟩

theorem createAndClaim_reach : ∃ s, Reach s ∧ Db.job s.db 3 = some claimedJob ∧
    Db.campaign s.db 1 = some queuedCampaign ∧
    Db.run s.db 2 = some pendingRun ∧ Db.findings s.db = [] := by
  have h : (playAll init createAndClaim).any (fun s => Db.job s.db 3 = some claimedJob ∧
      Db.campaign s.db 1 = some queuedCampaign ∧ Db.run s.db 2 = some pendingRun ∧
        (Db.findings s.db).isEmpty) = true := by
    decide
  obtain ⟨s, hs⟩ := Option.isSome_iff_exists.mp (show (playAll init createAndClaim).isSome = true by decide)
  rw [hs] at h
  have h := of_decide_eq_true h
  exact ⟨s, playAll_reach hs, h.1, h.2.1, h.2.2.1, by simpa using h.2.2.2⟩

theorem newIds_of_empty {d : Db} (h : d.findings = []) : NewIds d id := by
  refine ⟨fun k => Option.eq_none_iff_forall_not_mem.mpr fun f hf => ?_, Function.injective_id⟩
  have := Db.mem_findings.mpr hf
  rw [h] at this; cases this

/-- Every call to the store works; the runner times out with nothing found. -/
def allWell : Outside := ⟨fun _ => .ok, 10, id, id, fun _ => .ok ⟨.completed, 1000, [], none⟩⟩

/-- The same worker, when the manifest no longer has the campaign's target. -/
def emptyWorker : Worker := { tokenWorker with targets := ⟨∅, []⟩ }

theorem not_stranded_all_well : ∃ s, Reach s ∧ Db.job s.db 3 = some claimedJob ∧
    NotStranded 10 (interp allWell 0 (tokenWorker.process 1 2) s.db) 3 2 := by
  obtain ⟨s, hs, hj, hc, hr, hf⟩ := createAndClaim_reach
  exact ⟨s, hs, hj, (not_stranded_iff hs (newIds_of_empty hf) hj (by simp [claimedJob]) hc hr).mpr
    (Or.inr ⟨rfl, ⟨rfl, rfl, rfl, by simp [allWell], fun _ _ => rfl⟩⟩)⟩

theorem stranded_unknown_target : ¬ ∀ (o : Outside) (w : Worker) (s : Pg), Reach s → NewIds s.db o.ids →
    ∀ jobId j, Db.job s.db jobId = some j → j.claimedBy ≠ none → (∃ c, Db.campaign s.db j.campaignId = some c) →
      NotStranded o.now (interp o 0 (w.process j.campaignId j.runId) s.db) jobId j.runId := by
  intro hall
  obtain ⟨s, hs, hj, hc, hr, hf⟩ := createAndClaim_reach
  have hwf := (pg_ok hs).inv
  have hgone : ¬ Works allWell emptyWorker 1 2 queuedCampaign := fun hw => by have := hw.target; cases this
  rcases hall allWell emptyWorker s hs (newIds_of_empty hf) 3 claimedJob hj (by simp [claimedJob])
    ⟨_, hc⟩ with hended | hre
  · rcases (ended_iff hwf (newIds_of_empty hf) hc hr).mp hended with ht | ⟨-, hw⟩
    · cases ht
    · exact hgone hw
  · exact process_not_reclaimable hwf hj (by simp [claimedJob]) hre

end SoroFuzz.Queue
