/-
  SoroFuzz.Store.Effect — what the commit of each of `PgStore`'s methods does to the
  committed rows.

  `Effect` says it method by method: `start_run` and `finish_run` with the guards their
  UPDATEs checked, `cancel_campaign` with none, since it checked its guard on a plain
  read. `ok` stands for whatever is known of the campaign status that `cancel_campaign`
  overwrites.

  Proved:
  - `effect_wf`: an effect keeps the tables well formed (`Wf`: a campaign and its one run
    mirror each other, a run has one job).
  - `effect_persist`: an effect only moves rows forward (`Persist`).
-/

import SoroFuzz.Lib.Keyed
import SoroFuzz.Store.Postgres

namespace SoroFuzz.Store

open Lib.ReadCommitted
open Lib.Sql

/-- Progress of a run: a later status never comes before an earlier one. -/
def RunStatus.rank : RunStatus → Nat
  | .pending => 0
  | .running => 1
  | .completed | .cancelled | .failed => 2

/-- What a run's status may become: it moves on, or is cancelled whatever it was. -/
def RunStatus.Leads (s t : RunStatus) : Prop := s = t ∨ s.rank < t.rank ∨ t = .cancelled

/-- The tables are well formed: every campaign has exactly one run, of its status, and
    every job and finding has its run. -/
structure Wf (d : Db) : Prop where
  mirror : ∀ i r c, d.run i = some r → d.campaign r.campaignId = some c → r.status = c.status.mirror
  runCampaign : ∀ i r, d.run i = some r → ∃ c, d.campaign r.campaignId = some c
  campaignRun : ∀ i c, d.campaign i = some c → ∃ j r, d.run j = some r ∧ r.campaignId = i
  runUnique : ∀ i j r q, d.run i = some r → d.run j = some q → r.campaignId = q.campaignId → i = j
  jobRun : ∀ i q, d.job i = some q → ∃ r, d.run q.runId = some r ∧ r.campaignId = q.campaignId
  jobUnique : ∀ i j p q, d.job i = some p → d.job j = some q → p.runId = q.runId → i = j
  findingRun : ∀ i f, d.finding i = some f → ∃ r, d.run f.runId = some r

/-- What no commit undoes. -/
structure Persist (d d' : Db) : Prop where
  campaign : ∀ i c, d.campaign i = some c → ∃ c', d'.campaign i = some c' ∧ c.status.mirror.Leads c'.status.mirror
  run : ∀ i r, d.run i = some r → ∃ r', d'.run i = some r' ∧ r'.campaignId = r.campaignId ∧ r.status.Leads r'.status
  job : ∀ i j, d.job i = some j → ∃ j', d'.job i = some j' ∧ j'.runId = j.runId ∧ j'.campaignId = j.campaignId ∧
    (j.claimedBy ≠ none → j'.claimedBy ≠ none)

/-- One campaign and one run get new versions; no other campaign, run or job changes. -/
structure Moved (d d' : Db) (campaignId runId : Uuid) (c : CampaignRow) (r : RunRow) : Prop where
  campaign : ∀ i, d'.campaign i = if i = campaignId then some c else d.campaign i
  run : ∀ i, d'.run i = if i = runId then some r else d.run i
  job : ∀ i, d'.job i = d.job i

/-- `fs` was inserted for `runId` under the ids `ids 0`, `ids 1`, ..., all of them new;
    no other finding changes. -/
structure Added (d d' : Db) (runId : Uuid) (fs : List NewFinding) (ids : Nat → Uuid) (b : DateTime) : Prop where
  fresh : ∀ k < fs.length, d.finding (ids k) = none
  distinct : ∀ j < fs.length, ∀ k < fs.length, ids j = ids k → j = k
  new : ∀ k f, fs[k]? = some f → d'.finding (ids k) = some ⟨runId, f, b⟩
  other : ∀ i, (∀ k < fs.length, ids k ≠ i) → d'.finding i = d.finding i
  run : fs ≠ [] → ∃ r, d.run runId = some r

/-- No campaign, run or job changes. -/
structure Same (d d' : Db) : Prop where
  campaign : ∀ i, d'.campaign i = d.campaign i
  run : ∀ i, d'.run i = d.run i
  job : ∀ i, d'.job i = d.job i

/-- What the commit of a call that returns a reply does to the rows committed before
    it. `ok` holds of the campaign status that `cancel_campaign` overwrites; the call
    began at `b`, on the rows `d0`. -/
inductive Effect (ok : CampaignStatus → Prop) (b : DateTime) (d0 : Db) : Call → Reply → Db → Db → Prop
  | created {d : Db} (campaignId runId jobId : Uuid) (input : NewCampaign) (row : CampaignRecord) :
      d.campaign campaignId = none → d.run runId = none → d.job jobId = none →
      Effect ok b d0 (.createCampaign campaignId runId jobId input) (.created row) d
        (((d.insert (.campaigns campaignId) ⟨input.targetId, input.name, input.invariantIds, input.timeBudgetSecs,
          .queued, b, b⟩).insert
            (.runs runId) ⟨campaignId, .pending, 0, none, none, none, none⟩).insert
          (.jobQueue jobId) ⟨campaignId, runId, none, none, 0, b⟩)
  | got {d : Db} (id : Uuid) (row : Option CampaignRecord) : Effect ok b d0 (.getCampaign id) (.campaign row) d d
  /-- The campaign was terminal when it was read. -/
  | cancelNoop {d : Db} (id : Uuid) (row : CampaignRecord) (c : CampaignRow) : row.status.isTerminal = true →
      d.campaign id = some c → row.status.mirror.Leads c.status.mirror →
      Effect ok b d0 (.cancelCampaign id) (.campaign (some row)) d d
  /-- The campaign was not terminal when it was read; nothing is said of its status now. -/
  | cancelled {d d' : Db} (id runId : Uuid) (row : CampaignRecord) (c : CampaignRow) (r : RunRow) :
      row.status = .cancelled → d.campaign id = some c → ok c.status → d.run runId = some r → r.campaignId = id →
      Moved d d' id runId { c with status := .cancelled, updatedAt := b }
        { r with status := .cancelled, finishedAt := some b } →
      (∀ i, d'.finding i = d.finding i) → Effect ok b d0 (.cancelCampaign id) (.campaign (some row)) d d'
  | claimedNone {d : Db} (tie : Uuid → Nat) (workerId : String) :
      Effect ok b d0 (.claimJob tie workerId) (.claimed none) d d
  | claimed {d : Db} (tie : Uuid → Nat) (workerId : String) (id : Uuid) (j : JobRow) :
      d.job id = some j → j.claimedBy = none →
      Effect ok b d0 (.claimJob tie workerId) (.claimed (some ⟨id, j.campaignId, j.runId, j.attempts + 1⟩)) d
        (d.insert (.jobQueue id) { j with claimedBy := some workerId, claimedAt := some b, attempts := j.attempts + 1 })
  /-- The run was not pending when its UPDATE ran. -/
  | startedNot {d : Db} (d1 : Db) (runId : Uuid) (workerId : String) : Persist d0 d1 → Persist d1 d →
      (∀ r, d1.run runId = some r → r.status ≠ .pending) →
      Effect ok b d0 (.startRun runId workerId) (.started false) d d
  | started {d d' : Db} (runId : Uuid) (workerId : String) (c : CampaignRow) (r : RunRow) :
      d.run runId = some r → r.status = .pending → d.campaign r.campaignId = some c → c.status = .queued →
      Moved d d' r.campaignId runId { c with status := .running, updatedAt := b }
        { r with status := .running, startedAt := some b, worker := some workerId } →
      (∀ i f, d'.finding i = some f → d.finding i = some f) →
      (∀ i f, d.finding i = some f → f.runId ≠ runId → d'.finding i = some f) →
      Effect ok b d0 (.startRun runId workerId) (.started true) d d'
  /-- The run was not running when its UPDATE ran: only the findings are stored. -/
  | finishedNot {d d' : Db} (d1 : Db) (runId : Uuid) (finish : RunFinish) (ids : Nat → Uuid) :
      Persist d0 d1 → Persist d1 d → (∀ r, d1.run runId = some r → r.status ≠ .running) → Same d d' →
        Added d d' runId finish.findings ids b → Effect ok b d0 (.finishRun runId finish ids) .finished d d'
  | finished {d d' : Db} (runId : Uuid) (finish : RunFinish) (ids : Nat → Uuid) (c : CampaignRow) (r : RunRow) :
      d.run runId = some r → r.status = .running → d.campaign r.campaignId = some c →
      Moved d d' r.campaignId runId { c with status := finish.status.campaignStatus, updatedAt := b }
        { r with status := finish.status.runStatus, iterations := finish.iterations, logTail := finish.logTail,
                 finishedAt := some b } →
      Added d d' runId finish.findings ids b → Effect ok b d0 (.finishRun runId finish ids) .finished d d'

/-! ## Effects keep the tables well formed -/

namespace RunStatus

@[refl] theorem Leads.refl (s : RunStatus) : s.Leads s := Or.inl rfl

theorem Leads.trans {s t u : RunStatus} (h : s.Leads t) (h' : t.Leads u) : s.Leads u := by
  cases s <;> cases t <;> cases u <;> simp_all [Leads, rank]

theorem Leads.antisymm {s t : RunStatus} (h : s.Leads t) (h' : t.Leads s) : s = t := by
  cases s <;> cases t <;> simp_all [Leads, rank]

theorem Leads.isTerminal {s t : RunStatus} (h : s.Leads t) (hs : s.isTerminal = true) : t.isTerminal = true := by
  cases s <;> cases t <;> simp_all [Leads, rank, RunStatus.isTerminal]

theorem leads_cancelled (s : RunStatus) : s.Leads .cancelled := Or.inr (Or.inr rfl)

end RunStatus

theorem Persist.refl (d : Db) : Persist d d :=
  ⟨fun _ c h => ⟨c, h, .refl _⟩, fun _ r h => ⟨r, h, rfl, .refl _⟩, fun _ j h => ⟨j, h, rfl, rfl, id⟩⟩

theorem Persist.trans {d d' d'' : Db} (h : Persist d d') (h' : Persist d' d'') : Persist d d'' := by
  refine ⟨fun i c hc => ?_, fun i r hr => ?_, fun i j hj => ?_⟩
  · obtain ⟨c1, h1, l1⟩ := h.campaign i c hc
    obtain ⟨c2, h2, l2⟩ := h'.campaign i c1 h1
    exact ⟨c2, h2, l1.trans l2⟩
  · obtain ⟨r1, h1, e1, l1⟩ := h.run i r hr
    obtain ⟨r2, h2, e2, l2⟩ := h'.run i r1 h1
    exact ⟨r2, h2, e2.trans e1, l1.trans l2⟩
  · obtain ⟨j1, h1, e1, f1, l1⟩ := h.job i j hj
    obtain ⟨j2, h2, e2, f2, l2⟩ := h'.job i j1 h1
    exact ⟨j2, h2, e2.trans e1, f2.trans f1, fun hn => l2 (l1 hn)⟩

section moved
variable {d d' : Db} {i j : Uuid} {c c' : CampaignRow} {r r' : RunRow}

/-- The runs are the same, each of the same campaign. -/
theorem Moved.run_before (hmv : Moved d d' i j c' r') (hr : d.run j = some r) (hi : r'.campaignId = r.campaignId)
    {k : Uuid} {q : RunRow} (hq : d'.run k = some q) : ∃ q0, d.run k = some q0 ∧ q0.campaignId = q.campaignId := by
  rw [hmv.run] at hq
  split at hq
  · rename_i e; cases hq; exact ⟨r, e ▸ hr, hi.symm⟩
  · exact ⟨q, hq, rfl⟩

theorem Moved.run_after (hmv : Moved d d' i j c' r') (hr : d.run j = some r) (hi : r'.campaignId = r.campaignId)
    {k : Uuid} {q : RunRow} (hq : d.run k = some q) : ∃ q', d'.run k = some q' ∧ q'.campaignId = q.campaignId := by
  rw [hmv.run]
  split
  · rename_i e; subst e; rw [hr] at hq; cases hq; exact ⟨r', rfl, hi⟩
  · exact ⟨q, hq, rfl⟩

/-- Moving a campaign and its run to mirrored statuses keeps the tables well formed. -/
theorem wf_moved (h : Wf d) (hmv : Moved d d' i j c' r') (hc : d.campaign i = some c) (hr : d.run j = some r)
    (hi : r.campaignId = i) (hi' : r'.campaignId = r.campaignId) (hm : r'.status = c'.status.mirror)
    (hf : ∀ k f, d'.finding k = some f → d.finding k = some f ∨ f.runId = j) : Wf d' where
  mirror k q e hq he := by
    rw [hmv.run] at hq
    rw [hmv.campaign] at he
    split at hq
    · cases hq
      rw [if_pos (hi'.trans hi)] at he
      cases he
      exact hm
    · rename_i hk
      have hne : q.campaignId ≠ i := fun e' => hk (h.runUnique k j q r hq hr (e'.trans hi.symm))
      rw [if_neg hne] at he
      exact h.mirror k q e hq he
  runCampaign k q hq := by
    obtain ⟨q0, hq0, hcid⟩ := hmv.run_before hr hi' hq
    obtain ⟨e, he⟩ := h.runCampaign k q0 hq0
    rw [hmv.campaign, ← hcid]
    split
    · exact ⟨c', rfl⟩
    · exact ⟨e, he⟩
  campaignRun k e he := by
    have he0 : ∃ e0, d.campaign k = some e0 := by
      rw [hmv.campaign] at he
      split at he
      · rename_i hk; exact ⟨c, hk ▸ hc⟩
      · exact ⟨e, he⟩
    obtain ⟨e0, he0⟩ := he0
    obtain ⟨m, q, hq, hqk⟩ := h.campaignRun k e0 he0
    obtain ⟨q', hq', hcid⟩ := hmv.run_after hr hi' hq
    exact ⟨m, q', hq', hcid.trans hqk⟩
  runUnique k m q p hq hp hqp := by
    obtain ⟨q0, hq0, e0⟩ := hmv.run_before hr hi' hq
    obtain ⟨p0, hp0, e1⟩ := hmv.run_before hr hi' hp
    exact h.runUnique k m q0 p0 hq0 hp0 (e0.trans (hqp.trans e1.symm))
  jobRun k q hq := by
    rw [hmv.job] at hq
    obtain ⟨p, hp, hpc⟩ := h.jobRun k q hq
    obtain ⟨p', hp', hpc'⟩ := hmv.run_after hr hi' hp
    exact ⟨p', hp', hpc'.trans hpc⟩
  jobUnique k m p q hp hq := by
    rw [hmv.job] at hp hq
    exact h.jobUnique k m p q hp hq
  findingRun k f hk := by
    rcases hf k f hk with hk | hk
    · obtain ⟨q, hq⟩ := h.findingRun k f hk
      obtain ⟨q', hq', -⟩ := hmv.run_after hr hi' hq
      exact ⟨q', hq'⟩
    · rw [hk, hmv.run, if_pos rfl]
      exact ⟨r', rfl⟩

theorem persist_moved (hmv : Moved d d' i j c' r') (hc : d.campaign i = some c) (hr : d.run j = some r)
    (hi : r'.campaignId = r.campaignId) (hlc : c.status.mirror.Leads c'.status.mirror)
    (hlr : r.status.Leads r'.status) : Persist d d' := by
  refine ⟨fun k e he => ?_, fun k q hq => ?_, fun k q hq => ⟨q, by rw [hmv.job]; exact hq, rfl, rfl, id⟩⟩
  · rw [hmv.campaign]
    split
    · rename_i hk; subst hk; rw [hc] at he; cases he; exact ⟨c', rfl, hlc⟩
    · exact ⟨e, he, RunStatus.Leads.refl _⟩
  · rw [hmv.run]
    split
    · rename_i hk; subst hk; rw [hr] at hq; cases hq; exact ⟨r', rfl, hi, hlr⟩
    · exact ⟨q, hq, rfl, RunStatus.Leads.refl _⟩

end moved

/-- An added finding is one of the run it was added for, or was there before. -/
theorem Added.cases {d d' : Db} {runId : Uuid} {fs : List NewFinding} {ids : Nat → Uuid} {b : DateTime}
    (h : Added d d' runId fs ids b) {i : Uuid} {f : FindingRow} (hf : d'.finding i = some f) :
    d.finding i = some f ∨ ∃ k, ∃ g, fs[k]? = some g ∧ i = ids k ∧ f = ⟨runId, g, b⟩ := by
  by_cases hk : ∃ k < fs.length, ids k = i
  · obtain ⟨k, hk, rfl⟩ := hk
    have hg := List.getElem?_eq_getElem hk
    rw [h.new k _ hg] at hf
    cases hf
    exact Or.inr ⟨k, _, hg, rfl, rfl⟩
  · left
    rw [← h.other i (fun k hlt e => hk ⟨k, hlt, e⟩)]
    exact hf

theorem wf_same {d d' : Db} (h : Wf d) (hs : Same d d')
    (hf : ∀ k f, d'.finding k = some f → d.finding k = some f ∨ ∃ r, d.run f.runId = some r) : Wf d' where
  mirror i r c := by rw [hs.run, hs.campaign]; exact h.mirror i r c
  runCampaign i r := by rw [hs.run, hs.campaign]; exact h.runCampaign i r
  campaignRun i c := by rw [hs.campaign]; simp only [hs.run]; exact h.campaignRun i c
  runUnique i j r q := by rw [hs.run, hs.run]; exact h.runUnique i j r q
  jobRun i q := by rw [hs.job, hs.run]; exact h.jobRun i q
  jobUnique i j p q := by rw [hs.job, hs.job]; exact h.jobUnique i j p q
  findingRun i f hi := by
    rw [hs.run]
    rcases hf i f hi with hi | hi
    · exact h.findingRun i f hi
    · exact hi

theorem persist_same {d d' : Db} (hs : Same d d') : Persist d d' :=
  ⟨fun i c hc => ⟨c, by rw [hs.campaign]; exact hc, RunStatus.Leads.refl _⟩,
    fun i r hr => ⟨r, by rw [hs.run]; exact hr, rfl, RunStatus.Leads.refl _⟩,
    fun i j hj => ⟨j, by rw [hs.job]; exact hj, rfl, rfl, id⟩⟩

/-- A new campaign comes with its run and its job. No run was of the campaign before, and
    no job of the run. -/
theorem wf_created {d : Db} (h : Wf d) {campaignId runId jobId : Uuid} (hc : d.campaign campaignId = none)
    (hr : d.run runId = none) {c : CampaignRow} {r : RunRow} {j : JobRow} (hm : r.status = c.status.mirror)
    (hrc : r.campaignId = campaignId) (hjr : j.runId = runId) (hjc : j.campaignId = campaignId) :
    Wf (((d.insert (.campaigns campaignId) c).insert (.runs runId) r).insert (.jobQueue jobId) j) := by
  have hnoRun : ∀ i q, d.run i = some q → q.campaignId ≠ campaignId := by
    intro i q hi e
    obtain ⟨c, hc'⟩ := h.runCampaign i q hi
    rw [e, hc] at hc'; cases hc'
  have hnoJob : ∀ i q, d.job i = some q → q.runId ≠ runId := by
    intro i q hi e
    obtain ⟨r, hr', -⟩ := h.jobRun i q hi
    rw [e, hr] at hr'; cases hr'
  subst hrc hjr
  generalize hd : ((d.insert (.campaigns r.campaignId) c).insert (.runs j.runId) r).insert (.jobQueue jobId) j = d'
  have hC : ∀ i, Db.campaign d' i = if i = r.campaignId then some c else d.campaign i := by simp [← hd]
  have hR : ∀ i, Db.run d' i = if i = j.runId then some r else d.run i := by simp [← hd]
  have hJ : ∀ i, Db.job d' i = if i = jobId then some j else d.job i := by simp [← hd]
  have hF : ∀ i, Db.finding d' i = d.finding i := by simp [← hd]
  constructor
  case mirror =>
    intro i q e hi he
    rw [hR] at hi
    rw [hC] at he
    split at hi
    · cases hi
      rw [if_pos rfl] at he
      cases he; exact hm
    · rw [if_neg (hnoRun i q hi)] at he
      exact h.mirror i q e hi he
  case runCampaign =>
    intro i q hi
    rw [hR] at hi
    rw [hC]
    split at hi
    · cases hi; exact ⟨c, if_pos rfl⟩
    · rw [if_neg (hnoRun i q hi)]; exact h.runCampaign i q hi
  case campaignRun =>
    intro i e hi
    rw [hC] at hi
    split at hi
    · rename_i e; exact ⟨j.runId, r, (hR _).trans (if_pos rfl), e.symm⟩
    · obtain ⟨k, q, hk, hq⟩ := h.campaignRun i e hi
      refine ⟨k, q, ?_, hq⟩
      rw [hR, if_neg (by intro e; rw [e, hr] at hk; cases hk)]
      exact hk
  case runUnique => exact Lib.Keyed.unique_insert h.runUnique hnoRun hR
  case jobRun =>
    intro i q hi
    rw [hJ] at hi
    simp only [hR]
    split at hi
    · cases hi; exact ⟨r, if_pos rfl, hjc.symm⟩
    · rw [if_neg (hnoJob i q hi)]; exact h.jobRun i q hi
  case jobUnique => exact Lib.Keyed.unique_insert h.jobUnique hnoJob hJ
  case findingRun =>
    intro i f hi
    rw [hF] at hi
    rw [hR]
    split
    · exact ⟨r, rfl⟩
    · exact h.findingRun i f hi

/-- A job's new version is of the same run. -/
theorem wf_job {d : Db} (h : Wf d) {id : Uuid} {j j' : JobRow} (hj : d.job id = some j) (hr : j'.runId = j.runId)
    (hc : j'.campaignId = j.campaignId) : Wf (d.insert (.jobQueue id) j') := by
  have hbefore : ∀ {i q}, Db.job (d.insert (.jobQueue id) j') i = some q →
      ∃ q0, d.job i = some q0 ∧ q0.runId = q.runId ∧ q0.campaignId = q.campaignId := by
    intro i q hi
    simp at hi
    split at hi
    · rename_i e; cases hi; exact ⟨j, e ▸ hj, hr.symm, hc.symm⟩
    · exact ⟨q, hi, rfl, rfl⟩
  constructor
  case mirror => simpa using h.mirror
  case runCampaign => simpa using h.runCampaign
  case campaignRun => simpa using h.campaignRun
  case runUnique => simpa using h.runUnique
  case jobRun =>
    intro i q hi
    obtain ⟨q0, hq0, er, ec⟩ := hbefore hi
    rw [← er, ← ec]
    simpa using h.jobRun i q0 hq0
  case jobUnique =>
    intro i k p q hi hk e
    obtain ⟨p0, hp0, ep, -⟩ := hbefore hi
    obtain ⟨q0, hq0, eq, -⟩ := hbefore hk
    exact h.jobUnique i k p0 q0 hp0 hq0 (ep.trans (e.trans eq.symm))
  case findingRun => simpa using h.findingRun

theorem effect_wf {ok : CampaignStatus → Prop} {b : DateTime} {d0 : Db} {c : Call} {r : Reply} {d d' : Db} (h : Wf d)
    (he : Effect ok b d0 c r d d') : Wf d' := by
  cases he with
  | created campaignId runId jobId input row hc hr _ => exact wf_created h hc hr rfl rfl rfl rfl
  | got | cancelNoop | claimedNone | startedNot => exact h
  | cancelled id runId row c r _ hc _ hr hi hmv hf =>
    exact wf_moved h hmv hc hr hi rfl rfl fun k f hk => Or.inl (by rw [← hf]; exact hk)
  | claimed tie workerId id j hj _ => exact wf_job h hj rfl rfl
  | started runId workerId c r hr _ hc _ hmv hf _ =>
    exact wf_moved h hmv hc hr rfl rfl rfl fun k f hk => Or.inl (hf k f hk)
  | finishedNot d1 runId finish ids _ _ _ hs ha =>
    refine wf_same h hs fun k f hk => ?_
    rcases ha.cases hk with hk | ⟨m, g, hg, -, rfl⟩
    · exact Or.inl hk
    · exact Or.inr (ha.run (by rintro e; rw [e] at hg; cases hg))
  | finished runId finish ids c r hr _ hc hmv ha =>
    refine wf_moved h hmv hc hr rfl rfl (by simp) fun k f hk => ?_
    rcases ha.cases hk with hk | ⟨m, g, -, -, rfl⟩
    · exact Or.inl hk
    · exact Or.inr rfl

theorem effect_persist {ok : CampaignStatus → Prop} {b : DateTime} {d0 : Db} {c : Call} {r : Reply} {d d' : Db}
    (h : Wf d) (he : Effect ok b d0 c r d d') : Persist d d' := by
  cases he with
  | created campaignId runId jobId input row hc hr hj =>
    refine ⟨fun i c hi => ⟨c, ?_, RunStatus.Leads.refl _⟩, fun i r hi => ⟨r, ?_, rfl, RunStatus.Leads.refl _⟩,
      fun i j hi => ⟨j, ?_, rfl, rfl, id⟩⟩
    · have hne : i ≠ campaignId := by rintro rfl; rw [hc] at hi; cases hi
      simpa [hne] using hi
    · have hne : i ≠ runId := by rintro rfl; rw [hr] at hi; cases hi
      simpa [hne] using hi
    · have hne : i ≠ jobId := by rintro rfl; rw [hj] at hi; cases hi
      simpa [hne] using hi
  | got | cancelNoop | claimedNone | startedNot => exact Persist.refl d
  | cancelled id runId row c r _ hc _ hr hi hmv hf =>
    exact persist_moved hmv hc hr rfl (RunStatus.leads_cancelled _) (RunStatus.leads_cancelled _)
  | claimed tie workerId id j hj _ =>
    refine ⟨fun i c hi => ⟨c, by simpa using hi, RunStatus.Leads.refl _⟩,
      fun i r hi => ⟨r, by simpa using hi, rfl, RunStatus.Leads.refl _⟩, fun i q hi => ?_⟩
    simp
    split
    · rename_i e; subst e; rw [hj] at hi; cases hi; exact ⟨_, rfl, rfl, rfl, fun _ => by simp⟩
    · exact ⟨q, hi, rfl, rfl, fun h => h⟩
  | started runId workerId c r hr hp hc hq hmv _ _ =>
    exact persist_moved hmv hc hr rfl (by simp [hq, CampaignStatus.mirror, RunStatus.Leads, RunStatus.rank])
      (by simp [hp, RunStatus.Leads, RunStatus.rank])
  | finishedNot d1 runId finish ids _ _ _ hs _ => exact persist_same hs
  | finished runId finish ids c r hr hrun hc hmv _ =>
    have hm := h.mirror runId r c hr hc
    have hle : ∀ s : RunFinishStatus, RunStatus.running.Leads s.runStatus := by
      intro s
      cases s <;> simp [RunFinishStatus.runStatus, RunStatus.Leads, RunStatus.rank]
    refine persist_moved hmv hc hr rfl ?_ ?_
    · rw [← hm, hrun]; simpa using hle finish.status
    · rw [hrun]; exact hle finish.status

end SoroFuzz.Store
