/-
  SoroFuzz.Queue.Turns — one of the store's transactions takes its turn (`InTurn`).

  In turn it does what it does alone, with nothing else in flight. `claim_job` passes over
  the jobs that another holds locked (SKIP LOCKED), so in turn it is told which those are:
  it takes the oldest of the others.

  Proved:
  - `effect_inTurn`: a commit of any other call leaves the rows that its call, alone on the
    rows committed before, would have left, and `start_run` and `finish_run` are answered
    the same.
  - `picked_inTurn`: what the statement of `claim_job` picks is in turn.
  - `claim_alone`: with nothing locked and no two jobs tied, `claim_job` too does in
    turn what it does alone.
-/

import SoroFuzz.Lib.Ahead
import SoroFuzz.Queue.Coherent
import SoroFuzz.Queue.Stranded

namespace SoroFuzz.Store

open Lib.ReadCommitted (Alike alone applyAll applyAll_nil lookup_applyAll_other)
open Lib.Sql (alone_insertRow alone_select alone_update binding_ok)

/-! ## In turn -/

def Call.claims : Call → Bool
  | .claimJob _ _ => true
  | .createCampaign _ _ _ _ | .getCampaign _ | .cancelCampaign _ | .startRun _ _ | .finishRun _ _ _ => false

/-- The calls whose answer says what was done. -/
def Call.reports : Call → Bool
  | .startRun _ _ | .finishRun _ _ _ => true
  | .createCampaign _ _ _ _ | .getCampaign _ | .cancelCampaign _ | .claimJob _ _ => false

/-- The call, begun at `b`, takes its turn on the rows `d`, of which others have locked
    `locked`. -/
inductive InTurn (b : DateTime) (locked : Key → Bool) (d : Db) : Call → Reply → Db → Prop
  | alone (c : Call) (r : Reply) (d' : Db) : c.claims = false → Alike d' (alone (body c b) [] d).2 →
      (c.reports = true → r = (alone (body c b) [] d).1) → InTurn b locked d c r d'
  | claimedNone (tie : Uuid → Nat) (workerId : String) (d' : Db) : storable workerId = true →
      claimable ⟨d, locked⟩ = [] → Alike d' d → InTurn b locked d (.claimJob tie workerId) (.claimed none) d'
  | claimed (tie : Uuid → Nat) (workerId : String) (id : Uuid) (j : JobRow) (d' : Db) : storable workerId = true →
      (id, j) ∈ claimable ⟨d, locked⟩ → (∀ e ∈ claimable ⟨d, locked⟩, older tie e (id, j) = false) →
      Alike d' (d.insert (.jobQueue id) (j.claim workerId b)) →
      InTurn b locked d (.claimJob tie workerId) (.claimed (some ⟨id, j.campaignId, j.runId, j.attempts + 1⟩)) d'

/-- In whatever order the rows are kept that it leaves. -/
theorem InTurn.alike {b : DateTime} {locked : Key → Bool} {d d' d'' : Db} {c : Call} {r : Reply}
    (h : InTurn b locked d c r d') (ha : Alike d'' d') : InTurn b locked d c r d'' := by
  cases h with
  | alone _ _ _ hc hd hr => exact .alone _ _ _ hc (ha.trans hd) hr
  | claimedNone tie workerId _ hid hnone hd => exact .claimedNone tie workerId _ hid hnone (ha.trans hd)
  | claimed tie workerId id j _ hid hm hold hd => exact .claimed tie workerId id j _ hid hm hold (ha.trans hd)

/-! ## claim_job, in turn -/

section claim
variable {tie : Uuid → Nat} {locked : Key → Bool} {d : Db}

/-- It takes its turn on any rows in which the same jobs are claimable. -/
theorem picked_inTurn {rows : Db} {workerId : String} {b : DateTime} {l : Sql} {writes : View → List Write}
    {next : View → Program} (h : claimJob tie workerId b = .stmt l writes next)
    (hsame : ∀ e, e ∈ claimable ⟨d, locked⟩ ↔ e ∈ claimable ⟨rows, locked⟩) {r : Reply}
    (hr : next ⟨rows, locked⟩ = .commit r) :
    InTurn b locked d (.claimJob tie workerId) r (applyAll (writes ⟨rows, locked⟩) d) := by
  obtain ⟨hid, ⟨hnil, hw, hn⟩ | ⟨id, j, ho, hw, hn⟩⟩ := claimJob_stmt h ⟨rows, locked⟩
  · rw [hn] at hr
    cases hr
    rw [hw]
    refine .claimedNone _ _ _ hid (List.eq_nil_iff_forall_not_mem.mpr fun e he => ?_) (.refl d)
    rw [hsame, hnil] at he
    cases he
  · rw [hn] at hr
    cases hr
    rw [hw]
    refine .claimed _ _ id j _ hid ((hsame _).mpr (oldest_mem ho)) (fun e he => ?_) (.refl _)
    exact oldest_least ho e ((hsame e).mp he)

/-- With nothing locked and no two jobs tied, `claim_job` too does what it does alone. -/
theorem claim_alone {workerId : String} {b : DateTime} {r : Reply} {d' : Db} (hinj : Function.Injective tie)
    (h : InTurn b (fun _ => false) d (.claimJob tie workerId) r d') :
    r = (alone (body (.claimJob tie workerId) b) [] d).1 ∧
      Alike d' (alone (body (.claimJob tie workerId) b) [] d).2 := by
  cases h with
  | alone _ _ _ hc => cases hc
  | claimedNone _ _ _ hid hnil hd =>
    have halone := alone_claimJob_none hid b (show oldest tie (claimable ⟨d, fun _ => false⟩) = none by rw [hnil]; rfl)
    rw [body, halone]
    exact ⟨rfl, hd⟩
  | claimed _ _ id j _ hid hm hleast hd =>
    have hold : oldest tie (claimable ⟨d, fun _ => false⟩) = some (id, j) := by
      refine oldest_eq hm fun e he => ?_
      obtain ⟨i, q⟩ := e
      by_cases hi : i = id
      · subst hi
        have hq := (mem_claimable.mp he).1
        rw [(mem_claimable.mp hm).1] at hq
        cases hq
        exact Or.inl rfl
      · have hnot := hleast _ he
        have hne : tie i ≠ tie id := fun h => hi (hinj h)
        simp only [older, decide_eq_true_eq, decide_eq_false_iff_not] at hnot ⊢
        grind
    rw [body, alone_claimJob_some hid b hold]
    exact ⟨rfl, hd⟩

end claim

/-! ## The same rows -/

section alike
variable {d d1 d2 : Db}

theorem alike_of (hc : ∀ i, d1.campaign i = d2.campaign i) (hr : ∀ i, d1.run i = d2.run i)
    (hj : ∀ i, d1.job i = d2.job i) (hf : ∀ i, d1.finding i = d2.finding i) : Alike d1 d2 := by
  intro k
  cases k with
  | campaigns i => exact hc i
  | runs i => exact hr i
  | findings i => exact hf i
  | jobQueue i => exact hj i

theorem Moved.alike {i j : Uuid} {c : CampaignRow} {r : RunRow} (h1 : Moved d d1 i j c r) (h2 : Moved d d2 i j c r)
    (hf : ∀ i, d1.finding i = d2.finding i) : Alike d1 d2 := by
  refine alike_of (fun k => ?_) (fun k => ?_) (fun k => ?_) hf
  · rw [h1.campaign, h2.campaign]
  · rw [h1.run, h2.run]
  · rw [h1.job, h2.job]

theorem Added.finding_eq {runId : Uuid} {fs : List NewFinding} {ids : Nat → Uuid} {b : DateTime}
    (h1 : Added d d1 runId fs ids b) (h2 : Added d d2 runId fs ids b) (i : Uuid) : d1.finding i = d2.finding i := by
  by_cases hi : ∃ k < fs.length, ids k = i
  · obtain ⟨k, hk, rfl⟩ := hi
    obtain ⟨f, hget⟩ : ∃ f, fs[k]? = some f := ⟨_, List.getElem?_eq_getElem hk⟩
    rw [h1.new k _ hget, h2.new k _ hget]
  · have hnot : ∀ k < fs.length, ids k ≠ i := fun k hk he => hi ⟨k, hk, he⟩
    rw [h1.other i hnot, h2.other i hnot]

end alike

/-! ## The calls, alone -/

section alone
variable {d : Db} {now : DateTime}

/-- A call that is not refused has its effect. -/
theorem alone_effect (h : Wf d) {c : Call} {reply : Reply} (hr : (alone (body c now) [] d).1 = reply)
    (hne : reply ≠ .error) (hnone : reply ≠ .campaign none) :
    Effect (fun _ => True) now d c reply d (alone (body c now) [] d).2 := by
  rcases Queue.alone_body now h c with ⟨-, -, he⟩ | ⟨-, he | he⟩
  · rwa [hr] at he
  · exact absurd (hr.symm.trans he) hne
  · exact absurd (hr.symm.trans he) hnone

/-- What `create_campaign` inserts. -/
def createdRows (campaignId runId jobId : Uuid) (input : NewCampaign) (now : DateTime) : List Write :=
  [⟨.campaigns campaignId, some ⟨input.targetId, input.name, input.invariantIds, input.timeBudgetSecs, .queued, now,
    now⟩⟩, ⟨.runs runId, some ⟨campaignId, .pending, 0, none, none, none, none⟩⟩,
    ⟨.jobQueue jobId, some ⟨campaignId, runId, none, none, 0, now⟩⟩]

theorem alone_createCampaign (now : DateTime) (h : Wf d) {campaignId runId jobId : Uuid} {input : NewCampaign}
    (hinput : input.storable = true) (hc : d.campaign campaignId = none) (hr : d.run runId = none)
    (hj : d.job jobId = none) :
    ∃ row, alone (createCampaign campaignId runId jobId input now) [] d =
      (.created row, applyAll (createdRows campaignId runId jobId input now) d) := by
  let record : CampaignRecord :=
    ⟨campaignId, input.targetId, input.name, input.invariantIds, input.timeBudgetSecs, .queued, runId, now⟩
  have heffect : Effect (fun _ => True) now d (.createCampaign campaignId runId jobId input) (.created record) d
      (applyAll (createdRows campaignId runId jobId input now) d) := .created _ _ _ _ _ hc hr hj
  have hwf : Wf (applyAll (createdRows campaignId runId jobId input now) d) := effect_wf h heffect
  have hcampaign : Db.campaign (applyAll (createdRows campaignId runId jobId input now) d) campaignId =
      some ⟨input.targetId, input.name, input.invariantIds, input.timeBudgetSecs, .queued, now, now⟩ := by
    simp [createdRows]
  obtain ⟨row, hrow, -⟩ := Queue.campaignWithRun_of hwf hcampaign
  have hany : ((Db.runs (d.insert (.campaigns campaignId) ⟨input.targetId, input.name, input.invariantIds,
      input.timeBudgetSecs, .queued, now, now⟩)).any fun r => r.2.campaignId = campaignId) = false := by
    rw [List.any_eq_false]
    intro e he
    obtain ⟨i, r⟩ := e
    have hi : d.run i = some r := by simpa [Db.mem_runs] using he
    obtain ⟨c, hci⟩ := h.runCampaign i r hi
    rw [decide_eq_true_iff]
    intro hid
    rw [hid, hc] at hci
    cases hci
  refine ⟨row, (alone_insertRow ?_ (by simp [hinput])).trans ((alone_insertRow ?_ hany).trans
    ((alone_insertRow ?_ rfl).trans (alone_select.trans ?_)))⟩
  · exact hc
  · exact (lookup_applyAll_other _ _ (by simp)).trans hr
  · exact (lookup_applyAll_other _ _ (by simp)).trans hj
  · split
    · rename_i row' heq
      cases hrow.symm.trans heq
      rfl
    · rename_i heq
      cases hrow.symm.trans heq

/-- The campaign's record, with the campaign's status. -/
theorem record_of (h : Wf d) {id : Uuid} {c : CampaignRow} (hc : d.campaign id = some c) :
    ∃ row, campaignWithRun d id = some row ∧ row.status = c.status := by
  obtain ⟨row, hrow, -⟩ := Queue.campaignWithRun_of h hc
  obtain ⟨c', hc', hst⟩ := campaignWithRun_some hrow
  rw [hc] at hc'
  cases hc'
  exact ⟨row, hrow, hst.symm⟩

theorem alone_cancelCampaign_ended (h : Wf d) {id : Uuid} {c : CampaignRow} (hc : d.campaign id = some c)
    (hended : c.status.isTerminal = true) : (alone (cancelCampaign id now) [] d).2 = d := by
  obtain ⟨row, hrow, hst⟩ := record_of h hc
  rw [cancelCampaign, alone_select, applyAll_nil, hrow]
  dsimp only
  rw [if_pos (by rw [hst]; exact hended)]
  rfl

theorem alone_cancelCampaign_live (now : DateTime) (h : Wf d) {id : Uuid} {c : CampaignRow}
    (hc : d.campaign id = some c) (hlive : c.status.isTerminal = false) :
    ∃ row, (alone (cancelCampaign id now) [] d).1 = .campaign (some row) ∧ row.status = .cancelled := by
  obtain ⟨row, hrow, hst⟩ := record_of h hc
  rw [cancelCampaign, alone_select, applyAll_nil, hrow]
  dsimp only
  rw [if_neg (by rw [hst, hlive]; simp)]
  exact ⟨{ row with status := .cancelled }, rfl, rfl⟩

end alone

/-! ## A commit -/

section turn
variable {b : DateTime} {locked : Key → Bool} {d0 d d' : Db} {cs : List Commit} {c : Call} {r : Reply} {runId : Uuid}

/-- A status that a row had between two others that are the same. -/
theorem status_between {d1 : Db} (h0 : Persist d d1) (h1 : Persist d1 d) {q : RunRow} (hq : d.run runId = some q) :
    ∃ q1, d1.run runId = some q1 ∧ q1.status = q.status := by
  obtain ⟨q1, hq1, -, hl1⟩ := h0.run runId q hq
  obtain ⟨q2, hq2, -, hl2⟩ := h1.run runId q1 hq1
  rw [hq] at hq2
  cases hq2
  exact ⟨q1, hq1, hl2.antisymm hl1⟩

theorem started_inTurn (hw : Wf d) (hh : History d cs) {workerId : String} (hid : storable workerId = true)
    {e : CampaignRow} {q : RunRow} (hq : d.run runId = some q) (hpend : q.status = .pending)
    (he : d.campaign q.campaignId = some e)
    (hmv : Moved d d' q.campaignId runId { e with status := .running, updatedAt := b }
      { q with status := .running, startedAt := some b, worker := some workerId })
    (hsub : ∀ i f, d'.finding i = some f → d.finding i = some f)
    (hkeep : ∀ i f, d.finding i = some f → f.runId ≠ runId → d'.finding i = some f) :
    InTurn b locked d (.startRun runId workerId) (.started true) d' := by
  -- Nothing was found in a run that has not been started.
  have hnone : ∀ i f, d.finding i = some f → f.runId ≠ runId := by
    rintro i f hf rfl
    obtain ⟨g, hg⟩ := hh.findings i f hf
    obtain ⟨q', hq', hst⟩ := hh.finished f.runId g hg
    rw [hq] at hq'
    cases hq'
    rcases hst with hst | hst
    · cases hs : g.status <;> rw [hpend, hs] at hst <;> cases hst
    · rw [hpend] at hst
      cases hst
  have hsame : ∀ {d1 : Db}, (∀ i f, d1.finding i = some f → d.finding i = some f) →
      (∀ i f, d.finding i = some f → f.runId ≠ runId → d1.finding i = some f) →
        ∀ i, d1.finding i = d.finding i := by
    intro d1 hsub hkeep i
    cases hf : d.finding i with
    | some f => exact hkeep i f hf (hnone i f hf)
    | none =>
      by_contra hne
      obtain ⟨f, hf1⟩ := Option.ne_none_iff_exists'.mp hne
      rw [hsub i f hf1] at hf
      cases hf
  obtain ⟨d1, halone, -⟩ := Queue.alone_startRun b hw hid hq
  have hreply : (alone (body (.startRun runId workerId) b) [] d).1 = .started true := by
    show (alone (startRun runId workerId b) [] d).1 = _
    rw [halone]
    simp [hpend]
  refine .alone _ _ _ rfl ?_ fun _ => hreply.symm
  cases alone_effect hw hreply (by simp) (by simp) with
  | started _ _ e' q' hq' _ he' _ hmv' hsub' hkeep' =>
    rw [hq] at hq'
    cases hq'
    rw [he] at he'
    cases he'
    exact hmv.alike hmv' fun i => (hsame hsub hkeep i).trans (hsame hsub' hkeep' i).symm

theorem startedNot_inTurn (hw : Wf d) {d1 : Db} {workerId : String} (hid : storable workerId = true)
    (h0 : Persist d0 d1) (h1 : Persist d1 d)
    (hnot : ∀ q, d1.run runId = some q → q.status ≠ .pending) {q0 : RunRow} (hq0 : d0.run runId = some q0) :
    InTurn b locked d (.startRun runId workerId) (.started false) d := by
  obtain ⟨q1, hq1, -⟩ := h0.run runId q0 hq0
  obtain ⟨q, hq, -, hl⟩ := h1.run runId q1 hq1
  have hne : q.status ≠ .pending := leads_not_pending (hnot q1 hq1) hl
  obtain ⟨d2, halone, hsame, -⟩ := Queue.alone_startRun b hw hid hq
  have hbody : alone (body (.startRun runId workerId) b) [] d = (.started false, d) := by
    show alone (startRun runId workerId b) [] d = _
    rw [halone, hsame hne]
    simp [hne]
  exact .alone _ _ _ rfl (by rw [hbody]) fun _ => by rw [hbody]

theorem finish_inTurn (hw : Wf d) {finish : RunFinish} (hfin : finish.storable = true) {ids : Nat → Uuid}
    {q : RunRow} (hq : d.run runId = some q)
    (hadd : Added d d' runId finish.findings ids b)
    (hrun : ∀ e, q.status = .running → d.campaign q.campaignId = some e →
      Moved d d' q.campaignId runId { e with status := finish.status.campaignStatus, updatedAt := b }
        { q with status := finish.status.runStatus, iterations := finish.iterations, logTail := finish.logTail,
                 finishedAt := some b })
    (hstay : q.status ≠ .running → Same d d') :
    InTurn b locked d (.finishRun runId finish ids) .finished d' := by
  have hreply : (alone (body (.finishRun runId finish ids) b) [] d).1 = .finished :=
    Queue.alone_finishRun_finished b hw hfin hq hadd.fresh hadd.distinct
  refine .alone _ _ _ rfl ?_ fun _ => hreply.symm
  cases alone_effect hw hreply (by simp) (by simp) with
  | finished _ _ _ e q' hq' hr he hmv' hadd' =>
    rw [hq] at hq'
    cases hq'
    exact (hrun e hr he).alike hmv' (hadd.finding_eq hadd')
  | finishedNot d1 _ _ _ h0 h1 hnot hs hadd' =>
    obtain ⟨q1, hq1, hst⟩ := status_between h0 h1 hq
    have hsame := hstay (hst ▸ hnot q1 hq1)
    refine alike_of (fun i => ?_) (fun i => ?_) (fun i => ?_) (hadd.finding_eq hadd')
    · rw [hsame.campaign, hs.campaign]
    · rw [hsame.run, hs.run]
    · rw [hsame.job, hs.job]

theorem cancelled_inTurn (hw : Wf d) {id : Uuid} {row : CampaignRecord} {e : CampaignRow} {q : RunRow}
    (he : d.campaign id = some e) (hlive : e.status.isTerminal = false) (hq : d.run runId = some q)
    (hid : q.campaignId = id)
    (hmv : Moved d d' id runId { e with status := .cancelled, updatedAt := b }
      { q with status := .cancelled, finishedAt := some b })
    (hf : ∀ i, d'.finding i = d.finding i) :
    InTurn b locked d (.cancelCampaign id) (.campaign (some row)) d' := by
  obtain ⟨row', hreply, hst⟩ := alone_cancelCampaign_live b hw he hlive
  have hbody : (alone (body (.cancelCampaign id) b) [] d).1 = .campaign (some row') := hreply
  refine .alone _ _ _ rfl ?_ fun h => by cases h
  have heffect := alone_effect hw hbody (by simp) (by simp)
  generalize (alone (body (.cancelCampaign id) b) [] d).2 = d2 at heffect ⊢
  cases heffect with
  | cancelNoop _ _ e' _ he' hl =>
    rw [he] at he'
    cases he'
    have hended : e.status.mirror.isTerminal = true := hl.isTerminal (by rw [hst]; rfl)
    cases hs : e.status <;>
      simp_all [CampaignStatus.mirror, RunStatus.isTerminal, CampaignStatus.isTerminal]
  | cancelled _ runId' _ e' q' _ he' _ hq' hid' hmv' hf' =>
    rw [he] at he'
    cases he'
    obtain rfl := hw.runUnique _ _ q' q hq' hq (hid'.trans hid.symm)
    rw [hq] at hq'
    cases hq'
    exact hmv.alike hmv' fun i => (hf i).trans (hf' i).symm

/-- A commit leaves the rows as its call would alone, unless it claims a job. -/
theorem effect_inTurn (hw : Wf d) (hh : History d cs) (hclaims : c.claims = false) (hstored : c.storable = true)
    (hstart : ∀ runId workerId, c = .startRun runId workerId → ∃ q, d0.run runId = some q)
    (hfinish : ∀ runId f ids, c = .finishRun runId f ids → ∃ q, d0.run runId = some q ∧ q.status ≠ .pending)
    (he : Effect (fun st => st.isTerminal = false) b d0 c r d d') : InTurn b locked d c r d' := by
  cases he with
  | created campaignId runId jobId input row hc hr hj =>
    obtain ⟨row', halone⟩ := alone_createCampaign b hw hstored hc hr hj
    have hbody : alone (body (.createCampaign campaignId runId jobId input) b) [] d = _ := halone
    exact .alone _ _ _ rfl (by rw [hbody]; rfl) fun h => by cases h
  | got id row =>
    have hbody : (alone (body (.getCampaign id) b) [] d).2 = d := by
      show (alone (getCampaign id) [] d).2 = d
      rw [getCampaign, alone_select]
      rfl
    exact .alone _ _ _ rfl (by rw [hbody]) fun h => by cases h
  | cancelNoop id row e hterm he hl =>
    have hended : e.status.isTerminal = true := by
      have := hl.isTerminal (by cases hs : row.status <;> simp_all [CampaignStatus.mirror, RunStatus.isTerminal,
        CampaignStatus.isTerminal])
      cases hs : e.status <;> simp_all [CampaignStatus.mirror, RunStatus.isTerminal, CampaignStatus.isTerminal]
    have hbody : (alone (body (.cancelCampaign id) b) [] d).2 = d := alone_cancelCampaign_ended hw he hended
    exact .alone _ _ _ rfl (by rw [hbody]) fun h => by cases h
  | cancelled id runId row e q _ he hlive hq hid hmv hf => exact cancelled_inTurn hw he hlive hq hid hmv hf
  | claimedNone | claimed => cases hclaims
  | startedNot d1 runId workerId h0 h1 hnot =>
    obtain ⟨q0, hq0⟩ := hstart runId workerId rfl
    exact startedNot_inTurn hw hstored h0 h1 hnot hq0
  | started runId workerId e q hq hpend he _ hmv hsub hkeep =>
    exact started_inTurn hw hh hstored hq hpend he hmv hsub hkeep
  | finishedNot d1 runId finish ids h0 h1 hnot hs hadd =>
    -- The run was started before this began, so it has ended and stays so.
    obtain ⟨q0, hq0, hne⟩ := hfinish runId finish ids rfl
    obtain ⟨q1, hq1, -, hl1⟩ := h0.run runId q0 hq0
    obtain ⟨q, hq, -, hl⟩ := h1.run runId q1 hq1
    have hended : q.status ≠ .running := by
      have h1 := leads_not_pending hne hl1
      have h2 := hnot q1 hq1
      cases hs1 : q1.status <;> cases hs2 : q.status <;> simp_all [RunStatus.Leads, RunStatus.rank]
    exact finish_inTurn hw hstored hq hadd (fun e hrun => absurd hrun hended) fun _ => hs
  | finished runId finish ids e q hq hrun he hmv hadd =>
    refine finish_inTurn hw hstored hq hadd (fun e' _ he' => ?_) fun hne => absurd hrun hne
    rw [he] at he'
    cases he'
    exact hmv

end turn

end SoroFuzz.Store
