/-
  SoroFuzz.Store.History — what the commits so far say of the committed rows.

  `cs` lists the committed calls with what they returned, newest first. `History d cs`
  reads the rows off them, and them off the rows: a claimed job stays claimed, a started
  run never comes back to pending, a cancelled one stays cancelled, a run has ended only
  because of a `finish_run` or a `cancel_campaign`, and its findings are a `finish_run`'s.

  Proved:
  - `history_commit`: the next commit keeps it, when it is not a second `finish_run` of a
    run, nor one of a run that was never started.
  - `History.status_of_finished`: a finished run that no cancel reached has the status its
    `finish_run` gave it.
-/

import SoroFuzz.Store.Interleave

namespace SoroFuzz.Store

structure Commit where
  tx : Nat
  call : Call
  reply : Reply

/-- A `cancel_campaign` that found the campaign live cancelled it. One that found it
    cancelled says so too. -/
def Cancelled (cs : List Commit) (campaignId : Uuid) : Prop :=
  ∃ tx row, (⟨tx, .cancelCampaign campaignId, .campaign (some row)⟩ : Commit) ∈ cs ∧ row.status = .cancelled

def Started (cs : List Commit) (runId : Uuid) : Prop :=
  ∃ tx workerId, (⟨tx, .startRun runId workerId, .started true⟩ : Commit) ∈ cs

def Finished (cs : List Commit) (runId : Uuid) (finish : RunFinish) : Prop :=
  ∃ tx ids, (⟨tx, .finishRun runId finish ids, .finished⟩ : Commit) ∈ cs

structure History (d : Db) (cs : List Commit) : Prop where
  claimed : ∀ tx tie workerId job, (⟨tx, .claimJob tie workerId, .claimed (some job)⟩ : Commit) ∈ cs →
    ∃ j, d.job job.jobId = some j ∧ j.runId = job.runId ∧ j.claimedBy ≠ none
  started : ∀ runId, Started cs runId → ∃ r, d.run runId = some r ∧ r.status ≠ .pending
  cancelled : ∀ id, Cancelled cs id → ∃ runId r, d.run runId = some r ∧ r.campaignId = id ∧ r.status = .cancelled
  finished : ∀ runId f, Finished cs runId f →
    ∃ r, d.run runId = some r ∧ (r.status = f.status.runStatus ∨ r.status = .cancelled)
  ended : ∀ runId r, d.run runId = some r → r.status.isTerminal = true →
    (r.status = .cancelled ∧ Cancelled cs r.campaignId) ∨ ∃ f, Finished cs runId f ∧ r.status = f.status.runStatus
  findings : ∀ i f, d.finding i = some f → ∃ g, Finished cs f.runId g
  /-- No cancel of its campaign came before the commit that started a run. -/
  live : ∀ tx runId workerId cs', (⟨tx, .startRun runId workerId, .started true⟩ :: cs' : List Commit) <:+ cs →
    ∀ r, d.run runId = some r → ¬ Cancelled cs' r.campaignId

theorem Cancelled.mono {cs cs' : List Commit} (h : cs ⊆ cs') {id : Uuid} (hc : Cancelled cs id) : Cancelled cs' id := by
  obtain ⟨tx, row, hm, hs⟩ := hc
  exact ⟨tx, row, h hm, hs⟩

theorem Finished.mono {cs cs' : List Commit} (h : cs ⊆ cs') {runId : Uuid} {f : RunFinish} (hf : Finished cs runId f) :
    Finished cs' runId f := by
  obtain ⟨tx, ids, hm⟩ := hf
  exact ⟨tx, ids, h hm⟩

theorem history_nil : History ∅ [] where
  claimed _ _ _ _ h := by cases h
  started _ h := by obtain ⟨_, _, h⟩ := h; cases h
  cancelled _ h := by obtain ⟨_, _, h, _⟩ := h; cases h
  finished _ _ h := by obtain ⟨_, _, h⟩ := h; cases h
  ended _ _ h := by cases h
  findings _ _ h := by cases h
  live _ _ _ _ h := by have := List.suffix_nil.mp h; cases this

variable {d d0 d' : Db} {cs : List Commit}

/-- A finished run that no cancel reached. -/
theorem History.status_of_finished (h : History d cs) {runId : Uuid} {f : RunFinish} {r : RunRow}
    (hf : Finished cs runId f)
    (honce : ∀ g, Finished cs runId g → g = f) (hr : d.run runId = some r) (hc : ¬ Cancelled cs r.campaignId) :
    r.status = f.status.runStatus := by
  obtain ⟨q, hq, hst⟩ := h.finished runId f hf
  rw [hr] at hq; cases hq
  have ht : r.status.isTerminal = true := by
    rcases hst with hst | hst
    · rw [hst]; simp
    · rw [hst]; rfl
  rcases h.ended runId r hr ht with ⟨-, hc'⟩ | ⟨g, hg, hst'⟩
  · exact absurd hc' hc
  · rw [hst', honce g hg]

/-! ## The next commit -/

theorem leads_of_finished {s t : RunStatus} {f : RunFinish} (h : s = f.status.runStatus ∨ s = .cancelled)
    (hl : s.Leads t) :
    t = f.status.runStatus ∨ t = .cancelled := by
  have ht : s.isTerminal = true := by
    rcases h with rfl | rfl
    · simp
    · rfl
  rcases hl with rfl | hl | rfl
  · exact h
  · cases s <;> cases t <;> simp_all [RunStatus.rank, RunStatus.isTerminal]
  · exact Or.inr rfl

theorem leads_not_pending {s t : RunStatus} (h : s ≠ .pending) (hl : s.Leads t) : t ≠ .pending := by
  cases s <;> cases t <;> simp_all [RunStatus.Leads, RunStatus.rank]

section commit
variable {ok : CampaignStatus → Prop} {b : DateTime} {tx : Nat} {c : Call} {reply : Reply}
variable (h : History d cs)
include h

variable (tx c reply) in
/-- Why a run has ended, in the rows before the commit. -/
theorem ended_before (runId : Uuid) (r : RunRow) (hr : d.run runId = some r) (ht : r.status.isTerminal = true) :
    (r.status = .cancelled ∧ Cancelled (⟨tx, c, reply⟩ :: cs) r.campaignId) ∨
      ∃ f, Finished (⟨tx, c, reply⟩ :: cs) runId f ∧ r.status = f.status.runStatus := by
  rcases h.ended runId r hr ht with ⟨hst, hc⟩ | ⟨f, hf, hst⟩
  · exact Or.inl ⟨hst, hc.mono (List.subset_cons_self _ _)⟩
  · exact Or.inr ⟨f, hf.mono (List.subset_cons_self _ _), hst⟩

variable (he : Effect ok b d0 c reply d d')
include he

theorem ended_commit (runId : Uuid) (r : RunRow) (hr : d'.run runId = some r) (ht : r.status.isTerminal = true) :
    (r.status = .cancelled ∧ Cancelled (⟨tx, c, reply⟩ :: cs) r.campaignId) ∨
      ∃ f, Finished (⟨tx, c, reply⟩ :: cs) runId f ∧ r.status = f.status.runStatus := by
  have hold := ended_before tx c reply h runId
  cases he with
  | created campaignId runId' jobId input row _ _ _ =>
    simp at hr
    split at hr
    · cases hr; cases ht
    · exact hold r hr ht
  | got | cancelNoop | claimedNone | startedNot => exact hold r hr ht
  | cancelled id runId' row q r0 hrow _ _ _ hid hmv _ =>
    rw [hmv.run] at hr
    split at hr
    · cases hr
      exact Or.inl ⟨rfl, tx, row, by rw [hid]; exact List.mem_cons_self, hrow⟩
    · exact hold r hr ht
  | claimed => exact hold r (by simpa using hr) ht
  | started runId' workerId q r0 _ _ _ _ hmv _ _ =>
    rw [hmv.run] at hr
    split at hr
    · cases hr; cases ht
    · exact hold r hr ht
  | finishedNot _ _ _ _ _ _ _ hs _ => exact hold r (by rw [← hs.run]; exact hr) ht
  | finished runId' f ids q r0 _ _ _ hmv _ =>
    rw [hmv.run] at hr
    split at hr
    · rename_i e
      cases hr
      exact Or.inr ⟨f, ⟨tx, ids, by rw [e]; exact List.mem_cons_self⟩, rfl⟩
    · exact hold r hr ht

theorem findings_commit (i : Uuid) (f : FindingRow) (hf : d'.finding i = some f) :
    ∃ g, Finished (⟨tx, c, reply⟩ :: cs) f.runId g := by
  have hold : ∀ {f : FindingRow}, d.finding i = some f → ∃ g, Finished (⟨tx, c, reply⟩ :: cs) f.runId g := fun hf => by
    obtain ⟨g, hg⟩ := h.findings i _ hf
    exact ⟨g, hg.mono (List.subset_cons_self _ _)⟩
  cases he with
  | created | claimed => exact hold (by simpa using hf)
  | got | cancelNoop | claimedNone | startedNot => exact hold hf
  | cancelled _ _ _ _ _ _ _ _ _ _ _ hsame => exact hold (by rw [← hsame]; exact hf)
  | started _ _ _ _ _ _ _ _ _ hsub _ => exact hold (hsub i f hf)
  | finishedNot _ runId g ids _ _ _ _ ha | finished runId g ids _ _ _ _ _ _ ha =>
    rcases ha.cases hf with hf | ⟨_, _, -, -, rfl⟩
    · exact hold hf
    · exact ⟨g, tx, ids, List.mem_cons_self⟩

variable (hw : Wf d)
include hw

theorem claimed_commit (i : Nat) (tie : Uuid → Nat) (workerId : String) (job : ClaimedJob)
    (hm : (⟨i, .claimJob tie workerId, .claimed (some job)⟩ : Commit) ∈ ⟨tx, c, reply⟩ :: cs) :
    ∃ j, d'.job job.jobId = some j ∧ j.runId = job.runId ∧ j.claimedBy ≠ none := by
  rcases List.mem_cons.mp hm with hnew | hold
  · cases hnew
    cases he with
    | claimed _ _ id j hj _ => exact ⟨_, (Db.job_insert d id id _).trans (if_pos rfl), rfl, by simp⟩
  · obtain ⟨j, hj, hjr, hc⟩ := h.claimed i tie workerId job hold
    obtain ⟨j', hj', hr', -, hc'⟩ := (effect_persist hw he).job _ j hj
    exact ⟨j', hj', hr'.trans hjr, hc' hc⟩

theorem started_commit (runId : Uuid) (hs : Started (⟨tx, c, reply⟩ :: cs) runId) :
    ∃ r, d'.run runId = some r ∧ r.status ≠ .pending := by
  obtain ⟨i, workerId, hm⟩ := hs
  rcases List.mem_cons.mp hm with hnew | hold
  · cases hnew
    cases he with
    | started _ _ _ _ _ _ _ _ hmv _ _ => exact ⟨_, by rw [hmv.run]; exact if_pos rfl, by simp⟩
  · obtain ⟨r, hr, hst⟩ := h.started runId ⟨i, workerId, hold⟩
    obtain ⟨r', hr', -, hl⟩ := (effect_persist hw he).run runId r hr
    exact ⟨r', hr', leads_not_pending hst hl⟩

theorem cancelled_commit (id : Uuid) (hc : Cancelled (⟨tx, c, reply⟩ :: cs) id) :
    ∃ runId r, d'.run runId = some r ∧ r.campaignId = id ∧ r.status = .cancelled := by
  obtain ⟨i, row, hm, hrow⟩ := hc
  rcases List.mem_cons.mp hm with hnew | hold
  · cases hnew
    cases he with
    | cancelNoop _ _ q _ hq hl =>
      -- The campaign was cancelled when it was read, so it still is, and so is its run.
      obtain ⟨runId, r, hr, hid⟩ := hw.campaignRun id q hq
      have hqc : RunStatus.cancelled = q.status.mirror := by
        rw [hrow] at hl
        exact hl.antisymm (RunStatus.leads_cancelled _)
      exact ⟨runId, r, hr, hid, (hw.mirror runId r q hr (hid ▸ hq)).trans hqc.symm⟩
    | cancelled _ runId _ _ r _ _ _ _ hid hmv _ => exact ⟨runId, _, (hmv.run runId).trans (if_pos rfl), hid, rfl⟩
  · obtain ⟨runId, r, hr, hid, hst⟩ := h.cancelled id ⟨i, row, hold, hrow⟩
    obtain ⟨r', hr', hid', hl⟩ := (effect_persist hw he).run runId r hr
    refine ⟨runId, r', hr', hid'.trans hid, ?_⟩
    rw [hst] at hl
    exact (hl.antisymm (RunStatus.leads_cancelled _)).symm

theorem finished_commit (hfin : ∀ runId f ids, c = .finishRun runId f ids →
      (∀ g, ¬ Finished cs runId g) ∧ ∃ q, d0.run runId = some q ∧ q.status ≠ .pending)
    (runId : Uuid) (f : RunFinish) (hf : Finished (⟨tx, c, reply⟩ :: cs) runId f) :
    ∃ r, d'.run runId = some r ∧ (r.status = f.status.runStatus ∨ r.status = .cancelled) := by
  obtain ⟨i, ids, hm⟩ := hf
  rcases List.mem_cons.mp hm with hnew | hold
  · cases hnew
    cases he with
    | finishedNot d1 _ _ _ hp0 hp1 hnot hs _ =>
      -- It was started, and not finished before: only a cancel can have ended it.
      obtain ⟨hfirst, q, hq, hpend⟩ := hfin runId f ids rfl
      obtain ⟨r1, hr1, -, hl1⟩ := hp0.run runId q hq
      obtain ⟨r2, hr2, -, hl2⟩ := hp1.run runId r1 hr1
      have hterm : r1.status.isTerminal = true := by
        have hp := leads_not_pending hpend hl1
        have hr := hnot r1 hr1
        cases hst : r1.status <;> simp_all [RunStatus.isTerminal]
      refine ⟨r2, by rw [hs.run]; exact hr2, Or.inr ?_⟩
      rcases h.ended runId r2 hr2 (hl2.isTerminal hterm) with ⟨hst, -⟩ | ⟨g, hg, -⟩
      · exact hst
      · exact absurd hg (hfirst g)
    | finished _ _ _ _ _ _ _ _ hmv _ => exact ⟨_, by rw [hmv.run]; exact if_pos rfl, Or.inl rfl⟩
  · obtain ⟨r, hr, hst⟩ := h.finished runId f ⟨i, ids, hold⟩
    obtain ⟨r', hr', -, hl⟩ := (effect_persist hw he).run runId r hr
    exact ⟨r', hr', leads_of_finished hst hl⟩

theorem live_commit (i : Nat) (runId : Uuid) (workerId : String) (cs' : List Commit)
    (hs : (⟨i, .startRun runId workerId, .started true⟩ :: cs' : List Commit) <:+ ⟨tx, c, reply⟩ :: cs) (r' : RunRow)
    (hr' : d'.run runId = some r') : ¬ Cancelled cs' r'.campaignId := by
  rcases List.suffix_cons_iff.mp hs with heq | hs
  · cases heq
    intro hc
    cases he with
    | started _ _ q r hr hpend _ _ hmv _ _ =>
      rw [hmv.run, if_pos rfl] at hr'
      cases hr'
      obtain ⟨j, p, hp, hid, hst⟩ := h.cancelled _ hc
      obtain rfl := hw.runUnique j runId p r hp hr hid
      rw [hr] at hp; cases hp
      rw [hpend] at hst; cases hst
  · obtain ⟨r, hr, -⟩ := h.started runId ⟨i, workerId, hs.subset (by simp)⟩
    obtain ⟨q, hq, hid, -⟩ := (effect_persist hw he).run runId r hr
    rw [hr'] at hq; cases hq
    rw [hid]
    exact h.live i runId workerId cs' hs r hr

theorem history_commit (hfin : ∀ runId f ids, c = .finishRun runId f ids →
      (∀ g, ¬ Finished cs runId g) ∧ ∃ q, d0.run runId = some q ∧ q.status ≠ .pending) :
    History d' (⟨tx, c, reply⟩ :: cs) where
  claimed := claimed_commit h he hw
  started := started_commit h he hw
  cancelled := cancelled_commit h he hw
  finished := finished_commit h he hw hfin
  ended := ended_commit h he
  findings := findings_commit h he
  live := live_commit h he hw

end commit

end SoroFuzz.Store
