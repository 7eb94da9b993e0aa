/-
  SoroFuzz.Queue.Coherent — the answers about a campaign agree with each other.

  `POST /campaigns` answers with the record that its last statement reads, `GET` and
  `cancel` with one that their first reads; the commit comes later. Whatever runs beside
  them, no answer contradicts one that was given before its own transaction began.

  Proved:
  - `body_answers`: what each method's answer says of the rows when it began, and of those
    it leaves (`storeReplies`).
  - `coherent`: in every reachable world, of two answers about a campaign the later asked
    shows the same campaign, no further back, and it is never that there is none.
-/

import SoroFuzz.Lib.Answers
import SoroFuzz.Queue.Budget
import SoroFuzz.Queue.Carry
import SoroFuzz.Store.Commit

namespace SoroFuzz.Store

open Lib.ReadCommitted
open Lib.Sql

/-! ## What an answer says -/

/-- The campaign the call asks about. -/
def Call.campaign : Call → Option Uuid
  | .createCampaign id _ _ _ | .getCampaign id | .cancelCampaign id => some id
  | .claimJob _ _ | .startRun _ _ | .finishRun _ _ _ => none

/-- The record the reply shows. -/
def Reply.row : Reply → Option CampaignRecord
  | .created row => some row
  | .campaign row => row
  | .claimed _ | .started _ | .finished | .error => none

/-- The campaign of the record is there, with its run, and no further back than the
    record says. -/
structure Tells (d : Db) (row : CampaignRecord) : Prop where
  campaign : ∃ c, d.campaign row.id = some c ∧ c.input = row.input ∧ c.createdAt = row.createdAt ∧
    row.status.mirror.Leads c.status.mirror
  run : ∃ r, d.run row.runId = some r ∧ r.campaignId = row.id

/-- The record says no less than the rows did. -/
def Since (d0 : Db) (row : CampaignRecord) : Prop :=
  ∀ c, d0.campaign row.id = some c → c.status.mirror.Leads row.status.mirror

/-- A campaign is created with the same, at the same time. -/
def Stays (d d' : Db) : Prop :=
  ∀ id c, d.campaign id = some c → ∃ c', d'.campaign id = some c' ∧ c'.input = c.input ∧ c'.createdAt = c.createdAt

def storeReplies : Replies Row Call Reply where
  ans c d0 r d' := ∀ id, c.campaign = some id →
    (∀ row, r.row = some row → row.id = id ∧ Tells d' row ∧ Since d0 row) ∧
    (r = .campaign none → Db.campaign d0 id = none)
  refuse c d0 r := ∀ id, c.campaign = some id → r = .campaign none → Db.campaign d0 id = none

/-! ## What every commit keeps -/

theorem Stays.moved {d d' : Db} {i j : Uuid} {c c' : CampaignRow} {r : RunRow} (hmv : Moved d d' i j c' r)
    (hc : d.campaign i = some c) (hin : c'.input = c.input) (hat : c'.createdAt = c.createdAt) : Stays d d' := by
  intro id e he
  rw [hmv.campaign]
  split
  · rename_i hid
    subst hid
    rw [hc] at he
    cases he
    exact ⟨c', rfl, hin, hat⟩
  · exact ⟨e, he, rfl, rfl⟩

theorem effect_stays {ok : CampaignStatus → Prop} {b : DateTime} {c : Call} {r : Reply} {d0 d d' : Db}
    (he : Effect ok b d0 c r d d') : Stays d d' := by
  cases he with
  | created campaignId _ _ _ _ hc _ _ =>
    intro id e he
    have hne : id ≠ campaignId := by rintro rfl; rw [hc] at he; cases he
    exact ⟨e, by simpa [hne] using he, rfl, rfl⟩
  | got | cancelNoop | claimedNone | startedNot => exact fun id e he => ⟨e, he, rfl, rfl⟩
  | cancelled _ _ _ _ _ _ hc _ _ _ hmv _ => exact .moved hmv hc rfl rfl
  | claimed => exact fun id e he => ⟨e, by simpa using he, rfl, rfl⟩
  | started _ _ _ _ _ _ hc _ hmv _ _ => exact .moved hmv hc rfl rfl
  | finishedNot _ _ _ _ _ _ _ hs _ => exact fun id e he => ⟨e, (hs.campaign id).trans he, rfl, rfl⟩
  | finished _ _ _ _ _ _ _ hc hmv _ => exact .moved hmv hc rfl rfl

/-- What a campaign was created with, and when, is kept. -/
def stays (ok : CampaignStatus → Prop) : Keep (storeSpec ok) where
  rel := Stays
  refl _ _ c hc := ⟨c, hc, rfl, rfl⟩
  trans h h' id c hc := by
    obtain ⟨c1, h1, hin1, hat1⟩ := h id c hc
    obtain ⟨c2, h2, hin2, hat2⟩ := h' id c1 h1
    exact ⟨c2, h2, hin2.trans hin1, hat2.trans hat1⟩
  post _ he := effect_stays he

theorem Tells.later {d d' : Db} {row : CampaignRecord} (h : Tells d row) (hp : Persist d d') (hs : Stays d d') :
    Tells d' row := by
  obtain ⟨c, hc, hin, hat, hl⟩ := h.campaign
  obtain ⟨r, hr, hid⟩ := h.run
  obtain ⟨c1, hc1, hin1, hat1⟩ := hs _ c hc
  obtain ⟨c2, hc2, hl2⟩ := hp.campaign _ c hc
  obtain ⟨r', hr', hid', -⟩ := hp.run _ r hr
  rw [hc1] at hc2
  cases hc2
  exact ⟨⟨c1, hc1, hin1.trans hin, hat1.trans hat, hl.trans hl2⟩, r', hr', hid'.trans hid⟩

/-- Two records of one campaign, the one told before the rows `d0`, the other since. -/
theorem Tells.agree {d0 d' : Db} {row row' : CampaignRecord} (h : Tells d0 row) (hsince : Since d0 row')
    (hp : Persist d0 d') (hs : Stays d0 d') (h' : Tells d' row') (hw : Wf d') (hid : row'.id = row.id) :
    row' = { row with status := row'.status } ∧ row.status.mirror.Leads row'.status.mirror := by
  obtain ⟨c0, hc0, -, -, hl⟩ := h.campaign
  obtain ⟨c, hc, hin, hat, -⟩ := (h.later hp hs).campaign
  obtain ⟨r, hr, hrid⟩ := (h.later hp hs).run
  obtain ⟨c', hc', hin', hat', -⟩ := h'.campaign
  obtain ⟨r', hr', hrid'⟩ := h'.run
  rw [hid, hc] at hc'
  cases hc'
  have hrun : row'.runId = row.runId := hw.runUnique _ _ r' r hr' hr (hrid'.trans (hid.trans hrid.symm))
  have hinput : row'.input = row.input := hin'.symm.trans hin
  have hcreated : row'.createdAt = row.createdAt := hat'.symm.trans hat
  refine ⟨?_, hl.trans (hsince c0 (hid ▸ hc0))⟩
  obtain ⟨id, targetId, name, invariantIds, secs, status, runId, createdAt⟩ := row
  obtain ⟨id', targetId', name', invariantIds', secs', status', runId', createdAt'⟩ := row'
  simp only [CampaignRecord.input, NewCampaign.mk.injEq] at hinput hrun hcreated hid ⊢
  simp only [hid, hinput, hrun, hcreated]

/-! ## The methods -/

/-- A record that a SELECT returns. -/
theorem selected_row {d : Db} {row : CampaignRecord} (h : row ∈ selectCampaignWithRun d) :
    (∃ c, d.campaign row.id = some c ∧ c.input = row.input ∧ c.createdAt = row.createdAt ∧ c.status = row.status) ∧
      ∃ r, d.run row.runId = some r ∧ r.campaignId = row.id := by
  obtain ⟨⟨i, c⟩, hc, hm⟩ := List.mem_flatMap.mp h
  obtain ⟨⟨runId, r⟩, hr, rfl⟩ := List.mem_map.mp hm
  obtain ⟨hr, hrid⟩ := List.mem_filter.mp hr
  exact ⟨⟨c, Db.mem_campaigns.mp hc, rfl, rfl, rfl⟩, r, Db.mem_runs.mp hr, of_decide_eq_true hrid⟩

theorem campaignWithRun_mem {d : Db} {id : Uuid} {row : CampaignRecord} (h : campaignWithRun d id = some row) :
    row ∈ selectCampaignWithRun d ∧ row.id = id :=
  ⟨List.mem_of_find?_eq_some h, by simpa using List.find?_some h⟩

theorem tells_of_select {d : Db} {row : CampaignRecord} (h : row ∈ selectCampaignWithRun d) : Tells d row := by
  obtain ⟨⟨c, hc, hin, hat, hst⟩, hrun⟩ := selected_row h
  exact ⟨⟨c, hc, hin, hat, by rw [hst]⟩, hrun⟩

theorem since_of_select {d : Db} {row : CampaignRecord} (h : row ∈ selectCampaignWithRun d) : Since d row := by
  obtain ⟨⟨c, hc, -, -, hst⟩, -⟩ := selected_row h
  intro c' hc'
  rw [hc] at hc'
  cases hc'
  rw [hst]

theorem campaignWithRun_none {d : Db} (hw : Wf d) {id : Uuid} (h : campaignWithRun d id = none) :
    d.campaign id = none := by
  by_contra hne
  obtain ⟨c, hc⟩ := Option.ne_none_iff_exists'.mp hne
  obtain ⟨j, r, hr, hrid⟩ := hw.campaignRun id c hc
  refine List.find?_eq_none.mp h ⟨id, c.targetId, c.name, c.invariantIds, c.timeBudgetSecs, c.status, j, c.createdAt⟩ ?_
    (decide_eq_true rfl)
  refine List.mem_flatMap.mpr ⟨(id, c), Db.mem_campaigns.mpr hc, List.mem_map.mpr ⟨(j, r), ?_, rfl⟩⟩
  exact List.mem_filter.mpr ⟨Db.mem_runs.mpr hr, decide_eq_true hrid⟩

section methods
variable {ok : CampaignStatus → Prop} {b n : Nat} {d : Db}

/-- Until it commits, the campaign is its own, and so is the only run of it. -/
theorem createCampaign_answers {campaignId runId jobId : Uuid} {input : NewCampaign} :
    Answers (storeSpec ok) (stays ok) storeReplies (.createCampaign campaignId runId jobId input) b d
      (createCampaign campaignId runId jobId input b) [] n d := by
  have hclash : storeReplies.refuse (.createCampaign campaignId runId jobId input) d .error := fun _ _ h => by cases h
  refine answers_insertRow (fun _ _ _ => hclash) fun n1 (d1 : Db) h1 hk1 => ?_
  refine answers_insertRow (fun _ _ _ => hclash) fun n2 (d2 : Db) h2 hk2 => ?_
  refine answers_insertRow (fun _ _ _ => hclash) fun n3 (d3 : Db) h3 hk3 => ?_
  refine answers_select fun n4 (d4 : Db) h4 => ?_
  split
  · rename_i row hrow
    intro n5 d5 h5 id hid
    cases hid
    refine ⟨fun row' hrow' => ?_, by simp⟩
    cases hrow'
    have hnone1 : Db.campaign d1 campaignId = none := AList.lookup_eq_none.mpr hk1
    have hnone : Db.campaign d4 campaignId = none := by
      rw [Db.campaign, h4.rely.own _ (by simp), h3.rely.own _ (by simp), h2.rely.own _ (by simp)]
      exact hnone1
    obtain ⟨hmem, hid⟩ := campaignWithRun_mem hrow
    obtain ⟨⟨c, hc, hin, hat, hst⟩, r, hr, hrid⟩ := selected_row hmem
    rw [hid] at hc hrid
    have hrunId : row.runId = runId := by
      by_contra hne
      simp [hne] at hr
      obtain ⟨c', hc'⟩ := h4.rely.inv.runCampaign _ r hr
      rw [hrid, hnone] at hc'
      cases hc'
    simp at hc
    refine ⟨hid, ⟨⟨c, ?_, hin, hat, by rw [hst]⟩, ?_⟩, fun c0 hc0 => ?_⟩
    · simpa [hid] using hc
    · rw [hrunId, hid]
      simp
    · obtain ⟨c1, hc1, -⟩ := h1.rely.guar.campaign _ c0 hc0
      rw [hid, hnone1] at hc1
      cases hc1
  · exact hclash

/-- What the SELECT found is still there, and was not there less. -/
theorem answers_selected {c : Call} {id : Uuid} (hc : c.campaign = some id) {n1 : Nat} {d1 : Db}
    (h1 : Meanwhile (storeSpec ok) (stays ok) [] n d n1 d1) {row : CampaignRecord}
    (hrow : campaignWithRun d1 id = some row) :
    Answers (storeSpec ok) (stays ok) storeReplies c b d (.commit (.campaign (some row))) [] n1 d1 := by
  intro n2 d2 h2 id' hid'
  rw [hc] at hid'
  cases hid'
  refine ⟨fun row' hrow' => ?_, by simp⟩
  cases hrow'
  obtain ⟨hmem, hid⟩ := campaignWithRun_mem hrow
  refine ⟨hid, (tells_of_select hmem).later h2.rely.guar h2.keep, fun c0 hc0 => ?_⟩
  obtain ⟨c1, hc1, hl⟩ := h1.rely.guar.campaign _ c0 hc0
  exact hl.trans (since_of_select hmem c1 hc1)

theorem selected_none {n1 : Nat} {d1 : Db} (h1 : Meanwhile (storeSpec ok) (stays ok) [] n d n1 d1) {id : Uuid}
    (hrow : campaignWithRun d1 id = none) : Db.campaign d id = none := by
  by_contra hne
  obtain ⟨c, hc⟩ := Option.ne_none_iff_exists'.mp hne
  obtain ⟨c1, hc1, -⟩ := h1.rely.guar.campaign id c hc
  rw [campaignWithRun_none h1.rely.inv hrow] at hc1
  cases hc1

theorem getCampaign_answers {id : Uuid} :
    Answers (storeSpec ok) (stays ok) storeReplies (.getCampaign id) b d (getCampaign id) [] n d := by
  refine answers_select fun n1 (d1 : Db) h1 => ?_
  cases hrow : campaignWithRun d1 id with
  | none =>
    rw [applyAll_nil, hrow]
    intro n2 d2 h2 id' hid'
    cases hid'
    exact ⟨by simp [Reply.row], fun _ => selected_none h1 hrow⟩
  | some row =>
    rw [applyAll_nil, hrow]
    exact answers_selected rfl h1 hrow

/-- The run that the first UPDATE's campaign has is the one that the SELECT found. -/
theorem cancelCampaign_answers {id : Uuid} :
    Answers (storeSpec ok) (stays ok) storeReplies (.cancelCampaign id) b d (cancelCampaign id b) [] n d := by
  refine answers_select fun n1 (d1 : Db) h1 => ?_
  rw [applyAll_nil]
  split
  · rename_i hnone
    intro id' hid' _
    cases hid'
    exact selected_none h1 hnone
  · rename_i current hcur
    split
    · exact answers_selected rfl h1 hcur
    · refine answers_update fun n2 (d2 : Db) h2 => ?_
      obtain ⟨hmem, hid⟩ := campaignWithRun_mem hcur
      have htold := (tells_of_select hmem).later h2.rely.guar h2.keep
      obtain ⟨c2, hc2, hin, hat, -⟩ := htold.campaign
      rw [hid] at hc2
      rw [applyAll_nil, updates_campaigns hc2 rfl fun _ _ _ h => h]
      refine answers_update fun n3 (d3 : Db) h3 => ?_
      obtain ⟨r3, hr3, hrid⟩ := (htold.later h3.rely.guar h3.keep).run
      rw [hid] at hrid
      rw [updates_runs ((lookup_applyAll_other _ _ (by simp)).trans hr3) hrid fun i r1 hl h =>
        h3.rely.inv.runUnique i current.runId r1 r3 ((lookup_applyAll_other _ _ (by simp)).symm.trans hl) hr3
          (h.trans hrid.symm)]
      intro es n4 (d4 : Db) h4 id' hid'
      cases hid'
      refine ⟨fun row hrow => ?_, by simp⟩
      cases hrow
      refine ⟨hid, ⟨⟨{ c2 with status := .cancelled, updatedAt := b }, ?_, hin, hat, RunStatus.leads_cancelled _⟩, ?_⟩,
        fun _ _ => RunStatus.leads_cancelled _⟩
      · simp [es, hid]
      · simp [es, hid, hrid]

/-- Every method answers right. -/
theorem body_answers (c : Call) (n : Nat) (d : Db) :
    Answers (storeSpec ok) (stays ok) storeReplies c n d (body c n) [] n d := by
  cases c with
  | createCampaign => exact createCampaign_answers
  | getCampaign => exact getCampaign_answers
  | cancelCampaign => exact cancelCampaign_answers
  | claimJob | startRun | finishRun =>
    exact answers_any (fun _ _ _ h => by cases h) fun _ _ h => by cases h

end methods

end SoroFuzz.Store

namespace SoroFuzz.Queue

open SoroFuzz.Store
open Lib.ReadCommitted (Answering)
open World

variable {ws : Nat → Worker} {s s' : World}

/-! ## What a step does to the transactions -/

theorem World.Stepped.pg (hs : Stepped ws s s') :
    s'.pg = s.pg ∨ ∃ a, Lib.ReadCommitted.step body s.pg a = some s'.pg := by
  cases hs with
  | tick d => exact Or.inr ⟨.tick d, rfl⟩
  | exec _ _ _ _ _ _ hpg | commit _ _ _ _ _ _ hpg | abort _ _ _ _ _ _ hpg | api _ _ _ hpg | call _ _ _ _ _ _ _ hpg =>
    exact Or.inr ⟨_, hpg⟩
  | _ => exact Or.inl rfl

/-- A transaction was in flight before, or is the next to begin, on the rows as they are. -/
theorem World.Stepped.txns (hs : Stepped ws s s') {i : Nat} {t' : Txn} (ht : s'.pg.txns.lookup i = some t') :
    (∃ t, s.pg.txns.lookup i = some t ∧ t'.call = t.call ∧ t'.seen = t.seen) ∨ (i = s.next ∧ t'.seen = s.pg.db) := by
  cases hs with
  | exec i t l pg hi hp hpg =>
    cases Lib.ReadCommitted.step_cases body hpg with
    | exec _ u _ writes next hu _ _ =>
      rcases Lib.ReadCommitted.lookup_insert_cases ht with ⟨rfl, rfl⟩ | ⟨-, ht⟩
      · exact Or.inl ⟨u, hu, rfl, rfl⟩
      · exact Or.inl ⟨t', ht, rfl, rfl⟩
  | commit i t r pg hi hp hpg =>
    cases Lib.ReadCommitted.step_cases body hpg with
    | commit => exact Or.inl ⟨t', (Lib.ReadCommitted.lookup_erase_cases ht).2, rfl, rfl⟩
  | abort i t r pg hi hp hpg =>
    cases Lib.ReadCommitted.step_cases body hpg with
    | abort => exact Or.inl ⟨t', (Lib.ReadCommitted.lookup_erase_cases ht).2, rfl, rfl⟩
  | api c pg hc hpg | call k tie ids op next pg hk hpg =>
    cases Lib.ReadCommitted.step_cases body hpg with
    | start =>
      rcases Lib.ReadCommitted.lookup_insert_cases ht with ⟨rfl, rfl⟩ | ⟨-, ht⟩
      · exact Or.inr ⟨rfl, rfl⟩
      · exact Or.inl ⟨t', ht, rfl, rfl⟩
  | _ => exact Or.inl ⟨t', ht, rfl, rfl⟩

/-- A transaction began before, or is the one that begins. -/
theorem World.Stepped.began (hs : Stepped ws s s') {i : Nat} {c : Call} {log : List Event}
    (h : (.began i c :: log : List Event) <:+ s'.log) :
    (.began i c :: log : List Event) <:+ s.log ∨ (i = s.next ∧ log = s.log ∧ s'.pg.db = s.pg.db) := by
  cases hs with
  | tick | poll | publisher => exact Or.inl h
  | api c' pg hc hpg =>
    cases Lib.ReadCommitted.step_cases body hpg with
    | start =>
      rcases List.suffix_cons_iff.mp h with heq | h
      · cases heq
        exact Or.inr ⟨rfl, rfl, rfl⟩
      · exact Or.inl h
  | call k tie ids op next pg hk hpg =>
    cases Lib.ReadCommitted.step_cases body hpg with
    | start =>
      rcases List.suffix_cons_iff.mp h with heq | h
      · cases heq
      · rcases List.suffix_cons_iff.mp h with heq | h
        · cases heq
          exact Or.inr ⟨rfl, rfl, rfl⟩
        · exact Or.inl h
  | _ =>
    rcases List.suffix_cons_iff.mp h with heq | h
    · cases heq
    · exact Or.inl h

theorem World.Stepped.aborted (hs : Stepped ws s s') {i : Nat} {r : Reply} (hm : .aborted i r ∈ s'.log) :
    .aborted i r ∈ s.log ∨ ∃ t, s.pg.txns.lookup i = some t ∧ (t.prog = .rollback r ∨ r = .error) := by
  cases hs with
  | tick | poll | publisher => exact Or.inl hm
  | abort j t q pg ht hp _ =>
    rcases List.mem_cons.mp hm with heq | hm
    · cases heq
      exact Or.inr ⟨t, ht, hp⟩
    · exact Or.inl hm
  | call => exact Or.inl ((List.mem_cons.mp ((List.mem_cons.mp hm).resolve_left nofun)).resolve_left nofun)
  | _ => exact Or.inl ((List.mem_cons.mp hm).resolve_left nofun)

theorem World.Stepped.committed (hs : Stepped ws s s') {i : Nat} {c : Call} {r : Reply}
    (hm : .committed i c r ∈ s'.log) :
    .committed i c r ∈ s.log ∨ ∃ t, s.pg.txns.lookup i = some t ∧ t.call = c ∧ t.prog = .commit r ∧
      s'.pg.db = Lib.ReadCommitted.applyAll t.writes s.pg.db := by
  cases hs.recorded with
  | still _ hcs =>
    rw [← mem_commits, hcs, mem_commits] at hm
    exact Or.inl hm
  | commit j t q ht hp hdb hcs =>
    rw [← mem_commits, hcs] at hm
    rcases List.mem_cons.mp hm with heq | hm
    · cases heq
      exact Or.inr ⟨t, ht, rfl, hp, hdb⟩
    · exact Or.inl (mem_commits.mp hm)

theorem World.Stepped.next_le (hs : Stepped ws s s') : s.next ≤ s'.next := by
  cases hs with
  | api | call => exact Nat.le_succ _
  | _ => exact Nat.le_refl _

/-! ## Over every interleaving -/

theorem aborted_lt (h : World.Reach ws s) {i : Nat} {r : Reply} (hm : .aborted i r ∈ s.log) : i < s.next := by
  induction h with
  | init => cases hm
  | @step s s' a hr hs ih =>
    have hstep := step_cases hs
    refine Nat.lt_of_lt_of_le ?_ hstep.next_le
    rcases hstep.aborted hm with hm | ⟨t, ht, -⟩
    · exact ih hm
    · exact (reach_sound hr).lt i _ ((reach_sound hr).txns i t ht)

theorem answering (h : World.Reach ws s) : Answering (stays fun _ => True) storeReplies s.pg := by
  induction h with
  | init => exact Lib.ReadCommitted.answering_init
  | @step s s' a hr hs ih =>
    rcases (step_cases hs).pg with heq | ⟨a, hpg⟩
    · rw [heq]
      exact ih
    · exact Lib.ReadCommitted.answering_step (fun c n d _ => body_answers c n d) (reach_sound hr).ok ih hpg (allowed _ _)

/-- An answer showed the record. -/
def Told (cs : List Commit) (row : CampaignRecord) : Prop :=
  ∃ tx c r, (⟨tx, c, r⟩ : Commit) ∈ cs ∧ c.campaign = some row.id ∧ r.row = some row

theorem tells_of_told (h : World.Reach ws s) {row : CampaignRecord} (ht : Told (commits s.log) row) :
    Tells s.pg.db row := by
  induction h with
  | init =>
    obtain ⟨_, _, _, hm, -⟩ := ht
    cases hm
  | @step s s' a hr hs ih =>
    have hok := (reach_sound hr).ok
    cases (step_cases hs).recorded with
    | still hdb hcs =>
      rw [hdb]
      rw [hcs] at ht
      exact ih ht
    | commit i t r hi hp hdb hcs =>
      obtain ⟨-, hpersist, he⟩ := Lib.ReadCommitted.commit_post hok hi hp
      rw [hdb]
      rw [hcs] at ht
      obtain ⟨tx, c, q, hm, hc, hrow⟩ := ht
      rcases List.mem_cons.mp hm with heq | hm
      · cases heq
        exact (((answering hr).commit hok hi hp _ hc).1 row hrow).2.1
      · exact (ih ⟨tx, c, q, hm, hc, hrow⟩).later hpersist (effect_stays he)

/-- What was told before a transaction began is in the rows that it began on. -/
theorem tells_seen (h : World.Reach ws s) {i : Nat} {t : Txn} (ht : s.pg.txns.lookup i = some t) {c : Call}
    {log : List Event} (hb : (.began i c :: log : List Event) <:+ s.log) {row : CampaignRecord} (hrow : Told (commits log) row) :
    Tells t.seen row := by
  induction h generalizing t with
  | init => simp [World.init, Store.init, Lib.ReadCommitted.init] at ht
  | @step s s' a hr hs ih =>
    have hstep := step_cases hs
    have hlt := (reach_sound hr).lt
    rcases hstep.txns ht with ⟨t0, ht0, -, hseen⟩ | ⟨rfl, hseen⟩ <;> rcases hstep.began hb with hb | ⟨hi, hlog, -⟩
    · rw [hseen]
      exact ih ht0 hb
    · have := hlt i _ ((reach_sound hr).txns i t0 ht0)
      omega
    · have := hlt _ c (hb.subset List.mem_cons_self)
      omega
    · rw [hseen]
      rw [hlog] at hrow
      exact tells_of_told hr hrow

/-- No answer contradicts one that was given before it was asked for. -/
theorem coherent (h : World.Reach ws s) {i : Nat} {c : Call} {log : List Event}
    (hb : (.began i c :: log : List Event) <:+ s.log) {row : CampaignRecord} (hrow : Told (commits log) row)
    (hc : c.campaign = some row.id) :
    (∀ r row', .committed i c r ∈ s.log → r.row = some row' →
      row' = { row with status := row'.status } ∧ row.status.mirror.Leads row'.status.mirror) ∧
    .committed i c (.campaign none) ∉ s.log ∧ .aborted i (.campaign none) ∉ s.log := by
  induction h with
  | init =>
    have := List.suffix_nil.mp hb
    cases this
  | @step s s' a hr hs ih =>
    have hstep := step_cases hs
    have hsound := reach_sound hr
    rcases hstep.began hb with hb | ⟨rfl, -, -⟩
    · obtain ⟨hagree, hcommitted, haborted⟩ := ih hb
      have hcall : ∀ t, s.pg.txns.lookup i = some t → t.call = c := fun t ht =>
        hsound.once i _ _ (hsound.txns i t ht) (hb.subset List.mem_cons_self)
      -- What was told is in the rows that it began on: it cannot find that there is none.
      have hthere : ∀ t, s.pg.txns.lookup i = some t → Db.campaign t.seen row.id ≠ none := fun t ht hnone => by
        obtain ⟨c0, hc0, -⟩ := (tells_seen hr ht hb hrow).campaign
        rw [hnone] at hc0
        cases hc0
      refine ⟨fun r row' hm hrow' => ?_, fun hm => ?_, fun hm => ?_⟩
      · rcases hstep.committed hm with hold | ⟨t, ht, rfl, hp, hdb⟩
        · exact hagree r row' hold hrow'
        · obtain ⟨hwf, hguar, he⟩ := Lib.ReadCommitted.commit_post hsound.ok ht hp
          obtain ⟨hpersist, hstays⟩ := (answering hr).since i t ht
          obtain ⟨hid, htells, hsince⟩ := ((answering hr).commit hsound.ok ht hp _ hc).1 row' hrow'
          exact (tells_seen hr ht hb hrow).agree hsince (Persist.trans hpersist hguar)
            ((stays _).trans hstays (effect_stays he)) htells hwf hid
      · rcases hstep.committed hm with hold | ⟨t, ht, rfl, hp, -⟩
        · exact hcommitted hold
        · exact hthere t ht (((answering hr).commit hsound.ok ht hp _ hc).2 rfl)
      · rcases hstep.aborted hm with hold | ⟨t, ht, hp | he⟩
        · exact haborted hold
        · obtain rfl := hcall t ht
          exact hthere t ht ((answering hr).rollback ht hp _ hc rfl)
        · cases he
    · have hnew : ∀ t, s.pg.txns.lookup s.next ≠ some t := fun t ht =>
        absurd (hsound.lt _ _ (hsound.txns _ t ht)) (Nat.lt_irrefl _)
      have hfresh : ∀ r, .committed s.next c r ∉ s'.log := fun r hm => by
        rcases hstep.committed hm with hold | ⟨t, ht, -⟩
        · exact absurd (hsound.lt _ _ (hsound.committed _ _ _ hold).1) (Nat.lt_irrefl _)
        · exact hnew t ht
      refine ⟨fun r row' hm => absurd hm (hfresh r), hfresh _, fun hm => ?_⟩
      rcases hstep.aborted hm with hold | ⟨t, ht, -⟩
      · exact absurd (aborted_lt hr hold) (Nat.lt_irrefl _)
      · exact hnew t ht

end SoroFuzz.Queue
