/-
  SoroFuzz.Store.Commit — every method of `PgStore` commits its `Effect`, in every
  interleaving of the methods' statements.

  A method's statements see rows committed at different times, but the rows it writes
  stay locked until it commits. So its commit acts at once on the rows committed just
  before it.

  Proved, for any condition `ok` on the campaign status that `cancel_campaign`'s UPDATE
  may find (nothing at all, for the interleavings as they are):
  - `meets_cancelCampaign`, `meets_startRun`, `meets_finishRun`, ...: each method, alone.
  - `body_meets`: hence every method, which is what `ReadCommitted.run_ok` asks for.
-/

import SoroFuzz.Store.Effect
import SoroFuzz.Store.Pick

namespace SoroFuzz.Store

open Lib.ReadCommitted
open Lib.Sql

/-! ## The methods meet it -/

/-- What the store's transactions keep and promise. The one assumption is on what
    `cancel_campaign` overwrites. -/
def storeSpec (ok : CampaignStatus → Prop) : Lib.ReadCommitted.Spec Row Call Sql Reply where
  inv _ d := Wf d
  inv_later _ h := h
  guar := Persist
  guar_refl := Persist.refl
  guar_trans := Persist.trans
  assume c _ l v := l = .cancelCampaign → ∀ id row, c = .cancelCampaign id →
    v.rows.lookup (.campaigns id) = some row → ok row.status
  refuse _ r := r = .error ∨ r = .campaign none
  post c b d0 r d d' := Effect ok b d0 c r d d'

section meets
variable {ok : CampaignStatus → Prop} {c : Call} {b n : Nat} {d0 d : Db}

theorem meets_commit {r : Reply} {ws : List Write}
    (h : ∀ n' d', Rely (storeSpec ok) ws n d n' d' → Effect ok b d0 c r d' (applyAll ws d')) :
    Meets (storeSpec ok) c b d0 (.commit r) ws n d := by
  intro n' d' hr
  have he := h n' d' hr
  exact ⟨effect_wf hr.inv he, effect_persist hr.inv he, he⟩

theorem campaignWithRun_some {d : Db} {id : Uuid} {row : CampaignRecord} (h : campaignWithRun d id = some row) :
    ∃ c, d.campaign id = some c ∧ c.status = row.status := by
  have hid : row.id = id := by simpa using List.find?_some h
  have hm := List.mem_of_find?_eq_some h
  obtain ⟨⟨i, c⟩, hc, hrow⟩ := List.mem_flatMap.mp hm
  obtain ⟨⟨j, r⟩, -, rfl⟩ := List.mem_map.mp hrow
  exact ⟨c, hid ▸ Db.mem_campaigns.mp hc, rfl⟩

theorem meets_getCampaign {id : Uuid} : Meets (storeSpec ok) (.getCampaign id) b d (getCampaign id) [] n d :=
  meets_select fun _ _ _ _ _ => meets_commit fun _ _ _ => .got id _

/-- The UPDATE of the campaign holds its row, so the run it then updates is still the
    campaign's, and its status is whatever the campaign's mirrors. -/
theorem meets_cancelCampaign {id : Uuid} :
    Meets (storeSpec ok) (.cancelCampaign id) b d (cancelCampaign id b) [] n d := by
  refine meets_select fun n1 d1 _ _ _ => ?_
  split
  · exact Or.inr rfl
  · rename_i current hcur
    obtain ⟨c0, hc0, hst⟩ := campaignWithRun_some hcur
    split
    · rename_i hterm
      refine meets_commit fun n2 d2 hr => ?_
      obtain ⟨c2, hc2, hle⟩ := hr.guar.campaign id c0 hc0
      exact .cancelNoop id current c2 hterm hc2 (hst ▸ hle)
    · refine meets_update fun n2 (d2 : Db) _ hr ha => ?_
      obtain ⟨c2, hc2, -⟩ := hr.guar.campaign id c0 hc0
      have hok : ok c2.status := ha rfl id c2 rfl hc2
      rw [applyAll_nil, updates_campaigns hc2 rfl fun _ _ _ h => h]
      refine meets_update fun n3 (d3 : Db) _ hr3 _ => ?_
      have hc3 : d3.campaign id = some c2 := (hr3.own _ (by simp)).trans hc2
      obtain ⟨runId, r3, hrun3, hcid⟩ := hr3.inv.campaignRun id c2 hc3
      rw [updates_runs ((lookup_applyAll_other _ _ (by simp)).trans hrun3) hcid fun i r1 hl h =>
        hr3.inv.runUnique i runId r1 r3 ((lookup_applyAll_other _ _ (by simp)).symm.trans hl) hrun3 (h.trans hcid.symm)]
      refine meets_commit fun n4 (d4 : Db) hr4 => ?_
      have hc4 : d4.campaign id = some c2 := (hr4.own _ (by simp)).trans hc3
      have hrun4 : d4.run runId = some r3 := (hr4.own _ (by simp)).trans hrun3
      refine .cancelled id runId _ c2 r3 rfl hc4 hok hrun4 hcid ⟨?_, ?_, ?_⟩ ?_ <;> simp

theorem meets_claimJob {tie : Uuid → Nat} {workerId : String} :
    Meets (storeSpec ok) (.claimJob tie workerId) b d (claimJob tie workerId b) [] n d := by
  refine binding_elim (motive := fun p => Meets (storeSpec ok) (.claimJob tie workerId) b d p [] n d) (Or.inl rfl) fun _ => ?_
  refine meets_updatePicked fun n1 (d1 : Db) locked hr => ?_
  dsimp only
  cases hp : oldest tie (claimable ⟨applyAll [] d1, locked⟩) with
  | none => exact meets_commit fun _ d2 _ => Effect.claimedNone (d := d2) tie workerId
  | some e =>
    obtain ⟨id, jq⟩ := e
    have hm := List.mem_filter.mp (oldest_mem hp)
    have hj : d1.job id = some jq := Db.mem_jobQueue.mp hm.1
    have hnone : jq.claimedBy = none := (of_decide_eq_true hm.2).1
    refine meets_commit fun n2 (d2 : Db) hr2 => ?_
    have hj2 : d2.job id = some jq := (hr2.own _ (by simp)).trans hj
    exact Effect.claimed tie workerId id jq hj2 hnone

theorem meets_createCampaign {campaignId runId jobId : Uuid} {input : NewCampaign} :
    Meets (storeSpec ok) (.createCampaign campaignId runId jobId input) b d
      (createCampaign campaignId runId jobId input b) [] n d := by
  refine meets_insertRow (fun _ _ _ => Or.inl rfl) fun n1 (d1 : Db) hr1 hk1 _ => ?_
  refine meets_insertRow (fun _ _ _ => Or.inl rfl) fun n2 (d2 : Db) hr2 hk2 _ => ?_
  refine meets_insertRow (fun _ _ _ => Or.inl rfl) fun n3 (d3 : Db) hr3 hk3 _ => ?_
  refine meets_select fun n4 (d4 : Db) _ hr4 _ => ?_
  split
  · refine meets_commit fun n5 (d5 : Db) hr5 => ?_
    have hc : d5.campaign campaignId = none := by
      rw [Db.campaign, hr5.own _ (by simp), hr4.own _ (by simp), hr3.own _ (by simp),
        hr2.own _ (by simp), ← AList.lookup_eq_none.mpr hk1, applyAll_nil]
    have hrun : d5.run runId = none := by
      rw [Db.run, hr5.own _ (by simp), hr4.own _ (by simp), hr3.own _ (by simp),
        ← AList.lookup_eq_none.mpr hk2, lookup_applyAll_other _ _ (by simp)]
    have hj : d5.job jobId = none := by
      rw [Db.job, hr5.own _ (by simp), hr4.own _ (by simp),
        ← AList.lookup_eq_none.mpr hk3, lookup_applyAll_other _ _ (by simp)]
    exact .created campaignId runId jobId input _ hc hrun hj
  · exact Or.inl rfl

/-- `ws` deletes findings, and nothing else. -/
structure Erasing (ws : List Write) : Prop where
  keys : ∀ k, (∀ i, k ≠ .findings i) → wrote ws k = false
  rows : ∀ w ∈ ws, w.row = none

section erasing
variable {ws : List Write}

theorem Erasing.campaign_eq (h : Erasing ws) (D : Db) (i : Uuid) : Db.campaign (applyAll ws D) i = D.campaign i :=
  lookup_applyAll_other _ _ (h.keys _ (by simp))

theorem Erasing.run_eq (h : Erasing ws) (D : Db) (i : Uuid) : Db.run (applyAll ws D) i = D.run i :=
  lookup_applyAll_other _ _ (h.keys _ (by simp))

theorem Erasing.job_eq (h : Erasing ws) (D : Db) (i : Uuid) : Db.job (applyAll ws D) i = D.job i :=
  lookup_applyAll_other _ _ (h.keys _ (by simp))

theorem Erasing.finding_of (h : Erasing ws) {D : Db} {i : Uuid} {f : FindingRow}
    (hf : Db.finding (applyAll ws D) i = some f) : D.finding i = some f := by
  by_cases hi : wrote ws (.findings i) = true
  · rw [Db.finding, lookup_erases ws D h.rows hi] at hf
    cases hf
  · rwa [Db.finding, lookup_applyAll_other ws D (by simpa using hi)] at hf

end erasing

/-- The UPDATE of the run holds its row: the campaign, which mirrors it, is still queued
    when its own UPDATE runs. -/
theorem meets_startRun {runId : Uuid} {workerId : String} :
    Meets (storeSpec ok) (.startRun runId workerId) b d (startRun runId workerId b) [] n d := by
  refine binding_elim (motive := fun p => Meets (storeSpec ok) (.startRun runId workerId) b d p [] n d) (Or.inl rfl) fun _ => ?_
  refine meets_update fun n1 (d1 : Db) _ hr1 _ => ?_
  by_cases hp : ∃ r, d1.run runId = some r ∧ r.status = .pending
  · obtain ⟨r, hr, hst⟩ := hp
    rw [applyAll_nil, updates_runs hr ⟨rfl, hst⟩ fun _ _ _ h => h.1]
    refine meets_delete fun n2 (d2 : Db) hr2 => ?_
    refine meets_update fun n3 (d3 : Db) _ hr3 _ => ?_
    set dels := deletes _ _
    have herase : Erasing dels := by
      refine ⟨fun k hk => ?_, deletes_rows⟩
      cases k with
      | findings i => exact absurd rfl (hk i)
      | _ => exact wrote_deletes_of fun _ => rfl
    have hrun3 : d3.run runId = some r := by
      rw [← hr, Db.run, hr3.own _ (by simp), hr2.own _ (by simp)]; rfl
    obtain ⟨c, hc3⟩ := hr3.inv.runCampaign runId r hrun3
    have hq : c.status = .queued := by
      have hm := hr3.inv.mirror runId r c hrun3 hc3
      rw [hst] at hm
      exact CampaignStatus.mirror_injective hm.symm
    have hc3' : (applyAll (([] ++ puts [⟨Key.runs runId,
        { r with status := .running, startedAt := some b, worker := some workerId }⟩]) ++ dels) d3).lookup
          (.campaigns r.campaignId) = some c := by
      rw [applyAll_append]
      exact (herase.campaign_eq _ _).trans (by simpa using hc3)
    rw [updates_campaigns hc3' ⟨rfl, hq⟩ fun _ _ _ h => h.1]
    refine meets_commit fun n4 (d4 : Db) hr4 => ?_
    have hrun4 : d4.run runId = some r := (hr4.own _ (by simp)).trans hrun3
    have hc4 : d4.campaign r.campaignId = some c := (hr4.own _ (by simp)).trans hc3
    have hw : ∀ i, wrote dels (.findings i) = true → ∃ f, d4.finding i = some f ∧ f.runId = runId := by
      intro i hi
      obtain ⟨f, hf, hfr⟩ := wrote_deletes.mp hi
      refine ⟨f, ?_, by simpa using hfr⟩
      rw [Db.finding, hr4.own _ (by simp [hi]), hr3.own _ (by simp [hi]), ← hf,
        lookup_applyAll_other _ _ (by simp)]
    refine .started runId workerId c r hrun4 hst hc4 hq ⟨?_, ?_, ?_⟩ ?_ ?_
    · simp [applyAll_append, herase.campaign_eq]
    · simp [applyAll_append, herase.run_eq]
    · simp [applyAll_append, herase.job_eq]
    · intro i f hf
      simp [applyAll_append] at hf
      simpa [Db.finding] using herase.finding_of hf
    · intro i f hf hne
      have hi : wrote dels (.findings i) = false := by
        by_contra hi
        obtain ⟨g, hg, hgr⟩ := hw i (by simpa using hi)
        rw [hg] at hf; cases hf
        exact hne hgr
      simp [applyAll_append]
      rw [Db.finding, lookup_applyAll_other dels _ hi]
      simpa [Db.finding] using hf
  · rw [applyAll_nil, updates_runs_nil (by
      intro i r hr h
      exact hp ⟨r, h.1 ▸ hr, h.2⟩)]
    exact meets_commit fun _ d2 hr2 => Effect.startedNot (d := d2) d1 runId workerId hr1.guar hr2.guar
      fun r hr hst => hp ⟨r, hr, hst⟩

/-- Where `insertFindings` is: it has written `ws`, which is `base` and the findings `fs`. -/
structure Inserting (base ws : List Write) (d : Db) (runId : Uuid) (fs : List NewFinding) (ids : Nat → Uuid)
    (b : DateTime) : Prop where
  held : ∀ k, wrote base k = true → wrote ws k = true
  tables : ∀ k, (∀ i, k ≠ .findings i) → ∀ D, (applyAll ws D).lookup k = (applyAll base D).lookup k
  written : ∀ i, wrote ws (.findings i) = true ↔ ∃ k < fs.length, ids k = i
  new : ∀ k f, fs[k]? = some f → ∀ D, Db.finding (applyAll ws D) (ids k) = some ⟨runId, f, b⟩
  fresh : ∀ k < fs.length, d.finding (ids k) = none
  distinct : ∀ j < fs.length, ∀ k < fs.length, ids j = ids k → j = k
  run : fs ≠ [] → ∃ r, d.run runId = some r

variable {base ws : List Write} {runId : Uuid} {fs : List NewFinding} {ids : Nat → Uuid}

theorem Inserting.nil (h : ∀ i, wrote base (.findings i) = false) : Inserting base base d runId [] ids b :=
  ⟨fun _ hk => hk, fun _ _ _ => rfl, by simp [h], by simp, by simp, by simp, by simp⟩

theorem Inserting.campaign_eq (h : Inserting base ws d runId fs ids b) (D : Db) (i : Uuid) :
    Db.campaign (applyAll ws D) i = Db.campaign (applyAll base D) i := h.tables _ (by simp) D

theorem Inserting.run_eq (h : Inserting base ws d runId fs ids b) (D : Db) (i : Uuid) :
    Db.run (applyAll ws D) i = Db.run (applyAll base D) i := h.tables _ (by simp) D

theorem Inserting.job_eq (h : Inserting base ws d runId fs ids b) (D : Db) (i : Uuid) :
    Db.job (applyAll ws D) i = Db.job (applyAll base D) i := h.tables _ (by simp) D

theorem Inserting.rely {n' : Nat} {d' : Db} (h : Inserting base ws d runId fs ids b)
    (hr : Rely (storeSpec ok) ws n d n' d') :
    Inserting base ws d' runId fs ids b where
  held := h.held
  tables := h.tables
  written := h.written
  new := h.new
  fresh k hk := (hr.own _ ((h.written _).mpr ⟨k, hk, rfl⟩)).trans (h.fresh k hk)
  distinct := h.distinct
  run hne := by
    obtain ⟨r, hrun⟩ := h.run hne
    obtain ⟨r', hrun', -⟩ := hr.guar.run runId r hrun
    exact ⟨r', hrun'⟩

theorem Inserting.insert {f : NewFinding} (h : Inserting base ws d runId fs ids b)
    (hk : .findings (ids fs.length) ∉ applyAll ws d) (hrun : ∃ r, d.run runId = some r) :
    Inserting base (ws ++ [⟨.findings (ids fs.length), some ⟨runId, f, b⟩⟩]) d runId (fs ++ [f]) ids b := by
  have hnew : ∀ k < fs.length, ids k ≠ ids fs.length := by
    intro k hlt e
    have hf := h.new k _ (List.getElem?_eq_getElem hlt) d
    rw [e, Db.finding, AList.lookup_eq_none.mpr hk] at hf
    cases hf
  have hfresh : d.finding (ids fs.length) = none := by
    have hw : wrote ws (.findings (ids fs.length)) = false := by
      rw [← Bool.not_eq_true, h.written]
      intro hm
      obtain ⟨k, hlt, e⟩ := hm
      exact hnew k hlt e
    rw [Db.finding, ← lookup_applyAll_other ws d hw]
    exact AList.lookup_eq_none.mpr hk
  have hsplit : ∀ k < (fs ++ [f]).length, k < fs.length ∨ k = fs.length := by
    intro k hk
    simp at hk
    omega
  refine ⟨fun k hk => by simp [h.held k hk], fun k hk D => ?_, fun i => ?_, fun k g hg D => ?_, fun k hk => ?_,
    fun j hj k hk e => ?_, fun _ => hrun⟩
  · rw [applyAll_append, ← h.tables k hk D]
    exact AList.lookup_insert_ne (hk _)
  · simp only [wrote_append, wrote_cons, wrote_nil, Bool.or_eq_true, h.written, Bool.or_false, decide_eq_true_eq,
      Key.findings.injEq, List.length_append, List.length_singleton]
    constructor
    · intro hm
      obtain ⟨k, hlt, e⟩ | e := hm
      · exact ⟨k, by omega, e⟩
      · exact ⟨fs.length, by omega, e⟩
    · intro hm
      obtain ⟨k, hlt, e⟩ := hm
      rcases hsplit k (by simpa using hlt) with hlt | rfl
      · exact Or.inl ⟨k, hlt, e⟩
      · exact Or.inr e
  · simp only [applyAll_append, applyAll_cons, applyAll_nil, apply_some, Db.finding_insert]
    rcases hsplit k (List.getElem?_eq_some_iff.mp hg).1 with hlt | rfl
    · rw [if_neg (hnew k hlt)]
      rw [List.getElem?_append_left hlt] at hg
      exact h.new k g hg D
    · simp at hg
      rw [if_pos rfl, hg]
  · rcases hsplit k hk with hlt | rfl
    · exact h.fresh k hlt
    · exact hfresh
  · rcases hsplit j hj with hj | rfl <;> rcases hsplit k hk with hk | rfl
    · exact h.distinct j hj k hk e
    · exact absurd e (hnew j hj)
    · exact absurd e.symm (hnew k hk)
    · rfl

theorem Inserting.added (h : Inserting base ws d runId fs ids b) : Added d (applyAll ws d) runId fs ids b where
  fresh := h.fresh
  distinct := h.distinct
  new k f hf := h.new k f hf d
  other i hi := lookup_applyAll_other ws d (by
    rw [← Bool.not_eq_true, h.written]
    intro hm
    obtain ⟨k, hlt, e⟩ := hm
    exact hi k hlt e)
  run := h.run

/-- The loop ends with every finding added, and the other tables as `base` has them. -/
theorem meets_insertFindings (base : List Write) (fs : List NewFinding) {all : List NewFinding}
    (hfk : ∀ n' d', Rely (storeSpec ok) base n d n' d' →
      Db.run (applyAll base d') runId ≠ none → ∃ r, Db.run d' runId = some r)
    (hend : ∀ n' d' ws, Rely (storeSpec ok) base n d n' d' → Inserting base ws d' runId all ids b →
      Effect ok b d0 c .finished d' (applyAll ws d'))
    (hall : all = fs ++ gs) (h : Inserting base ws d runId fs ids b) :
    Meets (storeSpec ok) c b d0 (insertFindings runId ids b gs fs.length) ws n d := by
  induction gs generalizing fs ws n d with
  | nil =>
    rw [List.append_nil] at hall
    subst hall
    exact meets_commit fun n' d' hr => hend n' d' ws
      ⟨hr.later, hr.inv, hr.guar, fun k hk => hr.own k (h.held k hk)⟩ (h.rely hr)
  | cons g gs ih =>
    refine meets_insertRow (fun _ _ _ => Or.inl rfl) fun n' (d' : Db) hr hk hv => ?_
    have hrb : Rely (storeSpec ok) base n d n' d' := ⟨hr.later, hr.inv, hr.guar, fun k hk => hr.own k (h.held k hk)⟩
    have hrun : ∃ r, d'.run runId = some r := by
      refine hfk n' d' hrb ?_
      rw [← h.run_eq]
      exact of_decide_eq_false (Bool.or_eq_false_iff.mp hv).1
    have hi := (h.rely hr).insert (f := g) hk hrun
    have := ih (fs ++ [g]) (fun n'' d'' hr' => hfk n'' d'' (hrb.trans _ hr'))
      (fun n'' d'' ws hr' => hend n'' d'' ws (hrb.trans _ hr')) (by rw [hall]; simp) hi
    simpa using this

/-- The UPDATE of the run holds its row, so the campaign it then updates is the run's. -/
theorem meets_finishRun {finish : RunFinish} :
    Meets (storeSpec ok) (.finishRun runId finish ids) b d (finishRun runId finish ids b) [] n d := by
  refine binding_elim (motive := fun p => Meets (storeSpec ok) (.finishRun runId finish ids) b d p [] n d) (Or.inl rfl) fun _ => ?_
  refine meets_update fun n1 (d1 : Db) _ hr1 _ => ?_
  by_cases hp : ∃ r, d1.run runId = some r ∧ r.status = .running
  · obtain ⟨r, hr, hst⟩ := hp
    rw [applyAll_nil, updates_runs hr ⟨rfl, hst⟩ fun _ _ _ h => h.1]
    refine meets_update fun n2 (d2 : Db) _ hr2 _ => ?_
    have hrun2 : d2.run runId = some r := (hr2.own _ (by simp)).trans hr
    obtain ⟨c, hc2⟩ := hr2.inv.runCampaign runId r hrun2
    rw [updates_campaigns ((lookup_applyAll_other _ _ (by simp)).trans hc2) rfl fun _ _ _ h => h]
    refine meets_insertFindings _ [] (fun n' d' hr' _ => ⟨r, (hr'.own _ (by simp)).trans hrun2⟩)
      (fun n' d' ws hr' hi => ?_) rfl (.nil (by simp))
    have hrun : Db.run d' runId = some r := (hr'.own _ (by simp)).trans hrun2
    have hc : Db.campaign d' r.campaignId = some c := (hr'.own _ (by simp)).trans hc2
    refine .finished runId finish ids c r hrun hst hc ⟨fun i => ?_, fun i => ?_, fun i => ?_⟩ hi.added
    · rw [hi.campaign_eq]; simp
    · rw [hi.run_eq]; simp
    · rw [hi.job_eq]; simp
  · rw [applyAll_nil, updates_runs_nil (by
      intro i r hr h
      exact hp ⟨r, h.1 ▸ hr, h.2⟩)]
    refine meets_insertFindings [] [] (fun n' d' _ hne => Option.ne_none_iff_exists'.mp hne)
      (fun n' d' ws hr' hi => ?_) rfl (.nil (by simp))
    exact .finishedNot d1 runId finish ids hr1.guar hr'.guar (fun r hr hst => hp ⟨r, hr, hst⟩)
      ⟨hi.campaign_eq _, hi.run_eq _, hi.job_eq _⟩ hi.added

end meets

theorem body_meets (ok : CampaignStatus → Prop) (c : Call) (n : Nat) (d : Db) (_ : Wf d) :
    Meets (storeSpec ok) c n d (body c n) [] n d := by
  cases c with
  | createCampaign => exact meets_createCampaign
  | getCampaign => exact meets_getCampaign
  | cancelCampaign => exact meets_cancelCampaign
  | claimJob => exact meets_claimJob
  | startRun => exact meets_startRun
  | finishRun => exact meets_finishRun

end SoroFuzz.Store
