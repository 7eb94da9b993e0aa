/-
  SoroFuzz.Store.Refinement — `MockStore` answers as `PgStore` does.

  The two are related when `MockStore`'s vectors and Postgres's tables hold one and the
  same board. Proved:
  - `lockstep`: an operation that may be asked of related stores, with texts that Postgres
    takes, panics in neither, gets the same result from both, and leaves them related.
  - `mock_refines_pg`: hence for every sequence of operations on empty stores, the results
    are the same one by one exactly when Postgres takes every text.
-/

import SoroFuzz.Store.Session
import SoroFuzz.Store.Sequential
import SoroFuzz.Store.Texts
import SoroFuzz.Lib.Paging
import SoroFuzz.Lib.Replay
import Mathlib.Data.Multiset.MapFold

namespace SoroFuzz.Store

open Lib.Replay

variable {ρ : Renaming} {b : Board} {d : Db} {q : Request}

/-! ## One slot, one finding -/

theorem Slot.record_same (ρ : Renaming) (s : Slot) : s.record.Same ρ (s.pgRecord ρ) :=
  ⟨rfl, rfl, rfl, rfl, rfl, rfl, rfl⟩

theorem Slot.runRecord_same (ρ : Renaming) (s : Slot) (elapsedSecs elapsedSecs' : Int) (findingsCount : Nat) :
    (s.runRecord elapsedSecs findingsCount).Same ρ (s.pgRunRecord ρ elapsedSecs' findingsCount) :=
  ⟨rfl, rfl, rfl, rfl, rfl, rfl, rfl, by simp [runRecord, pgRunRecord], by simp [runRecord, pgRunRecord]⟩

theorem Posted.record_same (ρ : Renaming) (f : Posted) : f.record.Same ρ (f.pgRecord ρ) :=
  ⟨rfl, rfl, rfl, rfl, rfl, rfl, rfl, rfl, rfl, rfl, rfl⟩

theorem option_rel_map {α β γ : Type} {r : β → γ → Prop} {f : α → β} {g : α → γ} (h : ∀ a, r (f a) (g a))
    (o : Option α) : Option.Rel r (o.map f) (o.map g) := by
  cases o with
  | none => exact .none
  | some a => exact .some (h a)

/-! ## Newest first -/

/-- Creation times that differ sort in one way. -/
theorem newestFirst_eq {f : Slot → CampaignRecord} {l : List CampaignRecord} {slots : List Slot}
    (hl : l.Perm (slots.map f)) (hlater : slots.Pairwise fun s t => (f s).createdAt < (f t).createdAt) :
    l.mergeSort (fun a b => b.createdAt ≤ a.createdAt) = (slots.map f).reverse := by
  have hsorted : (slots.map f).reverse.Pairwise fun a b => b.createdAt < a.createdAt :=
    List.pairwise_reverse.mpr (List.pairwise_map.mpr hlater)
  have hperm := (List.mergeSort_perm l fun a b => b.createdAt ≤ a.createdAt).trans (hl.trans (List.reverse_perm _).symm)
  have hmerge : (l.mergeSort fun a b => b.createdAt ≤ a.createdAt).Pairwise
      fun a b => decide (b.createdAt ≤ a.createdAt) = true := by
    refine List.pairwise_mergeSort (fun a b c hab hbc => ?_) (fun a b => ?_) l
    · exact decide_eq_true (Nat.le_trans (of_decide_eq_true hbc) (of_decide_eq_true hab))
    · simpa using Nat.le_total b.createdAt a.createdAt
  have hnd : (slots.map fun s => (f s).createdAt).Nodup := List.pairwise_map.mpr (hlater.imp Nat.ne_of_lt)
  refine hperm.eq_of_pairwise (fun a b ha hb hab hba => ?_) hmerge
    (hsorted.imp fun h => decide_eq_true (Nat.le_of_lt h))
  obtain ⟨s, hs, rfl⟩ := List.mem_map.mp (List.mem_reverse.mp hb)
  obtain ⟨t, ht, rfl⟩ := List.mem_map.mp (hl.mem_iff.mp (List.mem_mergeSort.mp ha))
  have heq : (f t).createdAt = (f s).createdAt := Nat.le_antisymm (of_decide_eq_true hba) (of_decide_eq_true hab)
  exact congrArg f (List.inj_on_of_nodup_map hnd ht hs heq)

/-! ## The step -/

/-- The stores hold the same board. -/
def Related (ρ : Renaming) (m : MockStore) (d : Db) : Prop := ∃ b : Board, m = b.mock ∧ Stored ρ b d

/-- Both stores answer, the same, and stay related. -/
def Agree (ρ : Renaming) (m : MockStore) (d : Db) (q : Request) : Prop :=
  ∃ r m' r' d', MockStore.step m q = some (r, m') ∧ PgStore.renamed ρ d q = some (r', d') ∧ r.Same ρ r' ∧
    Related ρ m' d'

/-- They go to the same board. -/
theorem agree_of {m : MockStore} {b' : Board} {d' : Db} {r r' : Result} (hm : MockStore.step m q = some (r, b'.mock))
    (hp : PgStore.renamed ρ d q = some (r', d')) (hsame : r.Same ρ r') (h : Stored ρ b' d') : Agree ρ m d q :=
  ⟨r, b'.mock, r', d', hm, hp, hsame, b', rfl, h⟩

variable {clock : Nat → DateTime} {now : DateTime} {tie : Uuid → Nat}

theorem agree_getCampaign (h : Stored ρ b d) (id : Uuid) : Agree ρ b.mock d ⟨.getCampaign id, clock, now, tie⟩ := by
  have hm : b.mock.getCampaign id = (b.slots.find? (·.campaignId = id)).map Slot.record := mock_find_campaign id
  have hp := pg_getCampaign h id
  refine agree_of ?_ ?_ (.campaign (option_rel_map (Slot.record_same ρ) (b.slots.find? (·.campaignId = id)))) h
  · simp only [MockStore.step, hm]
  · simp only [PgStore.renamed, PgStore.step, Op.renamed, PgStore.perform, body, hp, Reply.result]

theorem agree_createCampaign (h : Stored ρ b d) {campaignId runId jobId : Uuid} {input : NewCampaign}
    (hv : Creates b.mock d campaignId runId jobId ⟨.createCampaign campaignId runId jobId input, clock, now, tie⟩)
    (hin : input.storable = true) :
    Agree ρ b.mock d ⟨.createCampaign campaignId runId jobId input, clock, now, tie⟩ := by
  generalize hs : Slot.new campaignId runId jobId input ⟨clock 0, now⟩ = s
  have hc : ∀ t ∈ b.slots, t.campaignId ≠ s.campaignId := fun t ht => by
    rw [← hs]; exact hv.campaign _ (List.mem_map_of_mem ht)
  have hr : ∀ t ∈ b.slots, t.runId ≠ s.runId := fun t ht => by
    rw [← hs]; exact hv.run _ (List.mem_map_of_mem ht)
  have hj : ∀ t ∈ b.slots, t.jobId ≠ s.jobId := fun t ht => by
    rw [← hs]; exact hv.job _ (List.mem_map_of_mem ht)
  have hmock : ∀ t ∈ b.slots, t.createdAt.mock < s.createdAt.mock := fun t ht => by
    rw [← hs]; exact hv.later _ (List.mem_map_of_mem ht)
  have hpg : ∀ t ∈ b.slots, t.createdAt.pg < s.createdAt.pg := fun t ht => by
    rw [← hs]; exact hv.pgLater _ (Db.mem_campaigns.mpr (h.slots.campaigns.lookup ht))
  obtain ⟨d', hd', hstored⟩ := pg_createCampaign h _ hin hs hc hr hj hmock hpg
  refine agree_of ?_ ?_ (.created (s.record_same ρ)) hstored
  · subst hs
    simp [MockStore.step, MockStore.createCampaign, Board.mock, Board.add, Slot.new, Slot.record, Slot.mockRun,
      Slot.mockJob, CampaignStatus.mirror]
  · simp only [PgStore.renamed, PgStore.step, Op.renamed, PgStore.perform, body, hd', Reply.result]

theorem agree_cancelCampaign (h : Stored ρ b d) (id : Uuid) :
    Agree ρ b.mock d ⟨.cancelCampaign id, clock, now, tie⟩ := by
  cases hs : b.slots.find? (·.campaignId = id) with
  | none =>
    have hp := pg_cancelCampaign_none h now hs
    refine agree_of ?_ ?_ (.campaign .none) h
    · simp only [MockStore.step, MockStore.cancelCampaign, mock_find_campaign, hs, Option.map_none]
    · simp only [PgStore.renamed, PgStore.step, Op.renamed, PgStore.perform, body, hp, Reply.result]
  | some s =>
    cases hterm : s.status.isTerminal with
    | true =>
      have hm := mock_cancelCampaign_terminal (clock 0) hs hterm
      have hp := pg_cancelCampaign_terminal h now hs hterm
      refine agree_of ?_ ?_ (.campaign (.some (s.record_same ρ))) h
      · simp only [MockStore.step, hm]
      · simp only [PgStore.renamed, PgStore.step, Op.renamed, PgStore.perform, body, hp, Reply.result]
    | false =>
      have hm := mock_cancelCampaign ⟨clock 0, now⟩ hs hterm
      obtain ⟨d', hd', hstored⟩ := pg_cancelCampaign h ⟨clock 0, now⟩ hs hterm
      refine agree_of ?_ ?_ (.campaign (.some ((s.cancel ⟨clock 0, now⟩).record_same ρ))) hstored
      · simp only [MockStore.step, hm]
      · simp only [PgStore.renamed, PgStore.step, Op.renamed, PgStore.perform, body, hd', Reply.result]

theorem agree_claimJob (h : Stored ρ b d) {workerId : String} (hid : storable workerId = true) :
    Agree ρ b.mock d ⟨.claimJob workerId, clock, now, tie⟩ := by
  cases hs : b.slots.find? Slot.claimable with
  | none =>
    have hp := pg_claimJob_none h tie hid now hs
    refine agree_of ?_ ?_ (.claimed .none) h
    · simp only [MockStore.step, MockStore.claimJob, mock_find_job, hs, Option.map_none]
    · simp only [PgStore.renamed, PgStore.step, Op.renamed, PgStore.perform, body, hp, Reply.result]
  | some s =>
    have hm := mock_claimJob workerId now hs
    obtain ⟨d', hd', hstored⟩ := pg_claimJob h tie hid now hs
    have hsame : ClaimedJob.Same ρ ⟨s.jobId, s.campaignId, s.runId, s.attempts + 1⟩
        ⟨ρ.job s.jobId, ρ.campaign s.campaignId, ρ.run s.runId, s.attempts + 1⟩ := ⟨rfl, rfl, rfl, rfl⟩
    refine agree_of ?_ ?_ (.claimed (.some hsame)) hstored
    · simp only [MockStore.step, hm]
    · simp only [PgStore.renamed, PgStore.step, Op.renamed, PgStore.perform, body, hd', Reply.result]

theorem agree_startRun (h : Stored ρ b d) (runId : Uuid) {workerId : String} (hid : storable workerId = true) :
    Agree ρ b.mock d ⟨.startRun runId workerId, clock, now, tie⟩ := by
  by_cases hs : ∃ s, b.slots.find? (·.runId = runId) = some s ∧ s.status = .queued
  · obtain ⟨s, hs, hq⟩ := hs
    have hm := mock_startRun ⟨clock 0, now⟩ workerId hs hq
    obtain ⟨d', hd', hstored⟩ := pg_startRun h hid ⟨clock 0, now⟩ hs hq
    refine agree_of ?_ ?_ (.started true) hstored
    · simp only [MockStore.step, hm]
    · simp only [PgStore.renamed, PgStore.step, Op.renamed, PgStore.perform, body, hd', Reply.result]
  · have hnot : ∀ s, b.slots.find? (·.runId = runId) = some s → s.status ≠ .queued := fun s hf hq => hs ⟨s, hf, hq⟩
    have hm := mock_startRun_not (clock 0) hnot
    have hp := pg_startRun_not h hid now hnot
    refine agree_of ?_ ?_ (.started false) h
    · simp only [MockStore.step, hm]
    · simp only [PgStore.renamed, PgStore.step, Op.renamed, PgStore.perform, body, hp, Reply.result]

/-- The ids generated for the findings are new on the board, and differ. -/
theorem postings_new {s : Slot} {runId : Uuid} {finish : RunFinish} {ids : Nat → Uuid}
    (hv : Finishes b.mock runId finish ids) (clock : Nat → DateTime) (now : DateTime) :
    ((s.postings ids clock now finish.findings 0).map Posted.id).Nodup ∧
      ∀ f ∈ s.postings ids clock now finish.findings 0, ∀ g ∈ b.posted, g.id ≠ f.id := by
  constructor
  · rw [Slot.postings_ids]
    refine List.nodup_range.map_on fun j hj k hk => ?_
    exact hv.distinct j (List.mem_range.mp hj) k (List.mem_range.mp hk)
  · intro f hf g hg
    have hid := List.mem_map_of_mem (f := Posted.id) hf
    rw [Slot.postings_ids, List.mem_map] at hid
    obtain ⟨k, hk, he⟩ := hid
    rw [← he]
    exact hv.new k (List.mem_range.mp hk) g.record (List.mem_map_of_mem hg)

theorem agree_finishRun (h : Stored ρ b d) {runId : Uuid} {finish : RunFinish} {ids : Nat → Uuid}
    (hv : Finishes b.mock runId finish ids) (hfin : finish.storable = true) :
    Agree ρ b.mock d ⟨.finishRun runId finish ids, clock, now, tie⟩ := by
  obtain ⟨r, hr, rfl⟩ := hv.run
  obtain ⟨s, hs, rfl⟩ := List.mem_map.mp hr
  have hfind := Lib.Keyed.find?_id b.runIds hs
  by_cases hrun : s.status = .running
  · obtain ⟨hnd, hnew⟩ := postings_new (s := s) hv (fun k => clock (k + 1)) now
    have hmem : s.finish ⟨clock 0, now⟩ finish ∈
        (b.alter Slot.runId s.runId (Slot.keeps_finish ⟨clock 0, now⟩ finish)).slots :=
      Lib.Keyed.mem_change.mpr ⟨s, hs, if_pos rfl⟩
    have hslot : ∀ f ∈ s.postings ids (fun k => clock (k + 1)) now finish.findings 0, f.Of _ :=
      Slot.postings_of hmem rfl rfl rfl
    have hm := mock_finishRun ⟨clock 0, now⟩ hfind hrun rfl rfl rfl hnd hnew hslot
    obtain ⟨d', hd', hstored⟩ := pg_finishRun ⟨clock 0, now⟩ h hfin hfind hrun rfl rfl hnd hnew hslot
    refine agree_of ?_ ?_ .finished hstored
    · simp only [MockStore.step, Slot.mockRun, hm, Option.map_some]
    · simp only [PgStore.renamed, PgStore.step, Op.renamed, PgStore.perform, body, Slot.mockRun, hd', Reply.result]
  · obtain ⟨hnd, hnew⟩ := postings_new (s := s) hv clock now
    have hslot : ∀ f ∈ s.postings ids clock now finish.findings 0, f.Of b.slots := Slot.postings_of hs rfl rfl rfl
    have hm := mock_finishRun_not ⟨clock 0, now⟩ hfind hrun rfl hnd hnew hslot
    obtain ⟨d', hd', hstored⟩ := pg_finishRun_not ⟨clock 0, now⟩ h hfin hfind hrun rfl hnd hnew hslot
    refine agree_of ?_ ?_ .finished hstored
    · simp only [MockStore.step, Slot.mockRun, hm, Option.map_some]
    · simp only [PgStore.renamed, PgStore.step, Op.renamed, PgStore.perform, body, Slot.mockRun, hd', Reply.result]

theorem agree_getRun (h : Stored ρ b d) (id : Uuid) : Agree ρ b.mock d ⟨.getRun id, clock, now, tie⟩ := by
  cases hs : b.slots.find? (·.runId = id) with
  | none =>
    have hm := mock_getRun_none (clock 0) hs
    have hp := getRun_none h now hs
    refine agree_of ?_ ?_ (.run .none) h
    · simp only [MockStore.step, hm, Option.map_some]
    · simp only [PgStore.renamed, PgStore.step, Op.renamed, hp]
  | some s =>
    have hm := mock_getRun (clock 0) hs
    have hp := getRun_eq h now hs
    have hsame := s.runRecord_same ρ (MockStore.elapsedSecs s.mockRun (clock 0)) (elapsedSecs now (s.runRow ρ))
      (b.posted.filter (·.runId = id)).length
    refine agree_of ?_ ?_ (.run (.some hsame)) h
    · simp only [MockStore.step, hm, Option.map_some]
    · simp only [PgStore.renamed, PgStore.step, Op.renamed, hp]

/-- Lists of the same findings, in whatever order. -/
theorem findings_same {fs fs' : List FindingRecord} {ps : List Posted} (hfs : fs.Perm (ps.map Posted.record))
    (hfs' : fs'.Perm (ps.map (Posted.pgRecord ρ))) : Multiset.Rel (FindingRecord.Same ρ) fs fs' := by
  rw [Multiset.coe_eq_coe.mpr hfs, Multiset.coe_eq_coe.mpr hfs', ← Multiset.map_coe, ← Multiset.map_coe,
    Multiset.rel_map]
  exact Multiset.rel_refl_of_refl_on fun f _ => f.record_same ρ

theorem agree_listFindingsForRun (h : Stored ρ b d) (runId : Uuid) :
    Agree ρ b.mock d ⟨.listFindingsForRun runId, clock, now, tie⟩ := by
  have hsame := findings_same (mock_listFindingsForRun runId) (listFindingsForRun_perm h runId)
  exact agree_of rfl rfl (.findings hsame) h

theorem agree_getFinding (h : Stored ρ b d) (id : Uuid) : Agree ρ b.mock d ⟨.getFinding id, clock, now, tie⟩ := by
  have hm : b.mock.getFinding id = (b.posted.find? (·.id = id)).map Posted.record := List.find?_map
  have hp := getFinding_eq h id
  refine agree_of ?_ ?_ (.finding (option_rel_map (Posted.record_same ρ) (b.posted.find? (·.id = id)))) h
  · simp only [MockStore.step, hm]
  · simp only [PgStore.renamed, PgStore.step, Op.renamed, hp]

theorem mock_listCampaigns (filter : CampaignFilter) :
    b.mock.listCampaigns filter =
      (((((b.slots.filter fun s => filter.matches_ s.record).map Slot.record).reverse).drop
        (max filter.offset 0).toNat).take (max filter.limit 0).toNat) := by
  have hfilter : (((b.mock.campaigns.filter (fun c => filter.status.all (c.status = ·))).filter
      (fun c => filter.targetId.all (c.targetId = ·))).filter (fun c => filter.since.all (c.createdAt ≥ ·))).filter
        (fun c => filter.until_.all (c.createdAt ≤ ·)) =
      (b.slots.filter fun s => filter.matches_ s.record).map Slot.record := by
    rw [List.filter_filter, List.filter_filter, List.filter_filter,
      show b.mock.campaigns = b.slots.map Slot.record from rfl, List.filter_map]
    congr 2
    funext s
    rw [Bool.eq_iff_iff]
    simp only [Function.comp_apply, CampaignFilter.matches_, Bool.and_eq_true]
    tauto
  have hsort := newestFirst_eq (List.Perm.of_eq hfilter) (b.mock_later.filter _)
  rw [MockStore.listCampaigns, hsort]
  exact Lib.Paging.slice_eq _ _ _

/-- The filter tells the same slots apart on both clocks. -/
theorem matches_eq (h : Stored ρ b d) {filter : CampaignFilter} (hv : Lists ρ b.mock d filter) {s : Slot}
    (hs : s ∈ b.slots) : filter.matches_ (s.pgRecord ρ) = filter.matches_ s.record := by
  have hrow : s.campaignRow ∈ d.campaign (ρ.campaign s.campaignId) := h.slots.campaigns.lookup hs
  have hsince : filter.since.all (· ≤ s.createdAt.mock) = filter.since.all (· ≤ s.createdAt.pg) :=
    hv.since s.record (List.mem_map_of_mem hs) s.campaignRow hrow
  have huntil : filter.until_.all (s.createdAt.mock ≤ ·) = filter.until_.all (s.createdAt.pg ≤ ·) :=
    hv.until_ s.record (List.mem_map_of_mem hs) s.campaignRow hrow
  exact congrArg₂ (· && ·) (congrArg₂ (· && ·) rfl hsince.symm) huntil.symm

theorem pg_listCampaigns (h : Stored ρ b d) {filter : CampaignFilter} (hv : Lists ρ b.mock d filter)
    (htarget : filter.storable = true) :
    listCampaigns d filter =
      some ((((b.slots.filter fun s => filter.matches_ s.record).map (Slot.pgRecord ρ)).reverse.drop
        filter.offset.toNat).take filter.limit.toNat) := by
  have hfilter : ((selectCampaignWithRun d).filter filter.matches_).Perm
      ((b.slots.filter fun s => filter.matches_ s.record).map (Slot.pgRecord ρ)) := by
    refine ((selectCampaignWithRun_perm h).filter _).trans (List.Perm.of_eq ?_)
    rw [List.filter_map]
    exact congrArg _ (List.filter_congr fun s hs => matches_eq h hv hs)
  have hpage : ¬ (filter.storable = false ∨ filter.limit < 0 ∨ filter.offset < 0) := by
    rintro (hno | hlimit | hoffset)
    · rw [htarget] at hno
      cases hno
    · exact Int.not_lt.mpr hv.limit hlimit
    · exact Int.not_lt.mpr hv.offset hoffset
  rw [listCampaigns, if_neg hpage]
  dsimp only
  rw [newestFirst_eq hfilter (b.pg_later.filter _)]

theorem page_same (slots : List Slot) (offset limit : Nat) :
    List.Forall₂ (CampaignRecord.Same ρ) (((slots.map Slot.record).reverse.drop offset).take limit)
      (((slots.map (Slot.pgRecord ρ)).reverse.drop offset).take limit) := by
  rw [← List.map_reverse, ← List.map_reverse, ← List.map_drop, ← List.map_drop, ← List.map_take, ← List.map_take,
    List.forall₂_map_left_iff, List.forall₂_map_right_iff, List.forall₂_same]
  exact fun s _ => s.record_same ρ

theorem agree_listCampaigns (h : Stored ρ b d) {filter : CampaignFilter} (hv : Lists ρ b.mock d filter)
    (htarget : filter.storable = true) : Agree ρ b.mock d ⟨.listCampaigns filter, clock, now, tie⟩ := by
  have hm := mock_listCampaigns (b := b) filter
  have hp := pg_listCampaigns h hv htarget
  rw [Int.max_eq_left hv.offset, Int.max_eq_left hv.limit] at hm
  refine agree_of ?_ ?_ (.campaigns (page_same (b.slots.filter fun s => filter.matches_ s.record) filter.offset.toNat
    filter.limit.toNat)) h
  · simp only [MockStore.step, hm]
  · simp only [PgStore.renamed, PgStore.step, Op.renamed, hp]

/-- An operation that may be asked, with texts that Postgres takes. -/
theorem lockstep (ρ : Renaming) :
    Lockstep MockStore.step (PgStore.renamed ρ) (fun m d q => Valid ρ m d q ∧ q.op.storable = true) (Result.Same ρ)
      (Related ρ) := by
  intro m d q hr hok
  obtain ⟨hv, htexts⟩ := hok
  obtain ⟨b, rfl, h⟩ := hr
  obtain ⟨op, clock, now, tie⟩ := q
  cases op with
  | createCampaign campaignId runId jobId input => exact agree_createCampaign h hv htexts
  | listCampaigns filter => exact agree_listCampaigns h hv htexts
  | getCampaign id => exact agree_getCampaign h id
  | cancelCampaign id => exact agree_cancelCampaign h id
  | claimJob workerId => exact agree_claimJob h htexts
  | startRun runId workerId => exact agree_startRun h runId htexts
  | finishRun runId finish ids => exact agree_finishRun h hv htexts
  | getRun id => exact agree_getRun h id
  | listFindingsForRun runId => exact agree_listFindingsForRun h runId
  | getFinding id => exact agree_getFinding h id

theorem perform_refused {d : Db} {now : DateTime} {c : Call} (h : c.storable = false) :
    PgStore.perform d now c = some (.error, d) := by
  rw [PgStore.perform, alone_refused h]
  rfl

/-- A text that Postgres does not take makes `PgStore` fail. -/
theorem pg_refused (ρ : Renaming) (d : Db) (h : q.op.storable = false) :
    PgStore.renamed ρ d q = some (.error, d) := by
  obtain ⟨op, clock, now, tie⟩ := q
  cases op with
  | createCampaign campaignId runId jobId input =>
    exact perform_refused (c := .createCampaign (ρ.campaign campaignId) (ρ.run runId) (ρ.job jobId) input) h
  | listCampaigns filter =>
    have hnone : listCampaigns d filter = none := if_pos (Or.inl h)
    simp only [PgStore.renamed, PgStore.step, Op.renamed, hnone]
  | claimJob workerId => exact perform_refused (c := .claimJob tie workerId) h
  | startRun runId workerId => exact perform_refused (c := .startRun (ρ.run runId) workerId) h
  | finishRun runId finish ids =>
    exact perform_refused (c := .finishRun (ρ.run runId) finish fun k => ρ.finding (ids k)) h
  | getCampaign | cancelCampaign | getRun | listFindingsForRun | getFinding => cases h

/-- And nothing that `MockStore` returns is the same as an error. -/
theorem storable_of_replay {m : MockStore} {qs : List Request} {rs ss : List Result}
    (hrs : replay MockStore.step m qs = some rs) (hss : replay (PgStore.renamed ρ) d qs = some ss)
    (hsame : List.Forall₂ (Result.Same ρ) rs ss) : ∀ q ∈ qs, q.op.storable = true := by
  refine forall_of_replay (p := fun q : Request => q.op.storable = true) (fun m d q r m' r' d' _ hp hrr => ?_) hrs hss
    hsame
  by_contra hno
  rw [pg_refused ρ d (Bool.not_eq_true _ ▸ hno)] at hp
  cases hp
  cases hrr

/-- Whatever is asked, one operation at a time, both stores answer it, and the same,
    exactly when it has no text that Postgres does not take. -/
theorem mock_refines_pg (ρ : Renaming) (qs : List Request)
    (h : Admits MockStore.step (PgStore.renamed ρ) (Valid ρ) .empty ∅ qs) :
    (∃ rs ss, replay MockStore.step .empty qs = some rs ∧ replay (PgStore.renamed ρ) ∅ qs = some ss ∧
      List.Forall₂ (Result.Same ρ) rs ss) ↔ ∀ q ∈ qs, q.op.storable = true := by
  constructor
  · rintro ⟨rs, ss, hrs, hss, hsame⟩
    exact storable_of_replay hrs hss hsame
  · exact fun htexts => (lockstep ρ).replay ⟨.empty, rfl, stored_empty ρ⟩ (h.and htexts)

def shifted : Renaming :=
  ⟨(· + 10), (· + 20), (· + 30), (· + 40), fun _ _ => Nat.add_right_cancel, fun _ _ => Nat.add_right_cancel,
    fun _ _ => Nat.add_right_cancel, fun _ _ => Nat.add_right_cancel⟩

/-- The operation, asked `t` seconds later. -/
def ask (op : Op) (t : Nat) : Request := ⟨op, fun k => 100 * t + k, 1000 * t, fun _ => 0⟩

/-- Two campaigns: the older one is claimed, started, finished with a finding and listed,
    the other is cancelled, and then finished though it never ran. -/
theorem mock_refines_pg_two_campaigns :
    let finding : NewFinding := ⟨"solvency", "bank is short", 3, [], none, "token", "crash-1", false⟩
    let qs := [ask (.createCampaign 1 1 1 ⟨"token", "first", [], 60⟩) 1,
      ask (.createCampaign 2 2 2 ⟨"token", "second", [], 60⟩) 2,
      ask (.claimJob "worker") 3, ask (.startRun 1 "worker") 4, ask (.cancelCampaign 2) 5,
      ask (.finishRun 1 ⟨.completed, 500, none, [finding]⟩ fun k => k) 6,
      ask (.finishRun 2 ⟨.failed, 0, none, [finding]⟩ fun k => k + 1) 7,
      ask (.listCampaigns ⟨none, some "token", some 0, none, 10, 0⟩) 8, ask (.getRun 1) 9,
      ask (.listFindingsForRun 1) 10]
    ∃ rs ss, replay MockStore.step .empty qs = some rs ∧ replay (PgStore.renamed shifted) ∅ qs = some ss ∧
      List.Forall₂ (Result.Same shifted) rs ss :=
  (mock_refines_pg _ _ (by decide)).mpr (by decide)

/-- `MockStore` creates a campaign with a U+0000 in its name. -/
theorem nul_name_refused : ¬ ∀ (ρ : Renaming) (qs : List Request),
    Admits MockStore.step (PgStore.renamed ρ) (Valid ρ) .empty ∅ qs →
      ∃ rs ss, replay MockStore.step .empty qs = some rs ∧ replay (PgStore.renamed ρ) ∅ qs = some ss ∧
        List.Forall₂ (Result.Same ρ) rs ss := by
  intro hall
  obtain ⟨rs, ss, hrs, hss, hsame⟩ :=
    hall shifted [ask (.createCampaign 1 1 1 ⟨"token", "night\x00ly", [], 60⟩) 1] (by decide)
  exact absurd (storable_of_replay hrs hss hsame _ List.mem_cons_self) (by decide)

end SoroFuzz.Store
