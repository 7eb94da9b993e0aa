/-
  SoroFuzz.Api.Pages — a reader of `GET /campaigns` who asks for pages of one size in
  turn (`api/campaigns.rs`), on either store (`store/mock.rs`, `store/postgres.rs`).

  `MockStore` sorts stably, so all its pages are of one order. Postgres sorts for every
  query, by `created_at` alone, and is free to order rows created at the same time
  differently each time. What an answer may be is the relation `Lists`.

  Proved:
  - `listCampaigns_lists`: what `Store.listCampaigns` computes is such an answer.
  - `pages_complete_iff`: on `MockStore` every campaign is read once, newest first, and
    on Postgres it is sure to be exactly when the filter's text can be bound and no page
    ends between two campaigns created at the same time.
-/

import SoroFuzz.Api.Campaigns
import SoroFuzz.Lib.Paging
import SoroFuzz.Store.Interleave
import SoroFuzz.Store.Mock

namespace SoroFuzz.Api

open Lib.Paging
open SoroFuzz.Store

variable {parseRfc3339 : String → Option DateTime}

/-- The campaigns that the filter matches, one record each. -/
def pgMatching (d : Db) (f : CampaignFilter) : List CampaignRecord := (selectCampaignWithRun d).filter f.matches_

def mockMatching (m : MockStore) (f : CampaignFilter) : List CampaignRecord := m.campaigns.filter f.matches_

/-- Postgres may answer the query with these records. -/
structure Lists (d : Db) (f : CampaignFilter) (records : List CampaignRecord) : Prop where
  storable : f.storable = true
  limit : 0 ≤ f.limit
  offset : 0 ≤ f.offset
  rows : ∃ s, Ordered CampaignRecord.createdAt (pgMatching d f) s ∧
    records = (s.drop f.offset.toNat).take f.limit.toNat

/-- Page `k` of size `p`. -/
def ListCampaignsQuery.page (query : ListCampaignsQuery) (p k : Nat) : ListCampaignsQuery :=
  { query with limit := some (p : Int), offset := some ((k * p : Nat) : Int) }

/-- What the handler may answer on `PgStore`. -/
def PgAnswers (parseRfc3339 : String → Option DateTime) (d : Db) (query : ListCampaignsQuery)
    (dtos : List CampaignDto) : Prop :=
  ∃ f records, listFilter parseRfc3339 query = .ok f ∧ Lists d f records ∧ listed (some records) = .ok dtos

/-- What the handler answers on `MockStore`. -/
def MockAnswers (parseRfc3339 : String → Option DateTime) (m : MockStore) (query : ListCampaignsQuery)
    (dtos : List CampaignDto) : Prop :=
  ∃ f, listFilter parseRfc3339 query = .ok f ∧ listed (some (m.listCampaigns f)) = .ok dtos

/-- Every page of size `p` is answered, and whatever the answers are, the pages up to the
    first empty one show every campaign of `matching` once, newest first. -/
structure ReadsAll (answers : ListCampaignsQuery → List CampaignDto → Prop) (query : ListCampaignsQuery) (p : Nat)
    (matching : List CampaignRecord) : Prop where
  answered : ∀ k, ∃ dtos, answers (query.page p k) dtos
  complete : ∀ pages, (∀ k, answers (query.page p k) (pages k)) →
    Complete CampaignDto.createdAt (matching.map CampaignDto.from_) pages

/-! ## The stores -/

theorem listCampaigns_lists {d : Db} {f : CampaignFilter} {records : List CampaignRecord}
    (h : listCampaigns d f = some records) : Lists d f records := by
  rw [listCampaigns] at h
  split at h
  · cases h
  · rename_i hok
    cases h
    obtain ⟨hstorable, hlimit, hoffset⟩ : f.storable ≠ false ∧ ¬ f.limit < 0 ∧ ¬ f.offset < 0 := by
      simpa only [not_or] using hok
    exact ⟨by simpa using hstorable, by omega, by omega, _, ⟨List.mergeSort_perm _ _, falling_mergeSort _ _⟩, rfl⟩

theorem mock_listCampaigns_eq (m : MockStore) (f : CampaignFilter) : m.listCampaigns f =
    (((mockMatching m f).mergeSort fun a b => b.createdAt ≤ a.createdAt).drop (max f.offset 0).toNat).take
      (max f.limit 0).toNat := by
  have hfilter : (((m.campaigns.filter (fun c => f.status.all (c.status = ·))).filter
      (fun c => f.targetId.all (c.targetId = ·))).filter (fun c => f.since.all (c.createdAt ≥ ·))).filter
        (fun c => f.until_.all (c.createdAt ≤ ·)) = mockMatching m f := by
    rw [List.filter_filter, List.filter_filter, List.filter_filter]
    congr 1
    funext c
    rw [Bool.eq_iff_iff]
    simp only [CampaignFilter.matches_, Bool.and_eq_true]
    tauto
  rw [MockStore.listCampaigns, hfilter]
  exact slice_eq _ _ _

/-- The join yields no record twice. -/
theorem selectCampaignWithRun_nodup (d : Db) : (selectCampaignWithRun d).Nodup := by
  refine List.nodup_flatMap.mpr ⟨fun e _ => ?_, ?_⟩
  · refine ((Db.runs_nodup d).filter _).map_on fun x hx y hy hxy => ?_
    have hid : x.1 = y.1 := congrArg CampaignRecord.runId hxy
    have hx' : d.run x.1 = some x.2 := Db.mem_runs.mp (List.mem_filter.mp hx).1
    have hy' : d.run y.1 = some y.2 := Db.mem_runs.mp (List.mem_filter.mp hy).1
    rw [hid, hy'] at hx'
    exact Prod.ext hid (Option.some.inj hx').symm
  · refine (Db.campaigns_nodup d).pairwise_of_forall_ne fun x hx y hy hne => ?_
    refine List.disjoint_left.mpr fun row hrow hrow' => hne ?_
    obtain ⟨e, -, rfl⟩ := List.mem_map.mp hrow
    obtain ⟨e', -, heq⟩ := List.mem_map.mp hrow'
    have hid : y.1 = x.1 := congrArg CampaignRecord.id heq
    have hx' : d.campaign x.1 = some x.2 := Db.mem_campaigns.mp hx
    have hy' : d.campaign y.1 = some y.2 := Db.mem_campaigns.mp hy
    rw [hid, hx'] at hy'
    exact Prod.ext hid.symm (Option.some.inj hy')

theorem mem_selectCampaignWithRun {d : Db} {row : CampaignRecord} :
    row ∈ selectCampaignWithRun d ↔ ∃ c r, d.campaign row.id = some c ∧ d.run row.runId = some r ∧
      r.campaignId = row.id ∧
      row = ⟨row.id, c.targetId, c.name, c.invariantIds, c.timeBudgetSecs, c.status, row.runId, c.createdAt⟩ := by
  constructor
  · intro h
    obtain ⟨⟨id, c⟩, hc, hm⟩ := List.mem_flatMap.mp h
    obtain ⟨⟨runId, r⟩, hr, rfl⟩ := List.mem_map.mp hm
    obtain ⟨hr, hid⟩ := List.mem_filter.mp hr
    exact ⟨c, r, Db.mem_campaigns.mp hc, Db.mem_runs.mp hr, by simpa using hid, rfl⟩
  · rintro ⟨c, r, hc, hr, hid, hrow⟩
    rw [hrow]
    exact List.mem_flatMap.mpr ⟨(row.id, c), Db.mem_campaigns.mpr hc, List.mem_map.mpr
      ⟨(row.runId, r), List.mem_filter.mpr ⟨Db.mem_runs.mpr hr, by simpa using hid⟩, rfl⟩⟩

/-- In well-formed tables every campaign has one record. -/
theorem one_record {d : Db} (h : Wf d) {id : Uuid} {c : CampaignRow} (hc : d.campaign id = some c) :
    ∃ row ∈ selectCampaignWithRun d, row.id = id ∧ ∀ row' ∈ selectCampaignWithRun d, row'.id = id → row' = row := by
  obtain ⟨runId, r, hr, hid⟩ := h.campaignRun id c hc
  refine ⟨⟨id, c.targetId, c.name, c.invariantIds, c.timeBudgetSecs, c.status, runId, c.createdAt⟩,
    mem_selectCampaignWithRun.mpr ⟨c, r, hc, hr, hid, rfl⟩, rfl, fun row' hrow' hid' => ?_⟩
  obtain ⟨c', r', hc', hr', hrid, hrow⟩ := mem_selectCampaignWithRun.mp hrow'
  rw [hid', hc] at hc'
  cases hc'
  have hrun : row'.runId = runId := h.runUnique _ _ r' r hr' hr (hrid.trans (hid'.trans hid.symm))
  rw [hrow, hid', hrun]

theorem from_injective : Function.Injective CampaignDto.from_ := by
  intro a b h
  cases a
  cases b
  simpa [CampaignDto.from_] using h

/-! ## The pages -/

variable {query : ListCampaignsQuery} {f : CampaignFilter} {p : Nat} {d : Db} {m : MockStore}

theorem listFilter_query_page (hq : listFilter parseRfc3339 query = .ok f) (hp : 1 ≤ p ∧ p ≤ 200) (k : Nat) :
    listFilter parseRfc3339 (query.page p k) = .ok { f with limit := (p : Int), offset := ((k * p : Nat) : Int) } :=
  listFilter_page hq (by omega) (by omega)

theorem mock_readsAll (hq : listFilter parseRfc3339 query = .ok f) (hp : 1 ≤ p ∧ p ≤ 200) :
    ReadsAll (MockAnswers parseRfc3339 m) query p (mockMatching m f) := by
  refine ⟨fun k => ⟨_, _, listFilter_query_page hq hp k, rfl⟩, fun pages hpages => ?_⟩
  have hpage : pages = fun k =>
      (page p k ((mockMatching m f).mergeSort fun a b => b.createdAt ≤ a.createdAt)).map CampaignDto.from_ := by
    funext k
    obtain ⟨f', hf', hlisted⟩ := hpages k
    rw [listFilter_query_page hq hp] at hf'
    cases hf'
    rw [← Except.ok.inj hlisted, mock_listCampaigns_eq]
    dsimp only
    rw [Int.max_eq_left (Int.natCast_nonneg p), Int.max_eq_left (Int.natCast_nonneg _)]
    rfl
  rw [hpage, complete_map from_injective (fun _ => rfl)]
  exact complete_of_ordered hp.1 ⟨List.mergeSort_perm _ _, falling_mergeSort _ _⟩

/-- What Postgres may answer a page with: that page of some order, unless it refuses the
    filter's text. -/
theorem pgAnswers_page_iff (hq : listFilter parseRfc3339 query = .ok f) (hp : 1 ≤ p ∧ p ≤ 200) {k : Nat}
    {dtos : List CampaignDto} :
    PgAnswers parseRfc3339 d (query.page p k) dtos ↔ f.storable = true ∧
      ∃ s, Ordered CampaignRecord.createdAt (pgMatching d f) s ∧ dtos = (page p k s).map CampaignDto.from_ := by
  constructor
  · rintro ⟨f', records, hf', ⟨hstorable, -, -, s, hs, rfl⟩, hlisted⟩
    rw [listFilter_query_page hq hp] at hf'
    cases hf'
    exact ⟨hstorable, s, hs, (Except.ok.inj hlisted).symm⟩
  · rintro ⟨hstorable, s, hs, rfl⟩
    exact ⟨_, page p k s, listFilter_query_page hq hp k,
      ⟨hstorable, Int.natCast_nonneg p, Int.natCast_nonneg _, s, hs, rfl⟩, rfl⟩

/-- The pages Postgres may answer with are those of whatever orders. -/
theorem pgAnswers_iff (hq : listFilter parseRfc3339 query = .ok f) (hp : 1 ≤ p ∧ p ≤ 200)
    (hstorable : f.storable = true) {pages : Nat → List CampaignDto} :
    (∀ k, PgAnswers parseRfc3339 d (query.page p k) (pages k)) ↔
      ∃ records : Nat → List CampaignRecord, (pages = fun k => (records k).map CampaignDto.from_) ∧
        Pages CampaignRecord.createdAt (pgMatching d f) p records := by
  constructor
  · intro h
    have hone := fun k => ((pgAnswers_page_iff hq hp).mp (h k)).2
    choose s hs hpage using hone
    exact ⟨fun k => page p k (s k), funext hpage, fun k => ⟨s k, hs k, rfl⟩⟩
  · rintro ⟨records, rfl, h⟩ k
    obtain ⟨s, hs, hk⟩ := h k
    exact (pgAnswers_page_iff hq hp).mpr ⟨hstorable, s, hs, congrArg _ hk⟩

theorem pgMatching_nodup (d : Db) (f : CampaignFilter) : (pgMatching d f).Nodup :=
  (selectCampaignWithRun_nodup d).filter _

theorem pg_readsAll_iff (hq : listFilter parseRfc3339 query = .ok f) (hp : 1 ≤ p ∧ p ≤ 200) :
    ReadsAll (PgAnswers parseRfc3339 d) query p (pgMatching d f) ↔
      f.storable = true ∧ Separated CampaignRecord.createdAt (pgMatching d f) p := by
  constructor
  · intro h
    obtain ⟨dtos, hdtos⟩ := h.answered 0
    obtain ⟨hstorable, -⟩ := (pgAnswers_page_iff hq hp).mp hdtos
    refine ⟨hstorable, (complete_iff hp.1 (pgMatching_nodup d f)).mp fun records hrecords => ?_⟩
    have hcomplete := h.complete _ ((pgAnswers_iff hq hp hstorable).mpr ⟨records, rfl, hrecords⟩)
    rwa [complete_map from_injective (fun _ => rfl)] at hcomplete
  · rintro ⟨hstorable, hsep⟩
    refine ⟨fun k => ⟨_, (pgAnswers_page_iff hq hp).mpr
      ⟨hstorable, _, ⟨List.mergeSort_perm _ _, falling_mergeSort _ _⟩, rfl⟩⟩, fun pages hpages => ?_⟩
    obtain ⟨records, rfl, hrecords⟩ := (pgAnswers_iff hq hp hstorable).mp hpages
    rw [complete_map from_injective (fun _ => rfl)]
    exact (complete_iff hp.1 (pgMatching_nodup d f)).mpr hsep records hrecords

/-- A reader of pages of one size reads every matching campaign once, newest first,
    whatever order Postgres picks in each query, exactly when Postgres takes the target's
    id and no two campaigns created at the same time are on two sides of a page's end. -/
theorem pages_complete_iff (hq : listFilter parseRfc3339 query = .ok f) (hp : 1 ≤ p ∧ p ≤ 200) :
    (ReadsAll (MockAnswers parseRfc3339 m) query p (mockMatching m f) ∧
        ReadsAll (PgAnswers parseRfc3339 d) query p (pgMatching d f)) ↔
      query.targetId.all storable = true ∧ Separated CampaignRecord.createdAt (pgMatching d f) p := by
  rw [pg_readsAll_iff hq hp, CampaignFilter.storable, listFilter_targetId hq]
  exact and_iff_right (mock_readsAll hq hp)

/-- Two campaigns are created, `gap` microseconds apart. -/
def twoCampaigns (gap : Nat) : List PgAct :=
  [.start 0 (.createCampaign 1 2 3 ⟨"token", "first", [], 60⟩), .exec 0, .exec 0, .exec 0, .exec 0, .commit 0,
    .tick gap, .start 1 (.createCampaign 4 5 6 ⟨"token", "second", [], 60⟩), .exec 1, .exec 1, .exec 1, .exec 1,
    .commit 1]

def everything : ListCampaignsQuery := ⟨none, none, none, none, none, none⟩

theorem everything_filter :
    listFilter parseRfc3339 everything = .ok ⟨none, none, none, none, 50, 0⟩ := rfl

theorem pages_complete_apart : ∃ s, Reach s ∧
    ReadsAll (MockAnswers (fun _ => none) .empty) everything 1 (mockMatching .empty ⟨none, none, none, none, 50, 0⟩) ∧
    ReadsAll (PgAnswers (fun _ => none) s.db) everything 1 (pgMatching s.db ⟨none, none, none, none, 50, 0⟩) := by
  have h : (playAll Store.init (twoCampaigns 1)).any (fun s =>
      (pgMatching s.db ⟨none, none, none, none, 50, 0⟩).map CampaignRecord.createdAt = [1, 0]) = true := by decide
  obtain ⟨s, hs⟩ := Option.isSome_iff_exists.mp (show (playAll Store.init (twoCampaigns 1)).isSome = true by decide)
  rw [hs] at h
  have hkeys := of_decide_eq_true h
  refine ⟨s, playAll_reach hs, (pages_complete_iff everything_filter (by decide)).mpr ⟨rfl, fun k a b hk ha hb => ?_⟩⟩
  rw [keys_eq (by rw [hkeys]; decide), hkeys] at ha hb
  rcases k with _ | _ | k
  · exact absurd hk (Nat.lt_irrefl 0)
  · cases ha
    cases hb
    decide
  · simp at hb

/-- Two campaigns created in the same microsecond, read one by one. -/
theorem campaign_read_twice : ¬ ∀ (parseRfc3339 : String → Option DateTime) (query : ListCampaignsQuery)
    (f : CampaignFilter) (p : Nat) (m : MockStore) (s : Pg), Reach s → listFilter parseRfc3339 query = .ok f →
      1 ≤ p ∧ p ≤ 200 →
        ReadsAll (MockAnswers parseRfc3339 m) query p (mockMatching m f) ∧
          ReadsAll (PgAnswers parseRfc3339 s.db) query p (pgMatching s.db f) := by
  intro hall
  have h : (playAll Store.init (twoCampaigns 0)).any (fun s =>
      (pgMatching s.db ⟨none, none, none, none, 50, 0⟩).map CampaignRecord.createdAt = [0, 0]) = true := by decide
  obtain ⟨s, hs⟩ := Option.isSome_iff_exists.mp (show (playAll Store.init (twoCampaigns 0)).isSome = true by decide)
  rw [hs] at h
  have hkeys := of_decide_eq_true h
  obtain ⟨-, hsep⟩ := (pg_readsAll_iff everything_filter (by decide)).mp
    (hall (fun _ => none) everything _ 1 .empty s (playAll_reach hs) everything_filter (by decide)).2
  have hsorted : keys CampaignRecord.createdAt (pgMatching s.db ⟨none, none, none, none, 50, 0⟩) = [0, 0] := by
    rw [keys_eq (by rw [hkeys]; decide), hkeys]
  exact hsep 1 0 0 (by decide) (by rw [hsorted]; rfl) (by rw [hsorted]; rfl) rfl

end SoroFuzz.Api
