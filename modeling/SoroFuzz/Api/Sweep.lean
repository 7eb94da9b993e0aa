/-
  SoroFuzz.Api.Sweep — a reader of `GET /campaigns` who asks for pages in turn while
  campaigns are created, claimed, run, finished and cancelled.

  Campaigns are listed newest first, by offset: one that is created pushes those before it
  to a later page. None is deleted, and what a filter without a status matches stays.

  Proved:
  - `matching_grows`: so the campaigns that such a filter matches only grow in number.
  - `pages_lose_nothing`: a reader that came to a page that is not full was shown every
    campaign that was there when it began, if no other was created at its very time.
-/

import SoroFuzz.Api.Coherence
import SoroFuzz.Api.Pages
import SoroFuzz.Lib.Sweep

namespace SoroFuzz.Api

open Lib.Paging
open SoroFuzz.Store
open SoroFuzz.Queue (Worker World)

variable {parseRfc3339 : String → Option DateTime} {ws : Nat → Worker} {s s' : World} {f : CampaignFilter}

/-- What is kept of the campaigns from a reachable world on. -/
theorem onward_kept (h : World.Reach ws s) (hl : World.Onward ws s s') :
    Persist s.pg.db s'.pg.db ∧ Stays s.pg.db s'.pg.db := by
  refine Queue.onward_commits (fun d _ => Persist s.pg.db d ∧ Stays s.pg.db d) ?_ h hl
    ⟨Persist.refl _, (stays fun _ => True).refl _⟩
  intro b d0 d d' cs tx c r hw hh hfirst he hk
  exact ⟨hk.1.trans (effect_persist hw he), (stays fun _ => True).trans hk.2 (effect_stays he)⟩

/-- What matches is told by what a campaign was created with, and when. -/
theorem matches_of_same {row row' : CampaignRecord} (hf : f.status = none)
    (h : row' = { row with status := row'.status }) : f.matches_ row' = f.matches_ row := by
  rw [h]
  simp only [CampaignFilter.matches_, hf, Option.all_none]

/-- A campaign's record later: the same, no further back. -/
theorem record_later (h : World.Reach ws s) (hl : World.Onward ws s s') {row row' : CampaignRecord}
    (hrow : row ∈ selectCampaignWithRun s.pg.db) (hrow' : row' ∈ selectCampaignWithRun s'.pg.db)
    (hid : row'.id = row.id) :
    row' = { row with status := row'.status } ∧ row.status.mirror.Leads row'.status.mirror := by
  obtain ⟨hp, hs⟩ := onward_kept h hl
  have hwf : Wf s'.pg.db := (Queue.reach_sound (Queue.onward_reach h hl)).ok.inv
  have htold := (tells_of_select hrow).later hp hs
  exact htold.agree (since_of_select hrow') (Persist.refl _) ((stays fun _ => True).refl _) (tells_of_select hrow')
    hwf hid

theorem matching_grows (h : World.Reach ws s) (hl : World.Onward ws s s') (hf : f.status = none) :
    Grows CampaignRecord.createdAt CampaignRecord.id (pgMatching s.pg.db f) (pgMatching s'.pg.db f) := by
  intro row hrow
  obtain ⟨hmem, hmatch⟩ := List.mem_filter.mp hrow
  obtain ⟨hp, hs⟩ := onward_kept h hl
  obtain ⟨c, hc, -⟩ := ((tells_of_select hmem).later hp hs).campaign
  obtain ⟨row', hmem', hid, -⟩ := one_record (Queue.reach_sound (Queue.onward_reach h hl)).ok.inv hc
  obtain ⟨hsame, -⟩ := record_later h hl hmem hmem' hid
  refine ⟨row', List.mem_filter.mpr ⟨hmem', ?_⟩, hid, ?_⟩
  · rw [matches_of_same hf hsame]
    exact hmatch
  · rw [hsame]

theorem pgMatching_ids (h : World.Reach ws s) (f : CampaignFilter) :
    ((pgMatching s.pg.db f).map CampaignRecord.id).Nodup := by
  refine (pgMatching_nodup s.pg.db f).map_on fun x hx y hy hxy => ?_
  have hx' := (List.mem_filter.mp hx).1
  have hy' := (List.mem_filter.mp hy).1
  obtain ⟨c, r, hc, -⟩ := mem_selectCampaignWithRun.mp hx'
  obtain ⟨row, -, -, honly⟩ := one_record (Queue.reach_sound h).ok.inv hc
  rw [honly x hx' rfl, honly y hy' hxy.symm]

section pages
variable {query : ListCampaignsQuery} {p n : Nat} {during : Nat → World} {pages : Nat → List CampaignDto}

theorem onward_upto (hlater : ∀ k < n, World.Onward ws (during k) (during (k + 1))) (k : Nat) (hk : k ≤ n) :
    World.Onward ws (during 0) (during k) := by
  induction k with
  | zero => exact .refl
  | succ k ih => exact (ih (by omega)).trans (hlater k hk)

theorem pages_lose_nothing (hq : listFilter parseRfc3339 query = .ok f) (hp : 1 ≤ p ∧ p ≤ 200)
    (hf : f.status = none) (h : World.Reach ws (during 0)) (hlater : ∀ k < n, World.Onward ws (during k) (during (k + 1)))
    (hpages : ∀ k ≤ n, PgAnswers parseRfc3339 (during k).pg.db (query.page p k) (pages k))
    (hlast : (pages n).length < p) {row : CampaignRecord} (hrow : row ∈ pgMatching (during 0).pg.db f)
    (hone : ∀ row' ∈ pgMatching (during n).pg.db f, row'.createdAt = row.createdAt → row'.id = row.id) :
    ∃ k ≤ n, ∃ dto ∈ pages k, dto.Succeeds (.from_ row) := by
  have hpage : ∀ k ≤ n, ∃ s, Ordered CampaignRecord.createdAt (pgMatching (during k).pg.db f) s ∧
      pages k = (page p k s).map CampaignDto.from_ :=
    fun k hk => ((pgAnswers_page_iff hq hp).mp (hpages k hk)).2
  choose! sorted hsorted hshown using hpage
  have hreach : ∀ k ≤ n, World.Reach ws (during k) := fun k hk => Queue.onward_reach h (onward_upto hlater k hk)
  obtain ⟨k, hk, row', hmem, hrow', hid, -⟩ := sweep_finds CampaignRecord.id
    (fun k => page p k (sorted k)) (fun k hk => ⟨sorted k, hsorted k hk, rfl⟩)
    (fun k hk => matching_grows (hreach k (Nat.le_of_lt hk)) (hlater k hk) hf)
    (fun k hk => pgMatching_ids (hreach k hk) f) (by simpa [hshown n (Nat.le_refl n)] using hlast) hrow hone
  refine ⟨k, hk, .from_ row', ?_, ?_⟩
  · rw [hshown k hk]
    exact List.mem_map_of_mem hmem
  · obtain ⟨hsame, hleads⟩ := record_later h (onward_upto hlater k hk) (List.mem_filter.mp hrow).1
      (List.mem_filter.mp hrow').1 hid
    exact from_succeeds hsame hleads

end pages

/-- A second campaign, created a microsecond after the first. -/
def createSecond : List Queue.Act :=
  [.pg (.tick 1), .api (.createCampaign 4 5 6 ⟨"token", "second", [], 60⟩), .pg (.exec 1), .pg (.exec 1),
    .pg (.exec 1), .pg (.exec 1), .pg (.commit 1)]

def secondRecord : CampaignRecord := ⟨4, "token", "second", [], 60, .queued, 5, 1⟩

/-- What is answered to who asks for pages of one: the second campaign is created after
    the first page is read, so the first is read again. -/
def pagesOfOne : Nat → List CampaignDto
  | 0 | 1 => [.from_ nightlyRecord]
  | _ => []

/-- The first page is read of `s`, the others of `s'`. -/
def readDuring (s s' : World) : Nat → World
  | 0 => s
  | _ + 1 => s'

theorem answers_one {d : Db} {rows : List CampaignRecord} {k : Nat} {dtos : List CampaignDto}
    (hmatch : pgMatching d ⟨none, none, none, none, 50, 0⟩ = rows)
    (hsorted : Falling CampaignRecord.createdAt rows) (hpage : (page 1 k rows).map CampaignDto.from_ = dtos) :
    PgAnswers (fun _ => none) d (everything.page 1 k) dtos := by
  have hordered : Ordered CampaignRecord.createdAt (pgMatching d ⟨none, none, none, none, 50, 0⟩) rows :=
    ⟨by rw [hmatch], hsorted⟩
  exact (pgAnswers_page_iff everything_filter (by decide)).mpr ⟨rfl, rows, hordered, hpage.symm⟩

theorem play_onward {as : List Queue.Act} (h : World.play ws s as = some s') : World.Onward ws s s' := by
  induction as generalizing s with
  | nil => cases h; exact .refl
  | cons a as ih =>
    obtain ⟨s1, h1, h⟩ := Option.bind_eq_some_iff.mp h
    exact .head ⟨a, h1⟩ (ih h)

theorem pages_lose_nothing_second : ∃ s s',
    World.play (fun _ => Queue.tokenWorker) World.init World.createAct = some s ∧
    World.play (fun _ => Queue.tokenWorker) s createSecond = some s' ∧
    ∃ k ≤ 2, ∃ dto ∈ pagesOfOne k, dto.Succeeds (.from_ nightlyRecord) := by
  obtain ⟨s, hs⟩ := Option.isSome_iff_exists.mp
    (show (World.play (fun _ => Queue.tokenWorker) World.init World.createAct).isSome = true by decide)
  obtain ⟨s', hs'⟩ := Option.isSome_iff_exists.mp (show ((World.play (fun _ => Queue.tokenWorker) World.init
    World.createAct).bind fun s => World.play (fun _ => Queue.tokenWorker) s createSecond).isSome = true by decide)
  have hfirst : (World.play (fun _ => Queue.tokenWorker) World.init World.createAct).map
      (fun s => pgMatching s.pg.db ⟨none, none, none, none, 50, 0⟩) = some [nightlyRecord] := by decide
  have hboth : ((World.play (fun _ => Queue.tokenWorker) World.init World.createAct).bind fun s =>
      World.play (fun _ => Queue.tokenWorker) s createSecond).map
        (fun s => pgMatching s.pg.db ⟨none, none, none, none, 50, 0⟩) = some [secondRecord, nightlyRecord] := by
    decide
  rw [hs'] at hboth
  rw [hs] at hfirst hs'
  have hone : pgMatching s.pg.db ⟨none, none, none, none, 50, 0⟩ = [nightlyRecord] := Option.some.inj hfirst
  have htwo : pgMatching s'.pg.db ⟨none, none, none, none, 50, 0⟩ = [secondRecord, nightlyRecord] :=
    Option.some.inj hboth
  have hfalling : Falling CampaignRecord.createdAt [secondRecord, nightlyRecord] := by
    simp [Falling, secondRecord, nightlyRecord]
  refine ⟨s, s', hs, hs', ?_⟩
  have hlater : ∀ k < 2, World.Onward (fun _ => Queue.tokenWorker) (readDuring s s' k) (readDuring s s' (k + 1)) := by
    intro k _
    cases k with
    | zero => exact play_onward hs'
    | succ k => exact .refl
  have hpages : ∀ k ≤ 2,
      PgAnswers (fun _ => none) (readDuring s s' k).pg.db (everything.page 1 k) (pagesOfOne k) := by
    intro k hk
    rcases k with _ | _ | _ | k
    · exact answers_one hone (by simp [Falling]) rfl
    · exact answers_one htwo hfalling rfl
    · exact answers_one htwo hfalling rfl
    · omega
  refine pages_lose_nothing everything_filter (by decide) rfl (World.play_reach .init hs) hlater hpages (by decide)
    ?_ ?_
  · show nightlyRecord ∈ pgMatching s.pg.db _
    rw [hone]
    exact List.mem_singleton_self _
  · intro row' hrow'
    replace hrow' : row' ∈ pgMatching s'.pg.db ⟨none, none, none, none, 50, 0⟩ := hrow'
    rw [htwo] at hrow'
    rcases List.mem_cons.mp hrow' with rfl | hrow'
    · decide
    · rw [List.mem_singleton.mp hrow']
      exact fun _ => rfl

end SoroFuzz.Api
