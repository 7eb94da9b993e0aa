/-
  SoroFuzz.Api.Coherence — the handlers of `GET /campaigns/{id}` and
  `POST /campaigns/{id}/cancel` (`api/campaigns.rs`), and what a client can rely on
  between its requests.

  Proved:
  - `responses_coherent`: a campaign that some response has shown is shown by every
    response asked for later, the same but for its status, which does not go back; it is
    never answered that there is none.
  - `list_coherent`: nor does a list of campaigns contradict what was shown before.
-/

import SoroFuzz.Api.Findings
import SoroFuzz.Queue.Coherent

namespace SoroFuzz.Api

open SoroFuzz.Store
open SoroFuzz.Queue (Worker World Event Told)

variable (U : UuidText)

/-- The response to the store's answer about the campaign `id`. -/
def found (id : Uuid) : Reply → Except ApiError CampaignDto
  | .campaign record =>
    (orNotFound "campaign_not_found" ("no campaign with id " ++ U.display id) record).map .from_
  | _ => .error .internal

def getCampaign (store : Uuid → Reply) (raw : String) : Except ApiError CampaignDto := do
  let id ← parseUuid U raw
  found U id (store id)

def cancelCampaign (store : Uuid → Reply) (raw : String) : Except ApiError CampaignDto := do
  let id ← parseUuid U raw
  found U id (store id)

/-- A response showed the campaign. -/
def ShownIn (cs : List Commit) (dto : CampaignDto) : Prop := ∃ row, Told cs row ∧ dto = .from_ row

/-- The same campaign, no further back. -/
def CampaignDto.Succeeds (dto' dto : CampaignDto) : Prop :=
  dto' = { dto with status := dto'.status } ∧ dto.status.mirror.Leads dto'.status.mirror

/-- The response to a request about the campaign `id` that called `c`, answered with `r`. -/
inductive Responds (id : Uuid) : Call → Reply → Except ApiError CampaignDto → Prop
  | get (r : Reply) (raw : String) : U.parse raw = some id →
      Responds id (.getCampaign id) r (getCampaign U (fun _ => r) raw)
  | cancel (r : Reply) (raw : String) : U.parse raw = some id →
      Responds id (.cancelCampaign id) r (cancelCampaign U (fun _ => r) raw)

variable {U} {ws : Nat → Worker} {s : World}

theorem from_succeeds {row row' : CampaignRecord} (h : row' = { row with status := row'.status })
    (hl : row.status.mirror.Leads row'.status.mirror) : (CampaignDto.from_ row').Succeeds (.from_ row) := by
  rw [h]
  exact ⟨rfl, hl⟩

/-- What the later response is: the same campaign, or an error that says nothing of it. -/
theorem found_succeeds {id : Uuid} {row : CampaignRecord} {r : Reply} (hne : r ≠ .campaign none)
    (hrow : ∀ row', r.row = some row' → row' = { row with status := row'.status } ∧
      row.status.mirror.Leads row'.status.mirror) :
    found U id r = .error .internal ∨ ∃ dto', found U id r = .ok dto' ∧ dto'.Succeeds (.from_ row) := by
  cases r with
  | campaign o =>
    cases o with
    | none => exact absurd rfl hne
    | some row' =>
      obtain ⟨heq, hl⟩ := hrow row' rfl
      exact Or.inr ⟨.from_ row', rfl, from_succeeds heq hl⟩
  | _ => exact Or.inl rfl

theorem Responds.campaign {id : Uuid} {c : Call} {r : Reply} {response : Except ApiError CampaignDto}
    (h : Responds U id c r response) : c.campaign = some id ∧ response = found U id r := by
  cases h with
  | get r raw hraw =>
    rw [getCampaign, parseUuid_ok_iff.mpr hraw]
    exact ⟨rfl, rfl⟩
  | cancel r raw hraw =>
    rw [cancelCampaign, parseUuid_ok_iff.mpr hraw]
    exact ⟨rfl, rfl⟩

/-- A response that is asked for after another showed the campaign shows it too, unless
    the store failed. -/
theorem responses_coherent (h : World.Reach ws s) {i : Nat} {c : Call} {log : List Event}
    (hb : (.began i c :: log : List Event) <:+ s.log) {dto : CampaignDto} (hdto : ShownIn (World.commits log) dto)
    {r : Reply} (hr : .committed i c r ∈ s.log ∨ .aborted i r ∈ s.log) {response : Except ApiError CampaignDto}
    (hresponse : Responds U dto.id c r response) :
    response = .error .internal ∨ ∃ dto', response = .ok dto' ∧ dto'.Succeeds dto := by
  obtain ⟨row, hrow, rfl⟩ := hdto
  obtain ⟨hc, rfl⟩ := hresponse.campaign
  obtain ⟨hagree, hcommitted, haborted⟩ := Queue.coherent h hb hrow hc
  rcases hr with hr | hr
  · refine found_succeeds ?_ fun row' => hagree r row' hr
    rintro rfl
    exact hcommitted hr
  · rcases (Queue.reach_sound h).aborted i r hr with rfl | rfl
    · exact Or.inl rfl
    · exact absurd hr haborted

/-- A campaign is created, and asked for. -/
def createThenGet : List Queue.Act :=
  World.createAct ++ [.api (.getCampaign 1), .pg (.exec 1), .pg (.commit 1)]

def nightlyRecord : CampaignRecord := ⟨1, "token", "nightly", [], 60, .queued, 2, 0⟩

theorem createThenGet_told : ∃ s log, World.play (fun _ => Queue.tokenWorker) World.init createThenGet = some s ∧
    (.began 1 (.getCampaign 1) :: log : List Event) <:+ s.log ∧ Told (World.commits log) nightlyRecord ∧
    .committed 1 (.getCampaign 1) (.campaign (some nightlyRecord)) ∈ s.log := by
  obtain ⟨s, hs⟩ := Option.isSome_iff_exists.mp
    (show (World.play (fun _ => Queue.tokenWorker) World.init createThenGet).isSome = true by decide)
  have hcommitted : (World.play (fun _ => Queue.tokenWorker) World.init createThenGet).map (fun s => s.log[0]?) =
      some (some (.committed 1 (.getCampaign 1) (.campaign (some nightlyRecord)))) := rfl
  have hbegan : (World.play (fun _ => Queue.tokenWorker) World.init createThenGet).map (fun s => s.log.drop 2) =
      (World.play (fun _ => Queue.tokenWorker) World.init createThenGet).map
        (fun s => .began 1 (.getCampaign 1) :: s.log.drop 3) := rfl
  have hcreated : (World.play (fun _ => Queue.tokenWorker) World.init createThenGet).map (fun s => (s.log.drop 3)[0]?) =
      some (some (.committed 0 (.createCampaign 1 2 3 ⟨"token", "nightly", [], 60⟩) (.created nightlyRecord))) := rfl
  rw [hs] at hcommitted hbegan hcreated
  refine ⟨s, s.log.drop 3, hs, ?_, ?_, ?_⟩
  · have hdrop : s.log.drop 2 = .began 1 (.getCampaign 1) :: s.log.drop 3 := Option.some.inj hbegan
    rw [← hdrop]
    exact List.drop_suffix 2 s.log
  · exact ⟨0, _, _, World.mem_commits.mpr (List.mem_of_getElem? (Option.some.inj hcreated)), rfl, rfl⟩
  · exact List.mem_of_getElem? (Option.some.inj hcommitted)

theorem responses_coherent_nightly : ∃ s, World.play (fun _ => Queue.tokenWorker) World.init createThenGet = some s ∧
    (getCampaign decimalIds (fun _ => .campaign (some nightlyRecord)) "1" = .error .internal ∨
      ∃ dto', getCampaign decimalIds (fun _ => .campaign (some nightlyRecord)) "1" = .ok dto' ∧
        dto'.Succeeds (.from_ nightlyRecord)) := by
  obtain ⟨s, log, hs, hbegan, htold, hcommitted⟩ := createThenGet_told
  exact ⟨s, hs, responses_coherent (World.play_reach .init hs) hbegan ⟨_, htold, rfl⟩ (Or.inl hcommitted)
    (.get (U := decimalIds) _ "1" (by decide))⟩

theorem mem_listCampaigns {d : Db} {f : CampaignFilter} {rows : List CampaignRecord} (h : listCampaigns d f = some rows)
    {row : CampaignRecord} (hm : row ∈ rows) : row ∈ selectCampaignWithRun d := by
  unfold listCampaigns at h
  split at h
  · cases h
  · cases h
    exact List.mem_of_mem_filter (List.mem_mergeSort.mp (List.mem_of_mem_drop (List.mem_of_mem_take hm)))

/-- A list of the campaigns agrees with what was shown. -/
theorem list_coherent (h : World.Reach ws s) {dto : CampaignDto} (hdto : ShownIn (World.commits s.log) dto)
    {f : CampaignFilter} {dtos : List CampaignDto} (hl : listed (listCampaigns s.pg.db f) = .ok dtos) :
    ∀ dto' ∈ dtos, dto'.id = dto.id → dto'.Succeeds dto := by
  obtain ⟨row, hrow, rfl⟩ := hdto
  cases hrows : listCampaigns s.pg.db f with
  | none =>
    rw [hrows] at hl
    cases hl
  | some rows =>
    rw [hrows] at hl
    cases hl
    intro dto' hm hid
    obtain ⟨row', hm', rfl⟩ := List.mem_map.mp hm
    have hselect := mem_listCampaigns hrows hm'
    have hwf : Wf s.pg.db := (Queue.reach_sound h).ok.inv
    obtain ⟨heq, hl⟩ := (Queue.tells_of_told h hrow).agree (since_of_select hselect) (Persist.refl _)
      ((stays fun _ => True).refl _) (tells_of_select hselect) hwf hid
    exact from_succeeds heq hl

theorem list_coherent_nightly : ∃ s, World.play (fun _ => Queue.tokenWorker) World.init createThenGet = some s ∧
    ∃ dto', listed (listCampaigns s.pg.db ⟨none, none, none, none, 50, 0⟩) = .ok [dto'] ∧
      dto'.Succeeds (.from_ nightlyRecord) := by
  obtain ⟨s, log, hs, hbegan, htold, -⟩ := createThenGet_told
  have htold' : Told (World.commits s.log) nightlyRecord := by
    obtain ⟨tx, c, r, hm, hcr⟩ := htold
    refine ⟨tx, c, r, World.mem_commits.mpr ?_, hcr⟩
    exact ((List.suffix_cons _ _).trans hbegan).subset (World.mem_commits.mp hm)
  have hselect : (World.play (fun _ => Queue.tokenWorker) World.init createThenGet).map
      (fun s => selectCampaignWithRun s.pg.db) = some [nightlyRecord] := rfl
  rw [hs] at hselect
  have hl : listed (listCampaigns s.pg.db ⟨none, none, none, none, 50, 0⟩) = .ok [.from_ nightlyRecord] := by
    have hrows : selectCampaignWithRun s.pg.db = [nightlyRecord] := Option.some.inj hselect
    have hone : [nightlyRecord].filter (CampaignFilter.matches_ ⟨none, none, none, none, 50, 0⟩) = [nightlyRecord] := by
      decide
    unfold listCampaigns
    simp only [hrows, hone, List.mergeSort_singleton]
    rfl
  exact ⟨s, hs, _, hl, list_coherent (World.play_reach .init hs) ⟨_, htold', rfl⟩ hl _ (List.mem_singleton_self _) rfl⟩

end SoroFuzz.Api
