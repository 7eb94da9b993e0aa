/-
  SoroFuzz.Store.Tables — Postgres's tables hold a board, and what is read from them.

  `Stored` says that the four tables hold the rows of a board's slots and findings, and no
  others. Proved:
  - `Stored.add`, `SlotsStored.moved`, `SlotsStored.claimed`: what becomes of the
    tables when the board changes.
  - `campaignWithRun_eq`, `run_eq`, `getFinding_eq`, ...: a row is found where the board's
    slot or finding is.
  - `selectCampaignWithRun_perm`, `findingsForRun_perm`: the joins yield one record for
    each slot, and for each finding of the run, in some order.
-/

import SoroFuzz.Store.Board
import SoroFuzz.Store.Effect

namespace SoroFuzz.Store

open Lib.Keyed

/-- The campaigns, runs and jobs of the slots are in the tables, and no others. -/
structure SlotsStored (ρ : Renaming) (slots : List Slot) (d : Db) : Prop where
  campaigns : Holds d.campaign (fun s => ρ.campaign s.campaignId) Slot.campaignRow slots
  runs : Holds d.run (fun s => ρ.run s.runId) (Slot.runRow ρ) slots
  jobs : Holds d.job (fun s => ρ.job s.jobId) (Slot.jobRow ρ) slots

/-- The tables hold the board. -/
structure Stored (ρ : Renaming) (b : Board) (d : Db) : Prop where
  slots : SlotsStored ρ b.slots d
  findings : Holds d.finding (fun f => ρ.finding f.id) (Posted.row ρ) b.posted

theorem stored_empty (ρ : Renaming) : Stored ρ .empty ∅ :=
  ⟨⟨holds_nil fun _ => rfl, holds_nil fun _ => rfl, holds_nil fun _ => rfl⟩, holds_nil fun _ => rfl⟩

variable {ρ : Renaming} {b : Board} {d d' : Db}

/-- Tables that hold a board are well formed. -/
theorem Stored.wf (h : Stored ρ b d) : Wf d where
  mirror i r c hr hc := by
    obtain ⟨s, hs, -, rfl⟩ := (h.slots.runs i r).mp hr
    rw [Slot.runRow, h.slots.campaigns.lookup hs] at hc
    cases hc
    rfl
  runCampaign i r hr := by
    obtain ⟨s, hs, -, rfl⟩ := (h.slots.runs i r).mp hr
    exact ⟨_, h.slots.campaigns.lookup hs⟩
  campaignRun i c hc := by
    obtain ⟨s, hs, rfl, -⟩ := (h.slots.campaigns i c).mp hc
    exact ⟨_, _, h.slots.runs.lookup hs, rfl⟩
  runUnique i j r q hr hq he := by
    obtain ⟨s, hs, rfl, rfl⟩ := (h.slots.runs i r).mp hr
    obtain ⟨t, ht, rfl, rfl⟩ := (h.slots.runs j q).mp hq
    rw [b.slot_of_campaignId hs ht (ρ.campaign_injective he)]
  jobRun i q hq := by
    obtain ⟨s, hs, -, rfl⟩ := (h.slots.jobs i q).mp hq
    exact ⟨_, h.slots.runs.lookup hs, rfl⟩
  jobUnique i j p q hp hq he := by
    obtain ⟨s, hs, rfl, rfl⟩ := (h.slots.jobs i p).mp hp
    obtain ⟨t, ht, rfl, rfl⟩ := (h.slots.jobs j q).mp hq
    rw [b.slot_of_runId hs ht (ρ.run_injective he)]
  findingRun i f hf := by
    obtain ⟨g, hg, -, rfl⟩ := (h.findings i f).mp hf
    obtain ⟨s, hs, hr, -, -⟩ := b.posted_of g hg
    exact ⟨_, hr ▸ h.slots.runs.lookup hs⟩

/-! ## Changes -/

/-- The three rows that `create_campaign` inserts. -/
def Slot.inserts (ρ : Renaming) (s : Slot) : List Write :=
  [⟨.campaigns (ρ.campaign s.campaignId), some s.campaignRow⟩, ⟨.runs (ρ.run s.runId), some (s.runRow ρ)⟩,
    ⟨.jobQueue (ρ.job s.jobId), some (s.jobRow ρ)⟩]

theorem Stored.add (h : Stored ρ b d) {s : Slot} (hc : ∀ t ∈ b.slots, t.campaignId ≠ s.campaignId)
    (hr : ∀ t ∈ b.slots, t.runId ≠ s.runId) (hj : ∀ t ∈ b.slots, t.jobId ≠ s.jobId) {hm hp} :
    Stored ρ (b.add s hc hr hj hm hp) (Lib.ReadCommitted.applyAll (s.inserts ρ) d) where
  slots :=
    { campaigns := h.slots.campaigns.append (fun t ht e => hc t ht (ρ.campaign_injective e)) (by simp [Slot.inserts])
      runs := h.slots.runs.append (fun t ht e => hr t ht (ρ.run_injective e)) (by simp [Slot.inserts])
      jobs := h.slots.jobs.append (fun t ht e => hj t ht (ρ.job_injective e)) (by simp [Slot.inserts]) }
  findings i f := by simpa [Slot.inserts, Board.add] using h.findings i f

section alter
variable {s : Slot} {id : Slot → Uuid} {f : Slot → Slot}

/-- A slot's campaign and run move, its job does not. -/
theorem SlotsStored.moved (h : SlotsStored ρ b.slots d) (hs : s ∈ b.slots) (hid : ∀ t ∈ b.slots, id t = id s → t = s)
    (hf : Board.Keeps f) (hj : ∀ t, (f t).jobRow ρ = t.jobRow ρ)
    (hmv : Moved d d' (ρ.campaign s.campaignId) (ρ.run s.runId) (f s).campaignRow ((f s).runRow ρ)) :
    SlotsStored ρ (b.alter id (id s) hf).slots d' where
  campaigns := h.campaigns.change hs hid (fun _ ht e => b.slot_of_campaignId ht hs (ρ.campaign_injective e))
    (congrArg ρ.campaign (hf.campaignId s)) hmv.campaign
  runs := h.runs.change hs hid (fun _ ht e => b.slot_of_runId ht hs (ρ.run_injective e))
    (congrArg ρ.run (hf.runId s)) hmv.run
  jobs := h.jobs.frame (fun t => congrArg ρ.job (hf.jobId t)) hj hmv.job

/-- A slot's job changes, its campaign and run do not. -/
theorem SlotsStored.claimed (h : SlotsStored ρ b.slots d) (hs : s ∈ b.slots) (hf : Board.Keeps f)
    (hc : ∀ t, (f t).campaignRow = t.campaignRow) (hr : ∀ t, (f t).runRow ρ = t.runRow ρ)
    (hcampaign : ∀ i, d'.campaign i = d.campaign i) (hrun : ∀ i, d'.run i = d.run i)
    (hjob : ∀ i, d'.job i = if i = ρ.job s.jobId then some ((f s).jobRow ρ) else d.job i) :
    SlotsStored ρ (b.alter Slot.jobId s.jobId hf).slots d' where
  campaigns := h.campaigns.frame (fun t => congrArg ρ.campaign (hf.campaignId t)) hc hcampaign
  runs := h.runs.frame (fun t => congrArg ρ.run (hf.runId t)) hr hrun
  jobs := h.jobs.change hs (fun _ ht e => b.slot_of_jobId ht hs e)
    (fun _ ht e => b.slot_of_jobId ht hs (ρ.job_injective e)) (congrArg ρ.job (hf.jobId s)) hjob

end alter

theorem SlotsStored.same {slots : List Slot} (h : SlotsStored ρ slots d) (hs : Same d d') : SlotsStored ρ slots d' where
  campaigns i c := by rw [hs.campaign]; exact h.campaigns i c
  runs i r := by rw [hs.run]; exact h.runs i r
  jobs i j := by rw [hs.job]; exact h.jobs i j

/-! ## Reads -/

/-- A campaign is joined to the one run that is its slot's. -/
theorem runs_of_campaign (h : Stored ρ b d) {s : Slot} (hs : s ∈ b.slots) :
    (d.runs.filter fun r => r.2.campaignId = ρ.campaign s.campaignId) = [(ρ.run s.runId, s.runRow ρ)] := by
  rw [← List.perm_singleton]
  refine (List.perm_ext_iff_of_nodup (d.runs_nodup.filter _) (List.nodup_singleton _)).mpr fun e => ?_
  obtain ⟨j, r⟩ := e
  rw [List.mem_filter, Db.mem_runs, List.mem_singleton, Prod.mk.injEq]
  constructor
  · intro hm
    obtain ⟨t, ht, rfl, rfl⟩ := (h.slots.runs j r).mp hm.1
    obtain rfl := b.slot_of_campaignId ht hs (ρ.campaign_injective (of_decide_eq_true hm.2))
    exact ⟨rfl, rfl⟩
  · intro hm
    obtain ⟨rfl, rfl⟩ := hm
    exact ⟨h.slots.runs.lookup hs, decide_eq_true rfl⟩

theorem selectCampaignWithRun_perm (h : Stored ρ b d) :
    (selectCampaignWithRun d).Perm (b.slots.map (Slot.pgRecord ρ)) := by
  have hnd : (b.slots.map fun s => ρ.campaign s.campaignId).Nodup := by
    have := b.campaignIds.map ρ.campaign_injective
    rwa [List.map_map] at this
  have hp := h.slots.campaigns.perm hnd d.campaigns_nodup fun _ _ => Db.mem_campaigns
  refine (hp.flatMap_right _).trans (List.Perm.of_eq ?_)
  rw [List.flatMap_map, List.map_eq_flatMap]
  refine List.flatMap_congr fun s hs => ?_
  dsimp only
  rw [runs_of_campaign h hs]
  rfl

/-- `SELECT_CAMPAIGN_WITH_RUN WHERE c.id = $1`. -/
theorem campaignWithRun_eq (h : Stored ρ b d) (id : Uuid) :
    campaignWithRun d (ρ.campaign id) = (b.slots.find? (·.campaignId = id)).map (Slot.pgRecord ρ) := by
  have hmem : ∀ r, r ∈ selectCampaignWithRun d ↔ ∃ s ∈ b.slots, s.pgRecord ρ = r := fun r => by
    rw [(selectCampaignWithRun_perm h).mem_iff, List.mem_map]
  cases hs : b.slots.find? (·.campaignId = id) with
  | none =>
    refine List.find?_eq_none.mpr fun r hr => ?_
    obtain ⟨s, hs', rfl⟩ := (hmem r).mp hr
    have hne : s.campaignId ≠ id := by simpa using List.find?_eq_none.mp hs s hs'
    rw [decide_eq_true_iff]
    exact fun e => hne (ρ.campaign_injective e)
  | some s =>
    have hid : s.campaignId = id := by simpa using List.find?_some hs
    have hs' := List.mem_of_find?_eq_some hs
    have hex : ((selectCampaignWithRun d).find? (·.id = ρ.campaign id)).isSome = true :=
      List.find?_isSome.mpr ⟨_, (hmem _).mpr ⟨s, hs', rfl⟩, by simp [Slot.pgRecord, hid]⟩
    obtain ⟨r, hr⟩ := Option.isSome_iff_exists.mp hex
    have hrid : r.id = ρ.campaign id := by simpa using List.find?_some hr
    obtain ⟨t, ht, rfl⟩ := (hmem r).mp (List.mem_of_find?_eq_some hr)
    rw [b.slot_of_campaignId ht hs' ((ρ.campaign_injective hrid).trans hid.symm)] at hr
    exact hr

theorem run_eq (h : Stored ρ b d) (id : Uuid) :
    d.run (ρ.run id) = (b.slots.find? (·.runId = id)).map (Slot.runRow ρ) :=
  h.slots.runs.lookup_eq fun s _ => by simp [ρ.run_injective.eq_iff]

theorem findings_perm (h : Stored ρ b d) : d.findings.Perm (b.posted.map fun f => (ρ.finding f.id, f.row ρ)) := by
  refine h.findings.perm ?_ d.findings_nodup fun _ _ => Db.mem_findings
  have := b.findingIds.map ρ.finding_injective
  rwa [List.map_map] at this

/-- The findings of a run, as `WHERE f.run_id = $1` matches them. -/
theorem findings_of_run (h : Stored ρ b d) (id : Uuid) :
    (d.findings.filter fun f => f.2.runId = ρ.run id).Perm
      ((b.posted.filter (·.runId = id)).map fun f => (ρ.finding f.id, f.row ρ)) := by
  refine ((findings_perm h).filter _).trans (List.Perm.of_eq ?_)
  rw [List.filter_map]
  congr 1
  refine List.filter_congr fun f _ => ?_
  simp [Posted.row, ρ.run_injective.eq_iff]

theorem getRun_none (h : Stored ρ b d) {id : Uuid} (now : DateTime) (hs : b.slots.find? (·.runId = id) = none) :
    getRun d now (ρ.run id) = none := by
  rw [getRun, run_eq h, hs]
  rfl

/-- `SELECT_RUN WHERE r.id = $1`. -/
theorem getRun_eq (h : Stored ρ b d) {id : Uuid} {s : Slot} (now : DateTime)
    (hs : b.slots.find? (·.runId = id) = some s) :
    getRun d now (ρ.run id) =
      some (s.pgRunRecord ρ (elapsedSecs now (s.runRow ρ)) (b.posted.filter (·.runId = id)).length) := by
  have hid : s.runId = id := by simpa using List.find?_some hs
  have hrun : d.run (ρ.run id) = some (s.runRow ρ) := by rw [run_eq h, hs]; rfl
  have hcampaign : d.campaign (s.runRow ρ).campaignId = some s.campaignRow :=
    h.slots.campaigns.lookup (List.mem_of_find?_eq_some hs)
  have hcount := (findings_of_run h id).length_eq
  rw [List.length_map] at hcount
  simp only [getRun, hrun, hcampaign, hcount, Option.bind_eq_bind, Option.bind_some]
  rw [← hid]
  rfl

theorem findingRecord_eq (h : Stored ρ b d) {f : Posted} (hf : f ∈ b.posted) :
    findingRecord d (ρ.finding f.id) (f.row ρ) = some (f.pgRecord ρ) := by
  obtain ⟨s, hs, hr, hc, ht⟩ := b.posted_of f hf
  have hrun : d.run (f.row ρ).runId = some (s.runRow ρ) := by
    rw [Posted.row, ← hr]
    exact h.slots.runs.lookup hs
  have hcampaign : d.campaign (s.runRow ρ).campaignId = some s.campaignRow := h.slots.campaigns.lookup hs
  simp only [findingRecord, hrun, hcampaign, Option.bind_eq_bind, Option.bind_some]
  simp only [Posted.pgRecord, Posted.row, Slot.runRow, Slot.campaignRow, hc, ht]

theorem listFindingsForRun_perm (h : Stored ρ b d) (id : Uuid) :
    (listFindingsForRun d (ρ.run id)).Perm ((b.posted.filter (·.runId = id)).map (Posted.pgRecord ρ)) := by
  refine (List.mergeSort_perm _ _).trans (((findings_of_run h id).filterMap _).trans (List.Perm.of_eq ?_))
  rw [List.filterMap_map, ← List.filterMap_eq_map]
  refine List.filterMap_congr fun f hf => ?_
  exact findingRecord_eq h (List.mem_of_mem_filter hf)

theorem getFinding_eq (h : Stored ρ b d) (id : Uuid) :
    getFinding d (ρ.finding id) = (b.posted.find? (·.id = id)).map (Posted.pgRecord ρ) := by
  have hf := h.findings.lookup_eq (k := ρ.finding id) (p := (·.id = id)) fun f _ => by
    simp [ρ.finding_injective.eq_iff]
  rw [getFinding, hf]
  cases hp : b.posted.find? (·.id = id) with
  | none => rfl
  | some f =>
    have hid : f.id = id := by simpa using List.find?_some hp
    rw [← hid]
    exact findingRecord_eq h (List.mem_of_find?_eq_some hp)

end SoroFuzz.Store
