/-
  SoroFuzz.Store.Interleave — every interleaving of the statements of any number of
  concurrent `PgStore` transactions.

  Proved:
  - `pg_ok`: in every reachable state the committed tables are well formed.
  - `one_mirrored_run`: every committed campaign has exactly one run, of its status.
  - `settled_while_cancels_live`: terminal statuses are never changed, as long as the
    UPDATE with which `cancel_campaign` overwrites the status finds neither Completed nor
    Failed.
  - `settled_cancel_race`: without that they are. `cancel_campaign` reads the status, a
    `finish_run` commits, and `cancel_campaign` overwrites its outcome.
-/

import SoroFuzz.Store.Commit

namespace SoroFuzz.Store

open Lib.ReadCommitted

/-- The interleavings as they are. -/
abbrev Reach (s : Pg) : Prop := Lib.ReadCommitted.Reach body s

def init : Pg := Lib.ReadCommitted.init Row Call Sql Reply

/-- A campaign 1 with run 2 and job 3, created and started. -/
def createAndStart : List PgAct :=
  [.start 0 (.createCampaign 1 2 3 ⟨"token", "nightly", [], 60⟩), .exec 0, .exec 0, .exec 0, .exec 0, .commit 0,
    .start 1 (.startRun 2 "worker-1"), .exec 1, .exec 1, .exec 1, .commit 1]

def playAll (s : Pg) (as : List PgAct) : Option Pg := play body (fun _ _ => true) s as

theorem playAll_reach {as : List PgAct} {s : Pg} (h : playAll init as = some s) : Reach s := play_run body as .refl h

/-! ## What always holds -/

theorem wf_empty : Wf ∅ where
  mirror _ _ _ h := by cases h
  runCampaign _ _ h := by cases h
  campaignRun _ _ h := by cases h
  runUnique _ _ _ _ h := by cases h
  jobRun _ _ h := by cases h
  jobUnique _ _ _ _ h := by cases h
  findingRun _ _ h := by cases h

theorem allowed (s : Pg) (a : PgAct) : Allowed (storeSpec fun _ => True) s a := by
  cases a <;> simp [storeSpec, Allowed]

/-- Every run keeps the tables well formed, and only moves rows forward. -/
theorem run_storeSpec {p : Pg → PgAct → Bool} {s s' : Pg} (h : Ok (storeSpec fun _ => True) s) (hr : Run body p s s') :
    Ok (storeSpec fun _ => True) s' ∧ Persist s.db s'.db :=
  run_ok body (fun s a _ => allowed s a) (fun c n d => body_meets _ c n d) h hr

theorem pg_ok {s : Pg} (h : Reach s) : Ok (storeSpec fun _ => True) s := (run_storeSpec (init_ok wf_empty) h).1

/-- The one run of the campaign, and its status. -/
structure MirroredRun (d : Db) (id : Uuid) (c : CampaignRow) (runId : Uuid) (r : RunRow) : Prop where
  run : d.run runId = some r
  campaignId : r.campaignId = id
  only : ∀ i q, d.run i = some q → q.campaignId = id → i = runId
  status : r.status = c.status.mirror

theorem wf_mirroredRun {d : Db} (h : Wf d) {id : Uuid} {c : CampaignRow} (hc : d.campaign id = some c) :
    ∃ runId r, MirroredRun d id c runId r := by
  obtain ⟨runId, r, hr, rfl⟩ := h.campaignRun id c hc
  exact ⟨runId, r, hr, rfl, fun i q hq hqr => h.runUnique i runId q r hq hr hqr, h.mirror runId r c hr hc⟩

theorem one_mirrored_run {s : Pg} (h : Reach s) {id : Uuid} {c : CampaignRow} (hc : Db.campaign s.db id = some c) :
    ∃ runId r, MirroredRun s.db id c runId r := wf_mirroredRun (pg_ok h).inv hc

theorem one_mirrored_run_started : ∃ s c, playAll init createAndStart = some s ∧ Db.campaign s.db 1 = some c ∧
    ∃ runId r, MirroredRun s.db 1 c runId r := by
  obtain ⟨s, hs⟩ := Option.isSome_iff_exists.mp (show (playAll init createAndStart).isSome = true by decide)
  have hc : (playAll init createAndStart).any (fun s => (Db.campaign s.db 1).isSome) = true := by decide
  rw [hs] at hc
  obtain ⟨c, hc⟩ := Option.isSome_iff_exists.mp hc
  exact ⟨s, c, hs, hc, one_mirrored_run (playAll_reach hs) hc⟩

/-! ## Terminal statuses -/

/-- Terminal statuses in `d` are still the same in `d'`. -/
structure Settled (d d' : Db) : Prop where
  run : ∀ i r, d.run i = some r → r.status.isTerminal = true → ∃ r', d'.run i = some r' ∧ r'.status = r.status
  campaign : ∀ i c, d.campaign i = some c → c.status.isTerminal = true → ∃ c', d'.campaign i = some c' ∧
    c'.status = c.status

theorem Settled.refl (d : Db) : Settled d d := ⟨fun _ r h _ => ⟨r, h, rfl⟩, fun _ c h _ => ⟨c, h, rfl⟩⟩

theorem Settled.trans {d d' d'' : Db} (h : Settled d d') (h' : Settled d' d'') : Settled d d'' := by
  refine ⟨fun i r hr ht => ?_, fun i c hc ht => ?_⟩
  · obtain ⟨r1, h1, e1⟩ := h.run i r hr ht
    obtain ⟨r2, h2, e2⟩ := h'.run i r1 h1 (by rw [e1]; exact ht)
    exact ⟨r2, h2, e2.trans e1⟩
  · obtain ⟨c1, h1, e1⟩ := h.campaign i c hc ht
    obtain ⟨c2, h2, e2⟩ := h'.campaign i c1 h1 (by rw [e1]; exact ht)
    exact ⟨c2, h2, e2.trans e1⟩

/-- The statuses `cancel_campaign`'s UPDATE may overwrite without undoing an outcome. -/
def CampaignStatus.overwritable : CampaignStatus → Bool
  | .completed | .failed => false
  | .queued | .running | .cancelled => true

/-- The step is not a `cancel_campaign`'s UPDATE that finds its campaign Completed or Failed. -/
def cancelsLive (s : Pg) : PgAct → Bool
  | .exec i =>
    match s.txns.lookup i with
    | some t =>
      match t.call, t.prog with
      | .cancelCampaign id, .stmt .cancelCampaign _ _ =>
        match Db.campaign (viewOf s i t).rows id with
        | some c => c.status.overwritable
        | none => true
      | _, _ => true
    | none => true
  | _ => true

theorem cancelsLive_allowed {s : Pg} {a : PgAct} (h : cancelsLive s a = true) :
    Allowed (storeSpec fun st => st.overwritable = true) s a := by
  cases a with
  | exec i =>
    intro t l writes next ht hp hl id row hc hrow
    subst hl
    have hrow' : Db.campaign (viewOf s i t).rows id = some row := hrow
    simpa [cancelsLive, ht, hc, hp, hrow'] using h
  | _ => trivial

/-- Moving a campaign and its run is no change when their statuses are not terminal, or
    stay the same. -/
theorem settled_moved {d d' : Db} {i j : Uuid} {c c' : CampaignRow} {r r' : RunRow} (hmv : Moved d d' i j c' r')
    (hc : d.campaign i = some c) (hr : d.run j = some r) (hcs : c.status.isTerminal = true → c'.status = c.status)
    (hrs : r.status.isTerminal = true → r'.status = r.status) : Settled d d' := by
  refine ⟨fun k q hq ht => ?_, fun k e he ht => ?_⟩
  · rw [hmv.run]
    split
    · rename_i hk; subst hk; rw [hr] at hq; cases hq; exact ⟨r', rfl, hrs ht⟩
    · exact ⟨q, hq, rfl⟩
  · rw [hmv.campaign]
    split
    · rename_i hk; subst hk; rw [hc] at he; cases he; exact ⟨c', rfl, hcs ht⟩
    · exact ⟨e, he, rfl⟩

theorem effect_settled {b : DateTime} {d0 : Db} {c : Call} {r : Reply} {d d' : Db} (h : Wf d)
    (he : Effect (fun st => st.overwritable = true) b d0 c r d d') : Settled d d' := by
  cases he with
  | created campaignId runId jobId input row hc hr hj =>
    refine ⟨fun i r hi _ => ⟨r, ?_, rfl⟩, fun i c hi _ => ⟨c, ?_, rfl⟩⟩
    · have hne : i ≠ runId := by rintro rfl; rw [hr] at hi; cases hi
      simpa [hne] using hi
    · have hne : i ≠ campaignId := by rintro rfl; rw [hc] at hi; cases hi
      simpa [hne] using hi
  | got | cancelNoop | claimedNone | startedNot => exact Settled.refl d
  | cancelled id runId row c r _ hc hok hr hi hmv _ =>
    -- What is overwritten is either not terminal or cancelled already.
    have hm := h.mirror runId r c hr (hi ▸ hc)
    refine settled_moved hmv hc hr (fun ht => ?_) (fun ht => ?_)
    · cases hst : c.status <;> simp_all [CampaignStatus.isTerminal, CampaignStatus.overwritable]
    · cases hst : c.status <;> simp_all [CampaignStatus.overwritable, CampaignStatus.mirror, RunStatus.isTerminal]
  | claimed tie workerId id j hj _ =>
    exact ⟨fun i r hi _ => ⟨r, by simpa using hi, rfl⟩, fun i c hi _ => ⟨c, by simpa using hi, rfl⟩⟩
  | started runId workerId c r hr hp hc hq hmv _ _ =>
    exact settled_moved hmv hc hr (by simp [hq, CampaignStatus.isTerminal]) (by simp [hp, RunStatus.isTerminal])
  | finishedNot d1 runId finish ids _ _ _ hs _ =>
    exact ⟨fun i r hi _ => ⟨r, by rw [hs.run]; exact hi, rfl⟩, fun i c hi _ => ⟨c, by rw [hs.campaign]; exact hi, rfl⟩⟩
  | finished runId finish ids c r hr hrun hc hmv _ =>
    have hm := h.mirror runId r c hr hc
    refine settled_moved hmv hc hr (fun ht => ?_) (by simp [hrun, RunStatus.isTerminal])
    rw [← CampaignStatus.mirror_isTerminal, ← hm, hrun] at ht
    cases ht

theorem settled_while_cancels_live {s s' : Pg} (h0 : Run body cancelsLive init s) (h : Run body cancelsLive s s') :
    Settled s.db s'.db := by
  have hok := (run_ok body (fun _ _ => cancelsLive_allowed) (fun c n d => body_meets _ c n d) (init_ok wf_empty) h0).1
  exact run_rel body (fun _ _ => cancelsLive_allowed)
    (fun c n d => body_meets _ c n d) Settled Settled.refl Settled.trans
    effect_settled hok h

/-- `cancel_campaign` cancels the campaign, and then `finish_run` comes too late. -/
def cancelNow : List PgAct := [.start 2 (.cancelCampaign 1), .exec 2, .exec 2, .exec 2, .commit 2]
def finishLate : List PgAct := [.start 3 (.finishRun 2 ⟨.completed, 10, none, []⟩ id), .exec 3, .commit 3]

theorem settled_finish_late : ∃ s s', play body cancelsLive init (createAndStart ++ cancelNow) = some s ∧
    play body cancelsLive s finishLate = some s' ∧ Settled s.db s'.db := by
  obtain ⟨s, hs⟩ := Option.isSome_iff_exists.mp
    (show (play body cancelsLive init (createAndStart ++ cancelNow)).isSome = true by decide)
  have h' : ((play body cancelsLive init (createAndStart ++ cancelNow)).bind fun s =>
      play body cancelsLive s finishLate).isSome = true := by decide
  rw [hs] at h'
  obtain ⟨s', hs'⟩ := Option.isSome_iff_exists.mp h'
  exact ⟨s, s', hs, hs', settled_while_cancels_live (play_run body _ .refl hs) (play_run body _ .refl hs')⟩

/-! ## The race -/

/-- `cancel_campaign` reads Running; `finish_run` completes the run. -/
def readThenFinish : List PgAct :=
  [.start 2 (.cancelCampaign 1), .exec 2,
    .start 3 (.finishRun 2 ⟨.completed, 10, none, []⟩ id), .exec 3, .exec 3, .commit 3]

/-- `cancel_campaign` goes on with its two UPDATEs. -/
def cancelLate : List PgAct := [.exec 2, .exec 2, .commit 2]

def runStatus (s : Pg) (runId : Uuid) : Option RunStatus := (Db.run s.db runId).map (·.status)

theorem settled_cancel_race : ¬ ∀ s s' : Pg, Reach s → Run body (fun _ _ => true) s s' → Settled s.db s'.db := by
  intro hall
  have h : ((playAll init (createAndStart ++ readThenFinish)).bind fun s => (playAll s cancelLate).map fun s' =>
      (runStatus s 2, runStatus s' 2)) = some (some .completed, some .cancelled) := by decide
  obtain ⟨s, hs, h⟩ := Option.bind_eq_some_iff.mp h
  obtain ⟨s', hs', h⟩ := Option.map_eq_some_iff.mp h
  rw [Prod.mk.injEq] at h
  obtain ⟨r, hr, hcompleted⟩ := Option.map_eq_some_iff.mp h.1
  obtain ⟨q, hq, hcancelled⟩ := Option.map_eq_some_iff.mp h.2
  obtain ⟨r', hr', he⟩ := (hall s s' (playAll_reach hs) (play_run body _ .refl hs')).run 2 r hr
    (by rw [hcompleted]; rfl)
  rw [hq] at hr'
  cases hr'
  rw [hcancelled, hcompleted] at he
  cases he

end SoroFuzz.Store
