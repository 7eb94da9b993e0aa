/-
  SoroFuzz.Store.Timestamps — the order of a run's timestamps.

  `now()` is the time a transaction began, not the time it writes. A `cancel_campaign`
  (or a `finish_run`) that began before a `start_run` and updates the run after it leaves
  a `finished_at` from before `started_at`, and `get_run` then reports a negative
  `elapsed_secs`: unlike the mock store's, it is not cut off at zero.

  Proved:
  - `stamped`: in every interleaving a run has `finished_at` exactly when it has ended,
    and `started_at` when it is running, completed or failed.
  - `ordered_while_forward`: the timestamps are in order, and no time elapsed is negative,
    as long as no `finished_at` is written that is before the row's `started_at`.
  - `ordered_cancel_race`: without that they are not.
-/

import SoroFuzz.Lib.Rows
import SoroFuzz.Store.Interleave
import SoroFuzz.Store.Read

namespace SoroFuzz.Store

open Lib.ReadCommitted
open Lib.Rows

/-- The statuses of a run that a `start_run` came before. -/
def RunStatus.started : RunStatus → Bool
  | .running | .completed | .failed => true
  | .pending | .cancelled => false

/-- A run's timestamps are there when its status says so. -/
structure Stamped (r : RunRow) : Prop where
  finished : r.finishedAt.isSome = r.status.isTerminal
  started : r.status.started = true → r.startedAt.isSome = true

/-- And they are in order. -/
structure InOrder (r : RunRow) : Prop extends Stamped r where
  order : ∀ s f, r.startedAt = some s → r.finishedAt = some f → s ≤ f

/-- A property of runs, as one of all rows. -/
def ofRuns (P : RunRow → Prop) : (k : Key) → Row k → Prop
  | .runs _, r => P r
  | _, _ => True

/-- The statement with which the call ends the run. -/
def Ends (c : Call) (l : Sql) (id : Uuid) (r : RunRow) : Prop :=
  match c with
  | .finishRun runId _ _ => l = .finishRun ∧ id = runId ∧ r.status = .running
  | .cancelCampaign campaignId => l = .cancelRun ∧ r.campaignId = campaignId
  | _ => False

instance (c : Call) (l : Sql) (id : Uuid) (r : RunRow) : Decidable (Ends c l id r) := by
  cases c <;> unfold Ends <;> infer_instance

/-- The statement of a call that began at `b` ends no run that was started after `b`. -/
def EndsForward (c : Call) (b : DateTime) (l : Sql) (v : View) : Prop :=
  ∀ id r, Db.run v.rows id = some r → Ends c l id r → ∀ s, r.startedAt = some s → s ≤ b

/-- What the statements keep of the rows: `P` with nothing taken for granted, or with
    the runs that end ending forward. -/
structure Kept (P : RunRow → Prop) (assume : Call → DateTime → Sql → View → Prop) : Prop where
  pending : ∀ campaignId, P ⟨campaignId, .pending, 0, none, none, none, none⟩
  starts : ∀ r b worker, P r → r.status = .pending →
    P { r with status := .running, startedAt := some b, worker := some worker }
  finishes : ∀ runId finish ids b l v, assume (.finishRun runId finish ids) b l v → l = .finishRun → ∀ id r,
    Db.run v.rows id = some r → P r → id = runId → r.status = .running →
    P { r with status := finish.status.runStatus, iterations := finish.iterations, logTail := finish.logTail,
               finishedAt := some b }
  cancels : ∀ campaignId b l v, assume (.cancelCampaign campaignId) b l v → l = .cancelRun → ∀ id r,
    Db.run v.rows id = some r → P r → r.campaignId = campaignId →
    P { r with status := .cancelled, finishedAt := some b }

section keeps
variable {P : RunRow → Prop} {assume : Call → DateTime → Sql → View → Prop} (h : Kept P assume)
include h

theorem keeps_createCampaign (campaignId runId jobId : Uuid) (input : NewCampaign) (b : DateTime) :
    Keeps (ofRuns P) (assume (.createCampaign campaignId runId jobId input) b)
      (createCampaign campaignId runId jobId input b) := by
  refine keeps_insertRow trivial trivial (keeps_insertRow (h.pending campaignId) trivial ?_)
  refine keeps_insertRow trivial trivial (keeps_select fun d => ?_)
  split <;> trivial

theorem keeps_cancelCampaign (id : Uuid) (b : DateTime) :
    Keeps (ofRuns P) (assume (.cancelCampaign id) b) (cancelCampaign id b) := by
  refine keeps_select fun d => ?_
  split
  · trivial
  · split
    · trivial
    · refine keeps_update (fun v _ k r r' _ _ hs => ?_) fun _ =>
        keeps_update (fun v ha k r r' hr hp hs => ?_) fun _ => trivial
      · cases k with
        | runs i => cases hs
        | _ => trivial
      · cases k with
        | runs i =>
          by_cases hid : r.campaignId = id
          · rw [show r' = _ from (Option.some.inj ((if_pos hid).symm.trans hs)).symm]
            exact h.cancels id b _ v ha rfl i r hr hp hid
          · cases (if_neg hid).symm.trans hs
        | _ => cases hs

omit h in
theorem keeps_claimJob (tie : Uuid → Nat) (workerId : String) (b : DateTime) :
    Keeps (ofRuns P) (assume (.claimJob tie workerId) b) (claimJob tie workerId b) := by
  refine Lib.Sql.binding_elim (motive := Keeps (ofRuns P) (assume (.claimJob tie workerId) b)) trivial fun _ => ?_
  refine keeps_updatePicked (fun v e _ he => ?_) fun e => ?_
  · obtain ⟨j, -, rfl⟩ := Option.map_eq_some_iff.mp he
    trivial
  · split <;> trivial

theorem keeps_startRun (runId : Uuid) (workerId : String) (b : DateTime) :
    Keeps (ofRuns P) (assume (.startRun runId workerId) b) (startRun runId workerId b) := by
  refine Lib.Sql.binding_elim (motive := Keeps (ofRuns P) (assume (.startRun runId workerId) b)) trivial fun _ => ?_
  refine keeps_update (fun v _ k r r' _ hp hs => ?_) fun es => ?_
  · cases k with
    | runs i =>
      by_cases hid : i = runId ∧ r.status = .pending
      · rw [show r' = _ from (Option.some.inj ((if_pos hid).symm.trans hs)).symm]
        exact h.starts r b _ hp hid.2
      · cases (if_neg hid).symm.trans hs
    | _ => cases hs
  · split
    · trivial
    · refine keeps_delete (keeps_update (fun v _ k r r' _ _ hs => ?_) fun _ => trivial)
      cases k with
      | runs i => cases hs
      | _ => trivial

omit h in
theorem keeps_insertFindings (runId : Uuid) (ids : Nat → Uuid) (b : DateTime) (fs : List NewFinding) (k : Nat)
    {assume : Sql → View → Prop} : Keeps (ofRuns P) assume (insertFindings runId ids b fs k) := by
  induction fs generalizing k with
  | nil => trivial
  | cons f fs ih => exact keeps_insertRow trivial trivial (ih (k + 1))

theorem keeps_finishRun (runId : Uuid) (finish : RunFinish) (ids : Nat → Uuid) (b : DateTime) :
    Keeps (ofRuns P) (assume (.finishRun runId finish ids) b) (finishRun runId finish ids b) := by
  refine Lib.Sql.binding_elim (motive := Keeps (ofRuns P) (assume (.finishRun runId finish ids) b)) trivial fun _ => ?_
  refine keeps_update (fun v ha k r r' hr hp hs => ?_) fun es => ?_
  · cases k with
    | runs i =>
      by_cases hid : i = runId ∧ r.status = .running
      · rw [show r' = _ from (Option.some.inj ((if_pos hid).symm.trans hs)).symm]
        exact h.finishes runId finish ids b _ v ha rfl i r hr hp hid.1 hid.2
      · cases (if_neg hid).symm.trans hs
    | _ => cases hs
  · split
    · refine keeps_update (fun v _ k r r' _ _ hs => ?_) fun _ => keeps_insertFindings _ _ _ _ _
      cases k with
      | runs i => cases hs
      | _ => trivial
    · exact keeps_insertFindings _ _ _ _ _

theorem keeps_body (c : Call) (b : DateTime) : Keeps (ofRuns P) (assume c b) (body c b) := by
  cases c with
  | createCampaign campaignId runId jobId input => exact keeps_createCampaign h campaignId runId jobId input b
  | getCampaign id =>
    show Keeps _ _ (getCampaign id)
    exact keeps_select fun _ => trivial
  | cancelCampaign id => exact keeps_cancelCampaign h id b
  | claimJob tie workerId => exact keeps_claimJob tie workerId b
  | startRun runId workerId => exact keeps_startRun h runId workerId b
  | finishRun runId finish ids => exact keeps_finishRun h runId finish ids b

/-- The committed runs have the property, over every interleaving the run lets through. -/
theorem runs_kept {p : Pg → PgAct → Bool} (hp : ∀ s a, p s a = true → Assumed assume s a) {s : Pg}
    (hr : Run body p init s) {id : Uuid} {r : RunRow} (hrun : Db.run s.db id = some r) : P r :=
  (rows_run body (keeps_body h) hp rows_init hr).db (.runs id) r hrun

end keeps

/-! ## What always holds -/

theorem stamped_kept : Kept Stamped fun _ _ _ _ => True where
  pending _ := ⟨rfl, nofun⟩
  starts r b worker h hp := by
    refine ⟨?_, fun _ => rfl⟩
    show r.finishedAt.isSome = false
    rw [h.finished, hp]
    rfl
  finishes runId finish ids b l v _ _ id r _ h _ hst := by
    refine ⟨by simp, fun _ => h.started ?_⟩
    rw [hst]
    rfl
  cancels campaignId b l v _ _ id r _ h _ := ⟨rfl, nofun⟩

theorem stamped {s : Pg} (h : Reach s) {id : Uuid} {r : RunRow} (hr : Db.run s.db id = some r) : Stamped r :=
  runs_kept stamped_kept (fun s a _ => by cases a <;> simp [Assumed]) h hr

/-! ## What holds when runs end forward -/

theorem inOrder_kept : Kept InOrder EndsForward where
  pending campaignId := ⟨stamped_kept.pending campaignId, nofun⟩
  starts r b worker h hp := by
    refine ⟨stamped_kept.starts r b worker h.toStamped hp, fun s f _ hf => ?_⟩
    have hnone : r.finishedAt.isSome = false := by
      rw [h.finished, hp]
      rfl
    rw [show r.finishedAt = some f from hf] at hnone
    cases hnone
  finishes runId finish ids b l v ha hl id r hr h hid hst := by
    refine ⟨stamped_kept.finishes runId finish ids b l v trivial hl id r hr h.toStamped hid hst, fun s f hs hf => ?_⟩
    cases hf
    exact ha id r hr ⟨hl, hid, hst⟩ s hs
  cancels campaignId b l v ha hl id r hr h hid := by
    refine ⟨stamped_kept.cancels campaignId b l v trivial hl id r hr h.toStamped hid, fun s f hs hf => ?_⟩
    cases hf
    exact ha id r hr ⟨hl, hid⟩ s hs

/-- The step is no UPDATE that ends a run started after its transaction began. -/
def endsForward (s : Pg) : PgAct → Bool
  | .exec i =>
    match s.txns.lookup i with
    | some t =>
      match t.prog with
      | .stmt l _ _ =>
        (Db.runs (viewOf s i t).rows).all fun (id, r) => !decide (Ends t.call l id r) || r.startedAt.all (· ≤ t.began)
      | _ => true
    | none => true
  | _ => true

theorem endsForward_assumed {s : Pg} {a : PgAct} (h : endsForward s a = true) : Assumed EndsForward s a := by
  cases a with
  | exec i =>
    intro t l writes next ht hp id r hr he started hs
    simp only [endsForward, ht, hp, List.all_eq_true] at h
    have := h (id, r) (Db.mem_runs.mpr hr)
    simpa [he, hs] using this
  | _ => trivial

/-- What is asked of a record `get_run` returns. -/
structure Ordered (rec : RunRecord) : Prop where
  finished : rec.finishedAt.isSome = rec.status.isTerminal
  started : rec.status = .running ∨ rec.status = .completed ∨ rec.status = .failed → rec.startedAt.isSome = true
  order : ∀ s f, rec.startedAt = some s → rec.finishedAt = some f → s ≤ f
  elapsed : 0 ≤ rec.elapsedSecs

theorem RunStatus.started_iff {s : RunStatus} : s.started = true ↔ s = .running ∨ s = .completed ∨ s = .failed := by
  cases s <;> simp [RunStatus.started]

/-- `get_run` itself is to begin no earlier than the start of a run that has not ended. -/
theorem ordered_while_forward {s : Pg} (h : Run body endsForward init s) {began : DateTime} {id : Uuid}
    {rec : RunRecord} (hget : getRun s.db began id = some rec)
    (hread : rec.finishedAt = none → ∀ started, rec.startedAt = some started → started ≤ began) : Ordered rec := by
  obtain ⟨r, c, hr, -, hst, hs, hf, he⟩ := getRun_some hget
  have ho : InOrder r := runs_kept inOrder_kept (fun _ _ => endsForward_assumed) h hr
  rw [hs, hf] at hread
  refine ⟨?_, fun hstarted => ?_, fun st f hst hft => ?_, ?_⟩
  · rw [hf, hst]
    exact ho.finished
  · rw [hs]
    rw [hst] at hstarted
    exact ho.started (RunStatus.started_iff.mpr hstarted)
  · rw [hs] at hst
    rw [hf] at hft
    exact ho.order st f hst hft
  · rw [he]
    refine elapsedSecs_nonneg fun started hstarted => ?_
    cases hfin : r.finishedAt with
    | none => exact hread hfin started hstarted
    | some f => exact ho.order started f hstarted hfin

/-- A second after it was started, `finish_run` completes the run. -/
def finishNow : List PgAct :=
  [.tick 1000000, .start 3 (.finishRun 2 ⟨.completed, 10, none, []⟩ id), .exec 3, .exec 3, .commit 3]

theorem ordered_finish : ∃ s rec, play body endsForward init (createAndStart ++ finishNow) = some s ∧
    getRun s.db 0 2 = some rec ∧ Ordered rec := by
  obtain ⟨s, hs⟩ := Option.isSome_iff_exists.mp
    (show (play body endsForward init (createAndStart ++ finishNow)).isSome = true by decide)
  have hget : ((play body endsForward init (createAndStart ++ finishNow)).bind fun s => getRun s.db 0 2).map
      (fun rec => rec.finishedAt.isSome) = some true := by decide
  rw [hs] at hget
  obtain ⟨rec, hrec, hfin⟩ := Option.map_eq_some_iff.mp hget
  refine ⟨s, rec, hs, hrec, ordered_while_forward (play_run body _ .refl hs) hrec fun hnone => ?_⟩
  rw [hnone] at hfin
  cases hfin

/-! ## The race -/

/-- `cancel_campaign` begins and reads Queued; a second later the run is started. -/
def readThenStart : List PgAct :=
  [.start 0 (.createCampaign 1 2 3 ⟨"token", "nightly", [], 60⟩), .exec 0, .exec 0, .exec 0, .exec 0, .commit 0,
    .start 2 (.cancelCampaign 1), .exec 2, .tick 1000000,
    .start 1 (.startRun 2 "worker-1"), .exec 1, .exec 1, .exec 1, .commit 1]

theorem ordered_cancel_race : ¬ ∀ s : Pg, Reach s → ∀ id rec, getRun s.db s.now id = some rec → Ordered rec := by
  intro hall
  have h : ((playAll init (readThenStart ++ cancelLate)).bind fun s => getRun s.db s.now 2).map
      (fun rec => rec.elapsedSecs) = some (-1) := by decide
  obtain ⟨rec, hrec, hneg⟩ := Option.map_eq_some_iff.mp h
  obtain ⟨s, hs, hget⟩ := Option.bind_eq_some_iff.mp hrec
  have := (hall s (playAll_reach hs) 2 rec hget).elapsed
  rw [hneg] at this
  cases this

end SoroFuzz.Store
