/-
  SoroFuzz.Store.Deadlock — the order in which the store's transactions lock rows.

  `start_run` and `finish_run` lock the run's row and then its campaign's;
  `cancel_campaign` locks the campaign's and then its run's. A cancel that takes the
  campaign while a worker's transaction holds the run deadlocks with it, and Postgres
  aborts one of the two: when that is `finish_run`, the findings it was to persist
  unconditionally are gone.

  A foreign key's check takes a lock that conflicts with none of these, and `claim_job`
  skips the rows it would wait for.

  Proved:
  - `undeadlocked_while_uncrossed`: no two transactions deadlock, as long as no cancel
    takes a campaign, and no worker its run, while the other of the two is held by a
    transaction that goes for this one.
  - `deadlocked_cancel_finish`: without that they do.
-/

import SoroFuzz.Lib.Deadlock
import SoroFuzz.Store.Interleave

namespace SoroFuzz.Store

open Lib.ReadCommitted
open Lib.Sql
open Lib.Deadlock

/-- The campaign whose row a `cancel_campaign` holds, with its run's to go for. -/
def cancelling : Call → Option Sql → Option Uuid
  | .cancelCampaign id, some .cancelRun => some id
  | _, _ => none

/-- The campaign whose row a `start_run` or `finish_run` is to go for, holding its run's. -/
def settling (d : Db) : Call → Option Sql → Option Uuid
  | .startRun runId _, some .deleteFindings => (Db.run d runId).map (·.campaignId)
  | .startRun runId _, some .startCampaign => (Db.run d runId).map (·.campaignId)
  | .finishRun runId _ _, some .finishCampaign => (Db.run d runId).map (·.campaignId)
  | _, _ => none

/-- The campaign whose row the next statement locks, with its run's still to come. -/
def locksCampaign : Call → Option Sql → Option Uuid
  | .cancelCampaign id, some .cancelCampaign => some id
  | _, _ => none

/-- The campaign of the run whose row the next statement locks, with its own still to come. -/
def locksRun (d : Db) : Call → Option Sql → Option Uuid
  | .startRun runId _, some .startRun => ((Db.run d runId).filter (·.status = .pending)).map (·.campaignId)
  | .finishRun runId _ _, some .finishRun => ((Db.run d runId).filter (·.status = .running)).map (·.campaignId)
  | _, _ => none

/-- Why a statement that wants the row `k`, with `ws` written, is in no deadlock but the one. -/
inductive Waits (c : Call) (l : Sql) (d : Db) (ws : List Write) : Key → Prop
  | first {k : Key} : ws = [] → Waits c l d ws k
  | cancelling {id i : Uuid} : cancelling c (some l) = some id → (∀ k, wrote ws k = true → k = .campaigns id) →
      Waits c l d ws (.runs i)
  | settling {id : Uuid} : settling d c (some l) = some id → (∀ i, wrote ws (.campaigns i) = false) →
      Waits c l d ws (.campaigns id)
  | clearing {i : Uuid} : (∀ k, wrote ws k = true → ∃ j, k = .runs j) → Waits c l d ws (.findings i)

/-- What is checked of a statement that writes `new` and leaves `rest` to do. -/
structure Locking (c : Call) (l : Sql) (ws : List Write) (d : Db) (new : List Write) (rest : Program) : Prop where
  cancelling : ∀ id, cancelling c (label rest) = some id → locksCampaign c (some l) = some id
  settling : ∀ id, settling (applyAll (ws ++ new) d) c (label rest) = some id →
    settling (applyAll ws d) c (some l) = some id ∨ locksRun (applyAll ws d) c (some l) = some id
  held : ∀ d', Store.settling (applyAll ws d) c (some l) = Store.settling (applyAll ws d') c (some l)
  waits : ∀ k, wrote new k = true → k ∈ applyAll ws d → Waits c l (applyAll ws d) ws k

def Checked (c : Call) (l : Sql) (writes : View → List Write) (next : View → Program) (ws : List Write) : Prop :=
  ∀ d locked, let v : View := ⟨applyAll ws d, locked⟩
    Locking c l ws d (writes v) (next v)

/-! ## Each transaction, alone -/

section tables
variable {d : Db} {k : Key}

/-- An UPDATE of campaigns locks those its WHERE clause matches. -/
theorem wrote_updates_campaigns {p : Uuid → CampaignRow → Prop} [∀ i c, Decidable (p i c)]
    {set : Uuid → CampaignRow → CampaignRow}
    (h : wrote (puts (updates (fun
      | .campaigns i, c => if p i c then some (set i c) else none
      | _, _ => none) d)) k = true) : ∃ i c, k = .campaigns i ∧ p i c := by
  obtain ⟨r, r', -, hs⟩ := wrote_updates.mp h
  cases k with
  | campaigns i =>
    by_cases hp : p i r
    · exact ⟨i, r, rfl, hp⟩
    · cases (if_neg hp).symm.trans hs
  | _ => cases hs

theorem wrote_updates_runs {p : Uuid → RunRow → Prop} [∀ i r, Decidable (p i r)] {set : Uuid → RunRow → RunRow}
    (h : wrote (puts (updates (fun
      | .runs i, r => if p i r then some (set i r) else none
      | _, _ => none) d)) k = true) : ∃ i r, k = .runs i ∧ p i r := by
  obtain ⟨r, r', -, hs⟩ := wrote_updates.mp h
  cases k with
  | runs i =>
    by_cases hp : p i r
    · exact ⟨i, r, rfl, hp⟩
    · cases (if_neg hp).symm.trans hs
  | _ => cases hs

end tables

section programs
variable {b : DateTime}

theorem checked_stmt {c : Call} {l : Sql} {writes : View → List Write} {next : View → Program} {ws : List Write}
    (h : ∀ (d : Db) locked, let v : View := ⟨applyAll ws d, locked⟩
      Locking c l ws d (writes v) (next v) ∧ Throughout (Checked c) (next v) (ws ++ writes v)) :
    Throughout (Checked c) (.stmt l writes next) ws :=
  ⟨fun d locked => (h d locked).1, fun d locked => (h d locked).2⟩

/-- A program that is not between two locks, as far as its label tells. -/
structure Plain (c : Call) (l : Option Sql) : Prop where
  cancelling : cancelling c l = none
  settling : ∀ d, settling d c l = none

/-- A statement that neither finds nor leaves the program between two locks. -/
theorem Plain.locking {c : Call} {l : Sql} {ws new : List Write} {d : Db} {rest : Program} (hl : Plain c (some l))
    (hr : Plain c (label rest))
    (hw : ∀ k, wrote new k = true → k ∈ applyAll ws d → Waits c l (applyAll ws d) ws k) :
    Locking c l ws d new rest where
  cancelling id hid := by
    rw [hr.cancelling] at hid
    cases hid
  settling id hid := by
    rw [hr.settling] at hid
    cases hid
  held d' := (hl.settling _).trans (hl.settling _).symm
  waits := hw

/-- And one that writes nothing. -/
theorem Plain.reading {c : Call} {l : Sql} {ws : List Write} {d : Db} {rest : Program} (hl : Plain c (some l))
    (hr : Plain c (label rest)) : Locking c l ws d [] rest := hl.locking hr fun _ hk => by cases hk

theorem checked_cancelCampaign {id : Uuid} : Throughout (Checked (.cancelCampaign id)) (cancelCampaign id b) [] := by
  refine checked_stmt fun d locked => ?_
  dsimp only
  cases campaignWithRun (applyAll [] d) id with
  | none => exact ⟨Plain.reading ⟨rfl, fun _ => rfl⟩ ⟨rfl, fun _ => rfl⟩, trivial⟩
  | some current =>
    by_cases hterm : current.status.isTerminal = true
    · simp only [hterm, if_true]
      exact ⟨Plain.reading ⟨rfl, fun _ => rfl⟩ ⟨rfl, fun _ => rfl⟩, trivial⟩
    · simp only [hterm]
      refine ⟨Plain.reading ⟨rfl, fun _ => rfl⟩ ⟨rfl, fun _ => rfl⟩, checked_stmt fun d locked => ?_⟩
      refine ⟨⟨fun i hi => hi, fun i hi => ?_, fun _ => rfl, fun k _ _ => .first rfl⟩,
        checked_stmt fun d' locked' => ?_⟩
      · cases hi
      · refine ⟨⟨fun i hi => ?_, fun i hi => ?_, fun _ => rfl, fun k hk _ => ?_⟩, trivial⟩
        · cases hi
        · cases hi
        · obtain ⟨i, r, rfl, -⟩ := wrote_updates_runs hk
          refine .cancelling rfl fun k' hk' => ?_
          obtain ⟨j, c, rfl, rfl⟩ := wrote_updates_campaigns hk'
          rfl

theorem checked_startRun {runId : Uuid} {workerId : String} :
    Throughout (Checked (.startRun runId workerId)) (startRun runId workerId b) [] := by
  refine binding_elim (motive := fun p => Throughout (Checked (.startRun runId workerId)) p []) trivial fun _ => ?_
  refine checked_stmt fun d locked => ?_
  dsimp only
  by_cases hp : ∃ r, d.run runId = some r ∧ r.status = .pending
  · obtain ⟨r, hr, hst⟩ := hp
    rw [applyAll_nil, updates_runs hr ⟨rfl, hst⟩ fun _ _ _ h => h.1]
    refine ⟨⟨fun id hid => ?_, fun id hid => Or.inr ?_, fun _ => rfl, fun k _ _ => .first rfl⟩,
      checked_stmt fun d' locked => ?_⟩
    · cases hid
    · have hid : r.campaignId = id := by simpa [settling, label, returningCampaignId, delete] using hid
      simp [locksRun, hr, hst, hid]
    · dsimp only
      generalize hdels : deletes _ _ = dels
      have hdel : ∀ k, (∀ i, k ≠ .findings i) → wrote dels k = false := by
        intro k hk
        subst hdels
        cases k with
        | findings i => exact absurd rfl (hk i)
        | _ => exact wrote_deletes_of fun _ => rfl
      have hrun : ∀ e i, Db.run (applyAll dels e) i = Db.run e i :=
        fun e i => lookup_applyAll_other dels e (hdel (.runs i) (by simp))
      refine ⟨⟨fun id hid => ?_, fun id hid => Or.inl ?_, fun d2 => ?_, fun k hk _ => ?_⟩,
        checked_stmt fun d2 locked => ?_⟩
      · cases hid
      · rw [applyAll_append] at hid
        simpa [settling, label, update, hrun] using hid
      · simp [settling]
      · cases k with
        | findings i => exact .clearing fun k' hk' => ⟨runId, by simpa [eq_comm] using hk'⟩
        | _ => rw [hdel _ (by simp)] at hk; cases hk
      · refine ⟨⟨fun id hid => ?_, fun id hid => ?_, fun d3 => ?_, fun k hk _ => ?_⟩, trivial⟩
        · cases hid
        · cases hid
        · simp [settling, hrun]
        · obtain ⟨i, c, rfl, rfl, -⟩ := wrote_updates_campaigns hk
          refine .settling ?_ fun i => ?_
          · simp [settling, hrun]
          · simp [hdel]
  · rw [applyAll_nil, updates_runs_nil (by
      intro i r hr h
      exact hp ⟨r, h.1 ▸ hr, h.2⟩)]
    exact ⟨Plain.reading ⟨rfl, fun _ => rfl⟩ ⟨rfl, fun _ => rfl⟩, trivial⟩

/-- An INSERT waits for no row. -/
theorem checked_insertRow {c : Call} {l : Sql} {k : Key} {r : Row k} {violates : Db → Bool} {clash next : Program}
    {ws : List Write} (hl : Plain c (some l)) (hc : Plain c (label clash)) (hn : Plain c (label next))
    (hclash : Throughout (Checked c) clash ws) (hnext : Throughout (Checked c) next (ws ++ [⟨k, some r⟩])) :
    Throughout (Checked c) (insertRow l k r violates clash next) ws := by
  refine checked_stmt fun d locked => ?_
  dsimp only
  by_cases hk : k ∈ applyAll ws d ∨ violates (applyAll ws d) = true
  · simp only [hk, if_true, List.append_nil]
    exact ⟨hl.reading hc, hclash⟩
  · simp only [hk, if_false]
    refine ⟨hl.locking hn fun k' hw hm => ?_, hnext⟩
    obtain rfl : k = k' := by simpa using hw
    exact absurd (Or.inl hm) hk

theorem checked_createCampaign {campaignId runId jobId : Uuid} {input : NewCampaign} :
    Throughout (Checked (.createCampaign campaignId runId jobId input))
      (createCampaign campaignId runId jobId input b) [] := by
  have hplain : ∀ l, Plain (.createCampaign campaignId runId jobId input) l := fun _ => ⟨rfl, fun _ => rfl⟩
  refine checked_insertRow (hplain _) (hplain _) (hplain _) trivial ?_
  refine checked_insertRow (hplain _) (hplain _) (hplain _) trivial ?_
  refine checked_insertRow (hplain _) (hplain _) (hplain _) trivial (checked_stmt fun d locked => ⟨?_, ?_⟩)
  · exact (hplain _).reading (hplain _)
  · dsimp only
    split <;> trivial

theorem checked_getCampaign {id : Uuid} : Throughout (Checked (.getCampaign id)) (getCampaign id) [] :=
  checked_stmt fun _ _ => ⟨Plain.reading ⟨rfl, fun _ => rfl⟩ ⟨rfl, fun _ => rfl⟩, trivial⟩

theorem checked_claimJob {tie : Uuid → Nat} {workerId : String} :
    Throughout (Checked (.claimJob tie workerId)) (claimJob tie workerId b) [] := by
  have hplain : ∀ l, Plain (.claimJob tie workerId) l := fun _ => ⟨rfl, fun _ => rfl⟩
  refine binding_elim (motive := fun p => Throughout (Checked (.claimJob tie workerId)) p []) trivial fun _ => ?_
  refine checked_stmt fun d locked => ⟨(hplain _).locking (hplain _) fun k _ _ => .first rfl, ?_⟩
  dsimp only
  split <;> trivial

theorem plain_insertFindings (runId : Uuid) (finish : RunFinish) (ids ids' : Nat → Uuid) (b : DateTime)
    (fs : List NewFinding) (k : Nat) :
    Plain (.finishRun runId finish ids') (label (insertFindings runId ids b fs k)) := by
  cases fs <;> exact ⟨rfl, fun _ => rfl⟩

theorem checked_insertFindings {runId : Uuid} {finish : RunFinish} {ids : Nat → Uuid} {fs : List NewFinding} {k : Nat}
    {ws : List Write} : Throughout (Checked (.finishRun runId finish ids)) (insertFindings runId ids b fs k) ws := by
  induction fs generalizing k ws with
  | nil => trivial
  | cons f fs ih =>
    exact checked_insertRow ⟨rfl, fun _ => rfl⟩ ⟨rfl, fun _ => rfl⟩ (plain_insertFindings _ _ _ _ _ _ _) trivial ih

theorem checked_finishRun {runId : Uuid} {finish : RunFinish} {ids : Nat → Uuid} :
    Throughout (Checked (.finishRun runId finish ids)) (finishRun runId finish ids b) [] := by
  have hrest := plain_insertFindings runId finish ids ids b finish.findings 0
  refine binding_elim (motive := fun p => Throughout (Checked (.finishRun runId finish ids)) p []) trivial fun _ => ?_
  refine checked_stmt fun d locked => ?_
  dsimp only
  by_cases hp : ∃ r, d.run runId = some r ∧ r.status = .running
  · obtain ⟨r, hr, hst⟩ := hp
    rw [applyAll_nil, updates_runs hr ⟨rfl, hst⟩ fun _ _ _ h => h.1]
    refine ⟨⟨fun id hid => ?_, fun id hid => Or.inr ?_, fun _ => rfl, fun k _ _ => .first rfl⟩,
      checked_stmt fun d' locked => ?_⟩
    · cases hid
    · have hid : r.campaignId = id := by simpa [settling, label, returningCampaignId, update] using hid
      simp [locksRun, hr, hst, hid]
    · refine ⟨⟨fun id hid => ?_, fun id hid => ?_, fun d2 => ?_, fun k hk _ => ?_⟩, checked_insertFindings⟩
      · cases hid
      · cases (hrest.settling _).symm.trans hid
      · simp [settling]
      · obtain ⟨i, c, rfl, rfl⟩ := wrote_updates_campaigns hk
        exact .settling (by simp [settling]) (by simp)
  · rw [applyAll_nil, updates_runs_nil (by
      intro i r hr h
      exact hp ⟨r, h.1 ▸ hr, h.2⟩)]
    exact ⟨Plain.reading ⟨rfl, fun _ => rfl⟩ hrest, checked_insertFindings⟩

/-- No program begins between two locks. -/
theorem plain_body (c : Call) (b : DateTime) : Plain c (label (body c b)) := by
  cases c with
  | startRun runId workerId =>
    exact binding_elim (motive := fun p => Plain (.startRun runId workerId) (label p)) ⟨rfl, fun _ => rfl⟩
      fun _ => ⟨rfl, fun _ => rfl⟩
  | finishRun runId finish ids =>
    exact binding_elim (motive := fun p => Plain (.finishRun runId finish ids) (label p)) ⟨rfl, fun _ => rfl⟩
      fun _ => ⟨rfl, fun _ => rfl⟩
  | _ => exact ⟨rfl, fun _ => rfl⟩

theorem checked_body (c : Call) (b : DateTime) : Throughout (Checked c) (body c b) [] := by
  cases c with
  | createCampaign => exact checked_createCampaign
  | getCampaign => exact checked_getCampaign
  | cancelCampaign => exact checked_cancelCampaign
  | claimJob => exact checked_claimJob
  | startRun => exact checked_startRun
  | finishRun => exact checked_finishRun

end programs

/-! ## Every interleaving -/

/-- The step is no UPDATE that locks a campaign, with its run to go for, or a run, with
    its campaign to go for, while another transaction holds the second of the two and
    has the first to go for. -/
def uncrossed (s : Pg) : PgAct → Bool
  | .exec i =>
    match s.txns.lookup i with
    | some t => s.txns.entries.all fun ⟨j, u⟩ => j = i ||
        (locksCampaign t.call (label t.prog)).all (settling (viewOf s j u).rows u.call (label u.prog) ≠ some ·) &&
          (locksRun (viewOf s i t).rows t.call (label t.prog)).all (cancelling u.call (label u.prog) ≠ some ·)
    | none => true
  | _ => true

theorem uncrossed_exec {s : Pg} {i j : Nat} {t u : Txn} (h : uncrossed s (.exec i) = true)
    (ht : s.txns.lookup i = some t) (hu : s.txns.lookup j = some u) (hij : j ≠ i) {id : Uuid} :
    (locksCampaign t.call (label t.prog) = some id → settling (viewOf s j u).rows u.call (label u.prog) ≠ some id) ∧
      (locksRun (viewOf s i t).rows t.call (label t.prog) = some id → cancelling u.call (label u.prog) ≠ some id) := by
  simp only [uncrossed, ht, List.all_eq_true] at h
  have := h ⟨j, u⟩ (AList.mem_lookup_iff.mp hu)
  simp only [hij, decide_false, Bool.false_or, Bool.and_eq_true, Option.all_eq_true, decide_eq_true_eq] at this
  exact ⟨fun hl => this.1 id hl, fun hl => this.2 id hl⟩

/-- No campaign's and its run's rows are held by two transactions that go for the other's. -/
def Apart (s : Pg) : Prop := ∀ i j t u, s.txns.lookup i = some t → s.txns.lookup j = some u → ∀ id,
  cancelling t.call (label t.prog) = some id → settling (viewOf s j u).rows u.call (label u.prog) ≠ some id

theorem settling_of_cancelling {c : Call} {l l' : Option Sql} {id : Uuid} (h : cancelling c l = some id) (d : Db) :
    settling d c l' = none := by
  cases c with
  | cancelCampaign => rfl
  | _ => cases h

/-- What others commit leaves the campaign a transaction is to go for as it is. -/
theorem settling_held {c : Call} {p : Program} {ws : List Write} (h : Throughout (Checked c) p ws) (d d' : Db) :
    settling (applyAll ws d) c (label p) = settling (applyAll ws d') c (label p) := by
  cases p with
  | stmt l writes next => exact (h.1 d fun _ => false).held d'
  | _ => cases c <;> rfl

theorem apart_step {s s' : Pg} {a : PgAct} (hck : ThroughoutAll (fun c _ => Checked c) s) (h : Apart s)
    (hs : step body s a = some s') (ha : uncrossed s a = true) : Apart s' := by
  cases step_cases body hs with
  | tick d => exact h
  | start i c hi =>
    intro j k t u ht hu id hc
    have hnone := plain_body c s.now
    rcases lookup_insert_cases ht with ⟨-, rfl⟩ | ⟨-, ht⟩
    · cases hnone.cancelling.symm.trans hc
    · rcases lookup_insert_cases hu with ⟨-, rfl⟩ | ⟨-, hu⟩
      · intro hset
        cases (hnone.settling _).symm.trans hset
      · exact h j k t u ht hu id hc
  | exec i t l writes next ht hp hb =>
    intro j k u v hu hv id hc
    have hlock := (hp ▸ hck i t ht).1 s.db (lockedByOthers s i)
    rcases lookup_insert_cases hu with ⟨-, rfl⟩ | ⟨hj, hu⟩ <;> rcases lookup_insert_cases hv with ⟨-, rfl⟩ | ⟨hk, hv⟩
    · intro hset
      cases (settling_of_cancelling hc _).symm.trans hset
    · exact (uncrossed_exec ha ht hv hk).1 (by rw [hp]; exact hlock.cancelling id hc)
    · intro hset
      rcases hlock.settling id hset with hset | hset
      · exact h j i u t hu ht id hc (by rw [hp]; exact hset)
      · exact (uncrossed_exec ha ht hu hj).2 (by rw [hp]; exact hset) hc
    · exact h j k u v hu hv id hc
  | commit i t r ht hp =>
    intro j k u v hu hv id hc
    have hv := (lookup_erase_cases hv).2
    have := h j k u v (lookup_erase_cases hu).2 hv id hc
    rwa [viewOf, settling_held (hck k v hv) _ s.db]
  | abort i hi => exact fun j k u v hu hv => h j k u v (lookup_erase_cases hu).2 (lookup_erase_cases hv).2

theorem apart_run {s : Pg} (h : Run body uncrossed init s) : Apart s := by
  induction h with
  | refl => exact fun i j t u ht => by simp [init, Lib.ReadCommitted.init] at ht
  | step a hr ha hs ih => exact apart_step (throughout_run body checked_body hr) ih hs ha

/-- Why a transaction waits for the row. -/
theorem waits_of_wants {s : Pg} (hck : ThroughoutAll (fun c _ => Checked c) s) {i : Nat} {t : Txn}
    (ht : s.txns.lookup i = some t) {k : Key} (hk : k ∈ wants (viewOf s i t) t.prog) :
    ∃ l, label t.prog = some l ∧ Waits t.call l (viewOf s i t).rows t.writes k := by
  have := hck i t ht
  cases hp : t.prog with
  | stmt l writes next =>
    rw [hp] at this hk
    obtain ⟨hw, hm⟩ := mem_wants.mp hk
    exact ⟨l, rfl, (this.1 s.db (lockedByOthers s i)).waits k hw hm⟩
  | _ => rw [hp] at hk; cases hk

/-- Two statements that each want a row the other's transaction holds: a cancel's and a
    worker's, of one campaign. -/
theorem waits_cross {c c' : Call} {l l' : Sql} {d d' : Db} {ws ws' : List Write} {k k' : Key} (h : Waits c l d ws k)
    (h' : Waits c' l' d' ws' k') (hk : wrote ws' k = true) (hk' : wrote ws k' = true) : ∃ id,
      (cancelling c (some l) = some id ∧ settling d' c' (some l') = some id) ∨
        (cancelling c' (some l') = some id ∧ settling d c (some l) = some id) := by
  cases h with
  | first he =>
    rw [he] at hk'
    cases hk'
  | @cancelling id i hc hheld =>
    cases h' with
    | first he =>
      rw [he] at hk
      cases hk
    | @settling id' hs _ =>
      obtain rfl : id' = id := by simpa using hheld _ hk'
      exact ⟨id', Or.inl ⟨hc, hs⟩⟩
    | cancelling _ _ => cases hheld _ hk'
    | clearing _ => cases hheld _ hk'
  | @settling id hs hheld =>
    cases h' with
    | first he =>
      rw [he] at hk
      cases hk
    | @cancelling id' i hc hheld' =>
      obtain rfl : id = id' := by simpa using hheld' _ hk
      exact ⟨id, Or.inr ⟨hc, hs⟩⟩
    | settling _ hheld' =>
      rw [hheld'] at hk
      cases hk
    | clearing hruns =>
      obtain ⟨j, hj⟩ := hruns _ hk
      cases hj
  | clearing hruns =>
    cases h' with
    | first he =>
      rw [he] at hk
      cases hk
    | cancelling _ hheld' => cases hheld' _ hk
    | settling _ _ =>
      obtain ⟨j, hj⟩ := hruns _ hk'
      cases hj
    | clearing hruns' =>
      obtain ⟨j, hj⟩ := hruns' _ hk
      cases hj

theorem undeadlocked_while_uncrossed {s : Pg} (h : Run body uncrossed init s) (i j : Nat) :
    deadlocked s i j = false := by
  have hck : ThroughoutAll (fun c _ => Checked c) s := throughout_run body checked_body h
  rw [← Bool.not_eq_true]
  intro hd
  obtain ⟨hij, hji⟩ := (Bool.and_eq_true _ _).mp hd
  obtain ⟨-, t, u, ht, hu, k, hk, hku⟩ := waitsFor_iff.mp hij
  obtain ⟨-, u', t', hu', ht', k', hk', hkt⟩ := waitsFor_iff.mp hji
  cases hu.symm.trans hu'
  cases ht.symm.trans ht'
  obtain ⟨l, hl, hw⟩ := waits_of_wants hck ht hk
  obtain ⟨l', hl', hw'⟩ := waits_of_wants hck hu hk'
  have hapart := apart_run h
  obtain ⟨id, ⟨hc, hs⟩ | ⟨hc, hs⟩⟩ := waits_cross hw hw' hku hkt
  · exact hapart i j t u ht hu id (hl ▸ hc) (hl' ▸ hs)
  · exact hapart j i u t hu ht id (hl' ▸ hc) (hl ▸ hs)

/-- `cancel_campaign` holds both rows, and `finish_run` waits for it. -/
def finishWaits : List PgAct :=
  [.start 2 (.cancelCampaign 1), .exec 2, .exec 2, .exec 2, .start 3 (.finishRun 2 ⟨.completed, 10, none, []⟩ id)]

theorem undeadlocked_finish_waits : ∃ s, play body uncrossed init (createAndStart ++ finishWaits) = some s ∧
    waitsFor s 3 2 = true ∧ deadlocked s 2 3 = false := by
  have h : (play body uncrossed init (createAndStart ++ finishWaits)).map (waitsFor · 3 2) = some true := by decide
  obtain ⟨s, hs, hw⟩ := Option.map_eq_some_iff.mp h
  exact ⟨s, hs, hw, undeadlocked_while_uncrossed (play_run body _ .refl hs) 2 3⟩

/-! ## The cycle -/

/-- `cancel_campaign` locks the campaign, `finish_run` the run, and each goes for the other. -/
def cancelMeetsFinish : List PgAct :=
  [.start 2 (.cancelCampaign 1), .exec 2, .exec 2, .start 3 (.finishRun 2 ⟨.completed, 10, none, []⟩ id), .exec 3]

theorem deadlocked_cancel_finish : ¬ ∀ s : Pg, Reach s → ∀ i j, deadlocked s i j = false := by
  intro hall
  have h : (playAll init (createAndStart ++ cancelMeetsFinish)).map (fun s => deadlocked s 2 3) = some true := by decide
  obtain ⟨s, hs, hd⟩ := Option.map_eq_some_iff.mp h
  rw [hall s (playAll_reach hs) 2 3] at hd
  cases hd

end SoroFuzz.Store
