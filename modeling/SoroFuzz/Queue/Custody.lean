/-
  SoroFuzz.Queue.Custody — who has a run in hand.

  Between the commit of the `claim_job` that returns a run's job and the commit of its
  `finish_run`, a run passes from hand to hand: a transaction whose answer is on its way,
  the worker that got it, the worker's next transaction, and so on. `Stage` names the
  hands; a run is in one of them at a time and never goes back. No step reads the stages:
  the invariant says that there are some (`Custody ws s S`).

  Proved:
  - `custody_step`, `custody`: every reachable world has its stages. With them come the
    facts the log keeps of a run (`Trace`): one `start_run`, one invocation of the
    runner, one answer, and a `finish_run` that stores that answer.
-/

import SoroFuzz.Queue.World

namespace SoroFuzz.Queue

open SoroFuzz.Store
open Lib.Process
open World

inductive Stage where
  | unclaimed
  | claimed (tx : Nat)
  | loading (k : Nat)
  | starting (tx : Nat)
  | ready (k : Nat)
  | running (k : Nat)
  | ran (k : Nat)
  | finishing (tx : Nat)
  | done
  deriving DecidableEq

namespace Stage

def rank : Stage → Nat
  | .unclaimed => 0
  | .claimed _ => 1
  | .loading _ => 2
  | .starting _ => 3
  | .ready _ => 4
  | .running _ => 5
  | .ran _ => 6
  | .finishing _ => 7
  | .done => 8

/-- The run is in the hands of worker `k`, which is doing `d`. -/
def inHand (k : Nat) (d : Doing) : Stage → Prop
  | .claimed tx | .starting tx => ∃ op next, d = .waiting tx op next
  | .loading j | .ready j | .running j | .ran j => j = k
  | .unclaimed | .finishing _ | .done => False

end Stage

def invokedRuns (log : List Event) : List Uuid :=
  log.filterMap fun
    | .invoked _ job => some job.runId
    | _ => none

/-- What the log tells of the runs, at stages `S`. -/
structure Trace (ws : Nat → Worker) (S : Uuid → Stage) (log : List Event) : Prop where
  starts : ∀ i runId workerId, .began i (.startRun runId workerId) ∈ log → 3 ≤ (S runId).rank
  startOnce : ∀ i j runId v w, .began i (.startRun runId v) ∈ log → .began j (.startRun runId w) ∈ log → i = j
  invokes : ∀ k job, .invoked k job ∈ log → 5 ≤ (S job.runId).rank ∧ Started (commits log) job.runId
  invokedOnce : (invokedRuns log).Nodup
  rans : ∀ k job a, .ran k job a ∈ log → 6 ≤ (S job.runId).rank ∧ .invoked k job ∈ log
  ranOnce : ∀ k k' job job' a a', .ran k job a ∈ log → .ran k' job' a' ∈ log → job.runId = job'.runId →
    k = k' ∧ job = job' ∧ a = a'
  finishes : ∀ i runId f ids, .began i (.finishRun runId f ids) ∈ log →
    ∃ k job a, .ran k job a ∈ log ∧ job.runId = runId ∧ f = (ws k).finish job.fuzzTargetName a

/-- Where worker `k` is in `process`, between two of its actions. -/
def AtPhase (ws : Nat → Worker) (S : Uuid → Stage) (log : List Event) (k : Nat) : Phase → Prop
  | .idle => True
  | .loading runId => S runId = .loading k
  | .ready runId => S runId = .ready k ∧ Started (commits log) runId
  | .ran job a => S job.runId = .ran k ∧ .ran k job a ∈ log
  | .told job a => S job.runId = .ran k ∧ .ran k job a ∈ log ∧
      .emitted k job.runId (.status ((ws k).finish job.fuzzTargetName a).status.runStatus) ∈ log
  | .saved job a => .ran k job a ∈ log ∧
    ∃ r, .replied k (.finishRun job.runId ((ws k).finish job.fuzzTargetName a)) r ∈ log

/-- Where worker `k` is, while it awaits the transaction `tx`. -/
def Awaits (S : Uuid → Stage) (log : List Event) (k tx : Nat) : Phase → StoreOp → Prop
  | .loading runId, .getCampaign _ => S runId = .loading k
  | .loading runId, .startRun _ _ => S runId = .starting tx
  | .told job a, .finishRun _ _ => .ran k job a ∈ log
  | _, _ => True

def Holds (ws : Nat → Worker) (S : Uuid → Stage) (log : List Event) (k : Nat) : Doing → Prop
  | .at p => ∃ φ, Obeys (protocol (ws k)) φ p ∧ AtPhase ws S log k φ
  | .waiting tx op next => .called k op tx ∈ log ∧
      ∃ φ, (protocol (ws k)).allows φ (.store op) ∧ (∀ r, Obeys (protocol (ws k)) (φ.reply op r) (next r)) ∧
        Awaits S log k tx φ op
  | .running job next => S job.runId = .running k ∧ .invoked k job ∈ log ∧
    ∀ a, Obeys (protocol (ws k)) (.ran job a) (next a)

/-- The jobs that `claim_job` returned. -/
def claimedJobs (cs : List Commit) : List Uuid :=
  cs.filterMap fun
    | ⟨_, .claimJob _ _, .claimed (some job)⟩ => some job.jobId
    | _ => none

structure Custody (ws : Nat → Worker) (s : World) (S : Uuid → Stage) : Prop where
  sound : Sound s
  history : History s.pg.db (commits s.log)
  trace : Trace ws S s.log
  holds : ∀ k, Holds ws S s.log k (s.workers k)
  /-- The answer to a `claim_job` is on its way. -/
  awaited : ∀ tx c job k op next, .committed tx c (.claimed (some job)) ∈ s.log → s.workers k = .waiting tx op next →
    S job.runId = .claimed tx
  jobs : ∀ runId, S runId ≠ .unclaimed → ∃ id j, Db.job s.pg.db id = some j ∧ j.runId = runId ∧ j.claimedBy ≠ none
  claims : (claimedJobs (commits s.log)).Nodup
  finishing : ∀ i t runId f ids, s.pg.txns.lookup i = some t → t.call = .finishRun runId f ids →
    S runId = .finishing i ∧ ∃ q, Db.run t.seen runId = some q ∧ q.status ≠ .pending
  finished : ∀ runId f, Finished (commits s.log) runId f → S runId = .done

/-! ## The log -/

theorem started_mono {cs cs' : List Commit} (h : cs ⊆ cs') {runId : Uuid} (hs : Started cs runId) :
    Started cs' runId := by
  obtain ⟨tx, workerId, hm⟩ := hs
  exact ⟨tx, workerId, h hm⟩

theorem commits_subset {log log' : List Event} (h : ∀ e, e ∈ log → e ∈ log') : commits log ⊆ commits log' := by
  intro e hm
  obtain ⟨tx, c, r⟩ := e
  exact mem_commits.mpr (h _ (mem_commits.mp hm))

/-- The events that `Trace` is about. -/
def Event.traced : Event → Bool
  | .began _ (.startRun _ _) | .began _ (.finishRun _ _ _) | .invoked _ _ | .ran _ _ _ => true
  | _ => false

namespace Trace
variable {ws : Nat → Worker} {S S' : Uuid → Stage} {log : List Event}

theorem later (h : Trace ws S log) (hS : ∀ r, (S r).rank ≤ (S' r).rank) : Trace ws S' log where
  starts i runId workerId hm := Nat.le_trans (h.starts i runId workerId hm) (hS _)
  startOnce := h.startOnce
  invokes k job hm := ⟨Nat.le_trans (h.invokes k job hm).1 (hS _), (h.invokes k job hm).2⟩
  invokedOnce := h.invokedOnce
  rans k job a hm := ⟨Nat.le_trans (h.rans k job a hm).1 (hS _), (h.rans k job a hm).2⟩
  ranOnce := h.ranOnce
  finishes := h.finishes

theorem mem_invokedRuns {runId : Uuid} :
    runId ∈ invokedRuns log ↔ ∃ k job, .invoked k job ∈ log ∧ job.runId = runId := by
  rw [invokedRuns, List.mem_filterMap]
  constructor
  · intro h
    obtain ⟨e, he, hr⟩ := h
    cases e <;> cases hr
    exact ⟨_, _, he, rfl⟩
  · intro h
    obtain ⟨k, job, hm, rfl⟩ := h
    exact ⟨_, hm, rfl⟩

/-- One more event: what it takes to keep the trace, by the kind of the event. -/
theorem cons (h : Trace ws S log) (e : Event)
    (hstart : ∀ i r v, e = .began i (.startRun r v) → 3 ≤ (S r).rank ∧ ∀ j w, .began j (.startRun r w) ∉ log)
    (hinvoked : ∀ k job, e = .invoked k job → 5 ≤ (S job.runId).rank ∧ Started (commits log) job.runId ∧
      ∀ k' job', .invoked k' job' ∈ log → job'.runId ≠ job.runId)
    (hran : ∀ k job a, e = .ran k job a → 6 ≤ (S job.runId).rank ∧ .invoked k job ∈ log ∧
      ∀ k' job' a', .ran k' job' a' ∈ log → job'.runId ≠ job.runId)
    (hfinish : ∀ i r f ids, e = .began i (.finishRun r f ids) →
      ∃ k job a, .ran k job a ∈ log ∧ job.runId = r ∧ f = (ws k).finish job.fuzzTargetName a) :
        Trace ws S (e :: log) := by
  have hsub : commits log ⊆ commits (e :: log) := commits_subset fun _ => List.mem_cons_of_mem _
  constructor
  case starts =>
    intro i r v hm
    rcases List.mem_cons.mp hm with heq | hm
    · exact (hstart i r v heq.symm).1
    · exact h.starts i r v hm
  case startOnce =>
    intro i j r v w hi hj
    rcases List.mem_cons.mp hi with ei | hi <;> rcases List.mem_cons.mp hj with ej | hj
    · rw [← ei] at ej; cases ej; rfl
    · exact absurd hj ((hstart i r v ei.symm).2 j w)
    · exact absurd hi ((hstart j r w ej.symm).2 i v)
    · exact h.startOnce i j r v w hi hj
  case invokes =>
    intro k job hm
    rcases List.mem_cons.mp hm with heq | hm
    · exact ⟨(hinvoked k job heq.symm).1, started_mono hsub (hinvoked k job heq.symm).2.1⟩
    · exact ⟨(h.invokes k job hm).1, started_mono hsub (h.invokes k job hm).2⟩
  case invokedOnce =>
    cases e with
    | invoked k job =>
      refine List.nodup_cons.mpr ⟨fun hm => ?_, h.invokedOnce⟩
      obtain ⟨k', job', hm', hr⟩ := mem_invokedRuns.mp hm
      exact (hinvoked k job rfl).2.2 k' job' hm' hr
    | _ => exact h.invokedOnce
  case rans =>
    intro k job a hm
    rcases List.mem_cons.mp hm with heq | hm
    · exact ⟨(hran k job a heq.symm).1, List.mem_cons_of_mem _ (hran k job a heq.symm).2.1⟩
    · exact ⟨(h.rans k job a hm).1, List.mem_cons_of_mem _ (h.rans k job a hm).2⟩
  case ranOnce =>
    intro k k' job job' a a' hm hm' hr
    rcases List.mem_cons.mp hm with ei | hm <;> rcases List.mem_cons.mp hm' with ej | hm'
    · rw [← ei] at ej; cases ej; exact ⟨rfl, rfl, rfl⟩
    · exact absurd hr.symm ((hran k job a ei.symm).2.2 k' job' a' hm')
    · exact absurd hr ((hran k' job' a' ej.symm).2.2 k job a hm)
    · exact h.ranOnce k k' job job' a a' hm hm' hr
  case finishes =>
    intro i r f ids hm
    rcases List.mem_cons.mp hm with heq | hm
    · obtain ⟨k, job, a, hr, hf⟩ := hfinish i r f ids heq.symm
      exact ⟨k, job, a, List.mem_cons_of_mem _ hr, hf⟩
    · obtain ⟨k, job, a, hr, hf⟩ := h.finishes i r f ids hm
      exact ⟨k, job, a, List.mem_cons_of_mem _ hr, hf⟩

/-- An event that is not of those. -/
theorem skip (h : Trace ws S log) {e : Event} (he : e.traced = false) : Trace ws S (e :: log) :=
  h.cons e (fun _ _ _ heq => by rw [heq] at he; cases he) (fun _ _ heq => by rw [heq] at he; cases he)
    (fun _ _ _ heq => by rw [heq] at he; cases he) (fun _ _ _ _ heq => by rw [heq] at he; cases he)

end Trace

/-! ## The hands -/

variable {ws : Nat → Worker} {s s' : World} {S S' : Uuid → Stage}

/-- What a worker holds does not depend on the runs in other hands. -/
theorem Holds.frame {log log' : List Event} {k : Nat} {d : Doing} (h : Holds ws S log k d)
    (hS : ∀ r, (S r).inHand k d → S' r = S r) (hlog : ∀ e, e ∈ log → e ∈ log') : Holds ws S' log' k d := by
  have keep : ∀ {r st}, st.inHand k d → S r = st → S' r = st := fun {r st} hst hr => (hS r (hr ▸ hst)).trans hr
  cases d with
  | «at» p =>
    obtain ⟨φ, hp, hφ⟩ := h
    refine ⟨φ, hp, ?_⟩
    cases φ with
    | idle => trivial
    | loading r => exact keep rfl hφ
    | ready r => exact ⟨keep rfl hφ.1, started_mono (commits_subset hlog) hφ.2⟩
    | ran job a => exact ⟨keep rfl hφ.1, hlog _ hφ.2⟩
    | told job a => exact ⟨keep rfl hφ.1, hlog _ hφ.2.1, hlog _ hφ.2.2⟩
    | saved job a =>
      obtain ⟨hr, r, hm⟩ := hφ
      exact ⟨hlog _ hr, r, hlog _ hm⟩
  | waiting tx op next =>
    obtain ⟨hc, φ, ha, hn, hw⟩ := h
    refine ⟨hlog _ hc, φ, ha, hn, ?_⟩
    cases φ with
    | loading r =>
      cases op with
      | getCampaign id => exact keep rfl hw
      | startRun id w => exact keep ⟨_, _, rfl⟩ hw
      | _ => trivial
    | told job a =>
      cases op with
      | finishRun id f => exact hlog _ hw
      | _ => trivial
    | _ => trivial
  | running job next => exact ⟨keep rfl h.1, hlog _ h.2.1, h.2.2⟩

/-- A run is in one worker's hands only. -/
theorem Custody.inHand_unique (h : Custody ws s S) {st : Stage} {k k' : Nat} (hk : st.inHand k (s.workers k))
    (hk' : st.inHand k' (s.workers k')) : k = k' := by
  have hwait : ∀ {tx}, (∃ op next, s.workers k = .waiting tx op next) →
    (∃ op next, s.workers k' = .waiting tx op next) → k = k' := by
    rintro tx ⟨op, next, e⟩ ⟨op', next', e'⟩
    have hh := h.holds k
    have hh' := h.holds k'
    rw [e] at hh
    rw [e'] at hh'
    exact h.sound.caller k k' op op' tx hh.1 hh'.1
  cases st with
  | claimed tx => exact hwait hk hk'
  | starting tx => exact hwait hk hk'
  | loading j => exact hk.symm.trans hk'
  | ready j => exact hk.symm.trans hk'
  | running j => exact hk.symm.trans hk'
  | ran j => exact hk.symm.trans hk'
  | unclaimed | finishing _ | done => exact hk.elim

/-- A step that commits nothing, in which only worker `k` may move, and only runs in its
    hands. -/
theorem Custody.advance (h : Custody ws s S) (k : Nat) (hsound : Sound s') (hdb : s'.pg.db = s.pg.db)
    (hcommits : commits s'.log = commits s.log) (hlog : ∀ e, e ∈ s.log → e ∈ s'.log)
    (hworkers : ∀ k', k' ≠ k → s'.workers k' = s.workers k')
    (hS : ∀ r, S' r = S r ∨ (S r).inHand k (s.workers k)) (htrace : Trace ws S' s'.log)
    (hk : Holds ws S' s'.log k (s'.workers k))
    (hwait : ∀ tx c job op next, .committed tx c (.claimed (some job)) ∈ s.log → s'.workers k = .waiting tx op next →
      S' job.runId = .claimed tx)
    (htxns : ∀ i t, s'.pg.txns.lookup i = some t →
      (∃ u, s.pg.txns.lookup i = some u ∧ u.call = t.call ∧ u.seen = t.seen) ∨
      ∀ runId f ids, t.call = .finishRun runId f ids →
        S' runId = .finishing i ∧ ∃ q, Db.run t.seen runId = some q ∧ q.status ≠ .pending) : Custody ws s' S' := by
  have hother : ∀ k', k' ≠ k → ∀ r, (S r).inHand k' (s.workers k') → S' r = S r := by
    intro k' hne r hr
    rcases hS r with hr' | hr'
    · exact hr'
    · exact absurd (h.inHand_unique hr hr') hne
  constructor
  case sound => exact hsound
  case history => rw [hdb, hcommits]; exact h.history
  case trace => exact htrace
  case claims => rw [hcommits]; exact h.claims
  case holds =>
    intro k'
    by_cases e : k' = k
    · rw [e]; exact hk
    · rw [hworkers k' e]
      exact (h.holds k').frame (hother k' e) hlog
  case awaited =>
    intro tx c job k' op next hm hw
    have hm' : .committed tx c (.claimed (some job)) ∈ s.log := mem_commits.mp (hcommits ▸ mem_commits.mpr hm)
    by_cases e : k' = k
    · rw [e] at hw; exact hwait tx c job op next hm' hw
    · rw [hworkers k' e] at hw
      have hst := h.awaited tx c job k' op next hm' hw
      rw [hother k' e job.runId (by rw [hst]; exact ⟨op, next, hw⟩), hst]
  case jobs =>
    intro r hr
    rw [hdb]
    refine h.jobs r fun hun => ?_
    rcases hS r with hr' | hr'
    · exact hr (hr'.trans hun)
    · rw [hun] at hr'; exact hr'
  case finishing =>
    intro i t r f ids ht hc
    rcases htxns i t ht with ⟨u, hu, hcall, hseen⟩ | hnew
    · obtain ⟨hst, hq⟩ := h.finishing i u r f ids hu (hcall.trans hc)
      refine ⟨?_, hseen ▸ hq⟩
      rcases hS r with hr' | hr'
      · exact hr'.trans hst
      · rw [hst] at hr'; exact hr'.elim
    · exact hnew r f ids hc
  case finished =>
    intro r f hf
    have hst := h.finished r f (hcommits ▸ hf)
    rcases hS r with hr' | hr'
    · exact hr'.trans hst
    · rw [hst] at hr'; exact hr'.elim

/-! ## Commits -/

/-- The commit of `i` takes a run from nobody's hands into its own, or out of its own to
    the end, and moves no other. -/
def Passed (i : Nat) (S S' : Uuid → Stage) : Prop :=
  ∀ x, S' x = S x ∨ (S x = .unclaimed ∧ S' x = .claimed i) ∨ (S x = .finishing i ∧ S' x = .done)

namespace Passed
variable {i : Nat} {x : Uuid}

theorem of_inHand (h : Passed i S S') {k : Nat} {d : Doing} (hx : (S x).inHand k d) : S' x = S x := by
  rcases h x with hx' | ⟨hx', -⟩ | ⟨hx', -⟩
  · exact hx'
  · rw [hx'] at hx; exact hx.elim
  · rw [hx'] at hx; exact hx.elim

theorem rank_le (h : Passed i S S') (x : Uuid) : (S x).rank ≤ (S' x).rank := by
  rcases h x with hx | ⟨hx, hx'⟩ | ⟨hx, hx'⟩
  · rw [hx]
  · rw [hx]; exact Nat.zero_le _
  · rw [hx, hx']; exact Nat.le_succ 7

theorem of_finishing (h : Passed i S S') {j : Nat} (hne : j ≠ i) (hx : S x = .finishing j) : S' x = .finishing j := by
  rcases h x with hx' | ⟨hx', -⟩ | ⟨hx', -⟩
  · exact hx'.trans hx
  · rw [hx] at hx'; cases hx'
  · rw [hx] at hx'; cases hx'; exact absurd rfl hne

theorem of_done (h : Passed i S S') (hx : S x = .done) : S' x = .done := by
  rcases h x with hx' | ⟨hx', -⟩ | ⟨hx', -⟩
  · exact hx'.trans hx
  · rw [hx] at hx'; cases hx'
  · rw [hx] at hx'; cases hx'

theorem of_unclaimed (h : Passed i S S') (hx : S x = .unclaimed) : S' x = .unclaimed ∨ S' x = .claimed i := by
  rcases h x with hx' | ⟨-, hx'⟩ | ⟨hx', -⟩
  · exact Or.inl (hx'.trans hx)
  · exact Or.inr hx'
  · rw [hx] at hx'; cases hx'

end Passed

/-- A job that was not claimed yet may be. -/
theorem claimedJobs_cons {cs : List Commit} (h : (claimedJobs cs).Nodup) (c : Commit)
    (hnew : ∀ job, c.reply = .claimed (some job) → job.jobId ∉ claimedJobs cs) : (claimedJobs (c :: cs)).Nodup := by
  unfold claimedJobs
  rw [List.filterMap_cons]
  split
  · exact h
  · rename_i id heq
    split at heq
    · cases heq
      exact List.nodup_cons.mpr ⟨hnew _ rfl, h⟩
    · cases heq

theorem Custody.commit (h : Custody ws s S) {i : Nat} {t : Txn} {r : Reply} {pg : Pg} (ht : s.pg.txns.lookup i = some t)
    (hp : t.prog = .commit r) (hpg : Lib.ReadCommitted.step body s.pg (.commit i) = some pg) (hS : Passed i S S')
    (hclaim : ∀ job, r = .claimed (some job) → S' job.runId = .claimed i ∧ job.jobId ∉ claimedJobs (commits s.log))
    (hjobs : ∀ x, S x = .unclaimed → S' x = .claimed i → ∃ id j, Db.job pg.db id = some j ∧ j.runId = x ∧
      j.claimedBy ≠ none)
    (hdone : ∀ x f ids, t.call = .finishRun x f ids → S' x = .done) :
    Custody ws { s with pg, log := .committed i t.call r :: s.log } S' := by
  have hsound := sound_step h.sound (.commit i t r pg ht hp hpg : Stepped ws s _)
  obtain ⟨-, hpersist, he⟩ := Lib.ReadCommitted.commit_post h.sound.ok ht hp
  have hdb : pg = { s.pg with db := Lib.ReadCommitted.applyAll t.writes s.pg.db, txns := s.pg.txns.erase i } := by
    simpa [Lib.ReadCommitted.step, ht, hp] using hpg.symm
  have hcons : ∀ e, e ∈ s.log → e ∈ .committed i t.call r :: s.log := fun e => List.mem_cons_of_mem _
  have hfin : ∀ runId f ids, t.call = .finishRun runId f ids →
      (∀ g, ¬ Finished (commits s.log) runId g) ∧ ∃ q, Db.run t.seen runId = some q ∧ q.status ≠ .pending := by
    intro runId f ids hc
    obtain ⟨hst, hq⟩ := h.finishing i t runId f ids ht hc
    refine ⟨fun g hg => ?_, hq⟩
    have := h.finished runId g hg
    rw [hst] at this; cases this
  constructor
  case sound => exact hsound
  case history =>
    rw [hdb]
    exact history_commit h.history he h.sound.ok.inv hfin
  case trace => exact (h.trace.later hS.rank_le).skip rfl
  case holds => exact fun k => (h.holds k).frame (fun x hx => hS.of_inHand hx) hcons
  case awaited =>
    intro tx c job k op next hm hw
    rcases List.mem_cons.mp hm with heq | hm
    · cases heq
      exact (hclaim job rfl).1
    · have hst := h.awaited tx c job k op next hm hw
      rw [hS.of_inHand (k := k) (d := s.workers k) (by rw [hst]; exact ⟨op, next, hw⟩), hst]
  case jobs =>
    intro x hx
    by_cases hun : S x = .unclaimed
    · exact hjobs x hun ((hS.of_unclaimed hun).resolve_left hx)
    · obtain ⟨id, j, hj, hr, hc⟩ := h.jobs x hun
      obtain ⟨j', hj', hr', -, hc'⟩ := Persist.job hpersist id j hj
      rw [hdb]
      exact ⟨id, j', hj', hr'.trans hr, hc' hc⟩
  case claims => exact claimedJobs_cons h.claims _ fun job e => (hclaim job e).2
  case finishing =>
    intro j u x f ids hu hc
    simp only [hdb] at hu
    obtain ⟨hji, hu⟩ := Lib.ReadCommitted.lookup_erase_cases hu
    obtain ⟨hst, hq⟩ := h.finishing j u x f ids hu hc
    exact ⟨hS.of_finishing hji hst, hq⟩
  case finished =>
    intro x f hex
    obtain ⟨tx, ids, hm⟩ := hex
    rcases List.mem_cons.mp hm with heq | hm
    · exact hdone x f ids (congrArg Commit.call heq).symm
    · exact hS.of_done (h.finished x f ⟨tx, ids, hm⟩)

theorem mem_claimedJobs {cs : List Commit} {id : Uuid} (h : id ∈ claimedJobs cs) :
    ∃ tx tie workerId job, (⟨tx, .claimJob tie workerId, .claimed (some job)⟩ : Commit) ∈ cs ∧ job.jobId = id := by
  obtain ⟨c, hc, he⟩ := List.mem_filterMap.mp h
  split at he
  · cases he
    exact ⟨_, _, _, _, hc, rfl⟩
  · cases he

section commits
variable {i : Nat} {t : Txn} {r : Reply} {pg : Pg}

/-- A commit that moves no run. -/
theorem Custody.commit_same (h : Custody ws s S) (ht : s.pg.txns.lookup i = some t) (hp : t.prog = .commit r)
    (hpg : Lib.ReadCommitted.step body s.pg (.commit i) = some pg) (hr : ∀ job, r ≠ .claimed (some job))
    (hc : ∀ x f ids, t.call ≠ .finishRun x f ids) :
    Custody ws { s with pg, log := .committed i t.call r :: s.log } S :=
  h.commit ht hp hpg (fun _ => Or.inl rfl) (fun job e => absurd e (hr job))
    (fun x hun hcl => by rw [hun] at hcl; cases hcl) (fun x f ids e => absurd e (hc x f ids))

theorem Custody.commit_finish (h : Custody ws s S) (ht : s.pg.txns.lookup i = some t) (hp : t.prog = .commit .finished)
    (hpg : Lib.ReadCommitted.step body s.pg (.commit i) = some pg) {runId : Uuid} {f : RunFinish} {ids : Nat → Uuid}
    (hc : t.call = .finishRun runId f ids) :
    Custody ws { s with pg, log := .committed i t.call .finished :: s.log } (Function.update S runId .done) := by
  have hst := (h.finishing i t runId f ids ht hc).1
  refine h.commit ht hp hpg (fun x => ?_) (fun job e => by cases e) (fun x hun hcl => ?_) (fun x g ids' e => ?_)
  · by_cases e : x = runId
    · subst e; exact Or.inr (Or.inr ⟨hst, Function.update_self ..⟩)
    · exact Or.inl (Function.update_of_ne e ..)
  · by_cases e : x = runId
    · subst e; rw [hst] at hun; cases hun
    · rw [Function.update_of_ne e, hun] at hcl; cases hcl
  · rw [hc] at e; cases e
    exact Function.update_self ..

/-- The job was unclaimed, so nobody had its run in hand. -/
theorem Custody.commit_claim (h : Custody ws s S) (ht : s.pg.txns.lookup i = some t) {tie : Uuid → Nat}
    {workerId : String} (hcall : t.call = .claimJob tie workerId) {id : Uuid} {j j' : JobRow}
    (hp : t.prog = .commit (.claimed (some ⟨id, j.campaignId, j.runId, j.attempts + 1⟩)))
    (hpg : Lib.ReadCommitted.step body s.pg (.commit i) = some pg) (hj : Db.job s.pg.db id = some j)
    (hnone : j.claimedBy = none) (hj' : Db.job pg.db id = some j') (hr : j'.runId = j.runId)
    (hc : j'.claimedBy ≠ none) :
    Custody ws { s with
      pg, log := .committed i t.call (.claimed (some ⟨id, j.campaignId, j.runId, j.attempts + 1⟩)) :: s.log }
      (Function.update S j.runId (.claimed i)) := by
  have hun : S j.runId = .unclaimed := by
    by_contra hne
    obtain ⟨id', q, hq, hqr, hqc⟩ := h.jobs _ hne
    obtain rfl := h.sound.ok.inv.jobUnique id' id q j hq hj hqr
    rw [hj] at hq; cases hq
    exact hqc hnone
  refine h.commit ht hp hpg (fun x => ?_) (fun job e => ?_) (fun x hx hcl => ?_)
    (fun x f ids e => by rw [hcall] at e; cases e)
  · by_cases e : x = j.runId
    · subst e; exact Or.inr (Or.inl ⟨hun, Function.update_self ..⟩)
    · exact Or.inl (Function.update_of_ne e ..)
  · cases e
    refine ⟨Function.update_self .., fun hm => ?_⟩
    obtain ⟨tx, tie', w', job', hm, hid⟩ := mem_claimedJobs hm
    obtain ⟨q, hq, -, hqc⟩ := h.history.claimed tx tie' w' job' hm
    rw [hid] at hq
    dsimp only at hq
    rw [hj] at hq; cases hq
    exact hqc hnone
  · by_cases e : x = j.runId
    · subst e
      exact ⟨id, j', hj', hr, hc⟩
    · rw [Function.update_of_ne e, hx] at hcl; cases hcl

theorem Custody.committed (h : Custody ws s S) (ht : s.pg.txns.lookup i = some t) (hp : t.prog = .commit r)
    (hpg : Lib.ReadCommitted.step body s.pg (.commit i) = some pg) :
    ∃ S', Custody ws { s with pg, log := .committed i t.call r :: s.log } S' := by
  have he := (Lib.ReadCommitted.commit_post h.sound.ok ht hp).2.2
  have hdb : pg.db = Lib.ReadCommitted.applyAll t.writes s.pg.db := by
    have := hpg.symm
    simp only [Lib.ReadCommitted.step, ht, hp, Option.some.injEq] at this
    rw [this]
  rw [← hdb] at he
  generalize hcall : t.call = c at he
  generalize hd : pg.db = d' at he
  rw [← hcall]
  cases he with
  | claimed tie workerId id j hj hnone =>
    obtain ⟨j', hj', hr, hc⟩ : ∃ j', Db.job pg.db id = some j' ∧ j'.runId = j.runId ∧ j'.claimedBy ≠ none := by
      rw [hd]; simp
    exact ⟨_, h.commit_claim ht hcall hp hpg hj hnone hj' hr hc⟩
  | finishedNot | finished => exact ⟨_, h.commit_finish ht hp hpg hcall⟩
  | _ => exact ⟨S, h.commit_same ht hp hpg (fun job e => by cases e) (fun x f ids e => by rw [hcall] at e; cases e)⟩

end commits

/-! ## The other steps -/

/-- Worker `k` goes on to `d`, with at most one event logged. -/
theorem Custody.goto (h : Custody ws s S) {k : Nat} {d : Doing} {es : List Event}
    (hes : es = [] ∨ ∃ e, e.quiet = true ∧ es = [e]) (hd : ∀ tx op next, d ≠ .waiting tx op next)
    (hS : ∀ r, S' r = S r ∨ (S r).inHand k (s.workers k)) (htrace : Trace ws S' (es ++ s.log))
    (hk : Holds ws S' (es ++ s.log) k d) : Custody ws (s.goto k d es) S' := by
  refine h.advance k (h.sound.quiet rfl rfl ?_) rfl ?_ (fun e he => List.mem_append_right _ he)
    (fun k' hne => Function.update_of_ne hne ..) hS htrace ?_ (fun tx c job op next _ hw => ?_)
    (fun i t ht => Or.inl ⟨t, ht, rfl, rfl⟩)
  · rcases hes with rfl | ⟨e, he, rfl⟩
    · exact Or.inl rfl
    · exact Or.inr ⟨e, he, rfl⟩
  · rcases hes with rfl | ⟨e, he, rfl⟩
    · rfl
    · cases e <;> first | rfl | cases he
  · simpa [World.goto] using hk
  · simp only [World.goto, Function.update_self] at hw
    exact absurd hw (hd tx op next)

/-- Worker `k` goes on, with no run moving. -/
theorem Custody.stay (h : Custody ws s S) {k : Nat} {p : Process} {es : List Event}
    (hes : es = [] ∨ ∃ e, e.quiet = true ∧ e.traced = false ∧ es = [e]) {φ : Phase} (hp : Obeys (protocol (ws k)) φ p)
    (hφ : AtPhase ws S (es ++ s.log) k φ) : Custody ws (s.goto k (.at p) es) S := by
  refine h.goto ?_ (fun _ _ _ => nofun) (fun _ => Or.inl rfl) ?_ ⟨φ, hp, hφ⟩
  · rcases hes with rfl | ⟨e, he, -, rfl⟩
    · exact Or.inl rfl
    · exact Or.inr ⟨e, he, rfl⟩
  · rcases hes with rfl | ⟨e, -, he, rfl⟩
    · exact h.trace
    · exact h.trace.skip he

/-- The run `r` goes from worker `k`'s hands to the stage `st`. -/
theorem update_rank {r : Uuid} {st : Stage} (h : (S r).rank ≤ st.rank) (x : Uuid) :
    (S x).rank ≤ (Function.update S r st x).rank := by
  by_cases e : x = r
  · subst e; rwa [Function.update_self]
  · rw [Function.update_of_ne e]

theorem update_inHand {r : Uuid} {st : Stage} {k : Nat} {d : Doing} (h : (S r).inHand k d) (x : Uuid) :
    Function.update S r st x = S x ∨ (S x).inHand k d := by
  by_cases e : x = r
  · subst e; exact Or.inr h
  · exact Or.inl (Function.update_of_ne e ..)

section calls
variable {k : Nat} {tie ids : Nat → Nat} {op : StoreOp} {next : Reply → Process} {pg : Pg}

/-- The world once worker `k` has begun its call. -/
def World.called (s : World) (pg : Pg) (k : Nat) (tie ids : Nat → Nat) (op : StoreOp) (next : Reply → Process) :
    World :=
  World.mk pg (Function.update s.workers k (.waiting s.next op next)) (s.next + 1)
    (.called k op s.next :: .began s.next (op.call tie ids) :: s.log)

/-- Whatever worker `k` calls, it is enough to say what becomes of the run. -/
theorem Custody.called (h : Custody ws s S) (hk : s.workers k = .at (.act (.store op) next))
    (hpg : Lib.ReadCommitted.step body s.pg (.start s.next (op.call tie ids)) = some pg) {φ : Phase}
    (hp : Obeys (protocol (ws k)) φ (.act (.store op) next))
    (hS : ∀ r, S' r = S r ∨ (S r).inHand k (s.workers k))
    (htrace : Trace ws S' (.began s.next (op.call tie ids) :: s.log))
    (hawaits : Awaits S' (s.called pg k tie ids op next).log k s.next φ op)
    (hfin : ∀ runId f ids', op.call tie ids = .finishRun runId f ids' →
      S' runId = .finishing s.next ∧ ∃ q, Db.run s.pg.db runId = some q ∧ q.status ≠ .pending) :
    Custody ws (s.called pg k tie ids op next) S' := by
  have hsound := sound_step h.sound (.call k tie ids op next pg hk hpg : Stepped ws s _)
  have hcons : ∀ e, e ∈ s.log → e ∈ (s.called pg k tie ids op next).log := fun e he =>
    List.mem_cons_of_mem _ (List.mem_cons_of_mem _ he)
  have hdb : pg = { s.pg with
      txns := s.pg.txns.insert s.next ⟨op.call tie ids, s.pg.now, s.pg.db, body (op.call tie ids) s.pg.now, []⟩ } := by
    cases Lib.ReadCommitted.step_cases body hpg with
    | start => rfl
  refine h.advance k hsound (by rw [hdb]; rfl) rfl hcons (fun k' hne => Function.update_of_ne hne ..) hS
    (htrace.skip rfl) ?_ (fun tx c job op' next' hm hw => ?_) (fun i t ht => ?_)
  · simp only [World.called, Function.update_self]
    exact ⟨List.mem_cons_self, φ, hp.allows, hp.next, hawaits⟩
  · -- No answer to the new transaction is in the log yet.
    simp only [World.called, Function.update_self, Doing.waiting.injEq] at hw
    rw [← hw.1] at hm
    exact absurd (h.sound.lt _ _ (h.sound.committed _ _ _ hm).1) (Nat.lt_irrefl _)
  · have ht' : pg.txns.lookup i = some t := ht
    rw [hdb] at ht'
    rcases Lib.ReadCommitted.lookup_insert_cases ht' with ⟨rfl, rfl⟩ | ⟨-, ht'⟩
    · exact Or.inr hfin
    · exact Or.inl ⟨t, ht', rfl, rfl⟩

/-- The run goes into the hands of the `start_run`, which is the run's first. -/
theorem Custody.call_start (h : Custody ws s S) {runId : Uuid} {workerId : String}
    (hk : s.workers k = .at (.act (.store (.startRun runId workerId)) next))
    (hpg : Lib.ReadCommitted.step body s.pg (.start s.next (.startRun runId workerId)) = some pg)
    (hp : Obeys (protocol (ws k)) (.loading runId) (.act (.store (.startRun runId workerId)) next))
    (hst : S runId = .loading k) :
    Custody ws (s.called pg k tie ids (.startRun runId workerId) next)
      (Function.update S runId (.starting s.next)) := by
  refine h.called hk hpg hp (update_inHand (by rw [hst]; exact rfl)) ?_ (Function.update_self ..)
    (fun _ _ _ e => by cases e)
  refine (h.trace.later (update_rank (by rw [hst]; exact Nat.le_succ 2))).cons _ (fun i r v e => ?_) nofun nofun
    (fun _ _ _ _ e => by cases e)
  cases e
  refine ⟨by rw [Function.update_self]; exact Nat.le_refl 3, fun j v hm => ?_⟩
  have hlow := h.trace.starts j _ v hm
  rw [hst] at hlow
  exact absurd hlow (by simp [Stage.rank])

/-- The run goes into the hands of the `finish_run`, with the answer that was published. -/
theorem Custody.call_finish (h : Custody ws s S) {job : RunJob} {a : Except RunnerError RunResult}
    (hk : s.workers k = .at (.act (.store (.finishRun job.runId ((ws k).finish job.fuzzTargetName a))) next))
    (hpg : Lib.ReadCommitted.step body s.pg
      (.start s.next (.finishRun job.runId ((ws k).finish job.fuzzTargetName a) ids)) = some pg)
    (hp : Obeys (protocol (ws k)) (.told job a)
      (.act (.store (.finishRun job.runId ((ws k).finish job.fuzzTargetName a))) next))
    (hst : S job.runId = .ran k) (hran : .ran k job a ∈ s.log) :
    Custody ws (s.called pg k tie ids (.finishRun job.runId ((ws k).finish job.fuzzTargetName a)) next)
      (Function.update S job.runId (.finishing s.next)) := by
  refine h.called hk hpg hp (update_inHand (by rw [hst]; exact rfl)) ?_
    (List.mem_cons_of_mem _ (List.mem_cons_of_mem _ hran)) (fun r f' ids' e => ?_)
  · refine (h.trace.later (update_rank (by rw [hst]; exact Nat.le_succ 6))).cons _ (fun _ _ _ e => by cases e) nofun
      nofun (fun i r f' ids' e => ?_)
    cases e
    exact ⟨k, job, a, hran, rfl, rfl⟩
  · cases e
    obtain ⟨q, hq, hpend⟩ := h.history.started _ (h.trace.invokes k job (h.trace.rans k job a hran).2).2
    exact ⟨Function.update_self .., q, hq, hpend⟩

/-- Worker `k` calls the store. -/
theorem Custody.call (h : Custody ws s S) (hk : s.workers k = .at (.act (.store op) next))
    (hpg : Lib.ReadCommitted.step body s.pg (.start s.next (op.call tie ids)) = some pg) :
    ∃ S', Custody ws (s.called pg k tie ids op next) S' := by
  obtain ⟨φ, hp, hφ⟩ : Holds ws S s.log k (.at (.act (.store op) next)) := hk ▸ h.holds k
  have hallow := hp.allows
  cases op with
  | claimJob w =>
    cases φ <;> first | exact hallow.elim | skip
    exact ⟨S, h.called hk hpg hp (fun _ => Or.inl rfl) (h.trace.skip rfl) trivial (fun _ _ _ e => by cases e)⟩
  | getCampaign id =>
    cases φ <;> first | exact hallow.elim | skip
    exact ⟨S, h.called hk hpg hp (fun _ => Or.inl rfl) (h.trace.skip rfl) hφ (fun _ _ _ e => by cases e)⟩
  | startRun id w =>
    cases φ <;> first | exact hallow.elim | skip
    rename_i r
    obtain rfl : id = r := hallow
    exact ⟨_, h.call_start hk hpg hp hφ⟩
  | finishRun id f =>
    cases φ <;> first | exact hallow.elim | skip
    obtain ⟨rfl, rfl⟩ := hallow
    exact ⟨_, h.call_finish hk hpg hp hφ.1 hφ.2.1⟩

end calls

/-- Worker `k` gets the answer to its call. -/
theorem Custody.reply (h : Custody ws s S) {k tx : Nat} {op : StoreOp} {next : Reply → Process} {r : Reply}
    (hk : s.workers k = .waiting tx op next) (hr : replyOf s.log tx = some r) :
    ∃ S', Custody ws (s.goto k (.at (next r)) [.replied k op r]) S' := by
  obtain ⟨hcalled, φ, hallow, hnext, haw⟩ : Holds ws S s.log k (.waiting tx op next) := hk ▸ h.holds k
  have hcommitted : r ≠ .error → r ≠ .campaign none → ∃ c tie ids, .committed tx c r ∈ s.log ∧ c = op.call tie ids := by
    intro h1 h2
    rcases mem_of_replyOf hr with ⟨c, hm⟩ | hm
    · obtain ⟨tie, ids, hb⟩ := h.sound.called k op tx hcalled
      exact ⟨c, tie, ids, hm, h.sound.once tx _ _ (h.sound.committed tx c r hm).1 hb⟩
    · rcases h.sound.aborted tx r hm with e | e
      · exact absurd e h1
      · exact absurd e h2
  have stay : ∀ {ψ}, φ.reply op r = ψ → AtPhase ws S (.replied k op r :: s.log) k ψ →
      ∃ S', Custody ws (s.goto k (.at (next r)) [.replied k op r]) S' := fun {ψ} e hψ =>
    ⟨S, h.stay (Or.inr ⟨_, rfl, rfl, rfl⟩) (φ := ψ) (e ▸ hnext r) hψ⟩
  have move : ∀ {runId} st {ψ}, φ.reply op r = ψ → (S runId).inHand k (s.workers k) → (S runId).rank ≤ st.rank →
      AtPhase ws (Function.update S runId st) (.replied k op r :: s.log) k ψ →
      ∃ S', Custody ws (s.goto k (.at (next r)) [.replied k op r]) S' := fun {runId} st {ψ} e hin hrank hψ =>
    ⟨_, h.goto (Or.inr ⟨_, rfl, rfl⟩) (fun _ _ _ => nofun) (update_inHand hin)
      ((h.trace.later (update_rank hrank)).skip rfl)
      ⟨ψ, e ▸ hnext r, hψ⟩⟩
  have hwaiting : ∃ op next, s.workers k = .waiting tx op next := ⟨op, next, hk⟩
  cases op with
  | claimJob w =>
    cases φ <;> first | exact hallow.elim | skip
    cases r with
    | claimed j =>
      cases j with
      | none => exact stay rfl trivial
      | some job =>
        obtain ⟨c, tie, ids, hm, -⟩ := hcommitted nofun nofun
        have hst := h.awaited tx c job k _ next hm hk
        exact move (.loading k) rfl (by rw [hst]; exact hwaiting) (by rw [hst]; exact Nat.le_succ 1)
          (Function.update_self ..)
    | _ => exact stay rfl trivial
  | getCampaign id =>
    cases φ <;> first | exact hallow.elim | skip
    exact stay rfl haw
  | startRun id w =>
    cases φ <;> first | exact hallow.elim | skip
    rename_i runId
    obtain rfl : id = runId := hallow
    have hst : S id = .starting tx := haw
    cases r with
    | started b =>
      cases b with
      | false => exact stay rfl trivial
      | true =>
        obtain ⟨c, tie, ids, hm, rfl⟩ := hcommitted nofun nofun
        refine move (.ready k) rfl (by rw [hst]; exact hwaiting) (by rw [hst]; exact Nat.le_succ 3)
          ⟨Function.update_self .., ?_⟩
        exact ⟨tx, w, mem_commits.mpr (List.mem_cons_of_mem _ hm)⟩
    | _ => exact stay rfl trivial
  | finishRun id f =>
    cases φ <;> first | exact hallow.elim | skip
    rename_i job a
    obtain ⟨rfl, rfl⟩ := hallow
    exact stay rfl ⟨List.mem_cons_of_mem _ haw, r, List.mem_cons_self⟩

/-- The call of worker `k` fails. -/
theorem Custody.failed (h : Custody ws s S) {k : Nat} {op : StoreOp} {next : Reply → Process}
    (hk : s.workers k = .at (.act (.store op) next) ∨ ∃ tx, s.workers k = .waiting tx op next) :
    Custody ws (s.goto k (.at (next .error)) [.replied k op .error]) S := by
  have hphase : ∃ φ, (protocol (ws k)).allows φ (.store op) ∧
    Obeys (protocol (ws k)) (φ.reply op .error) (next .error) ∧
      (∀ runId id, φ = .loading runId → op = .getCampaign id → S runId = .loading k) ∧
      ∀ job a id f, φ = .told job a → op = .finishRun id f → .ran k job a ∈ s.log := by
    rcases hk with hk | ⟨tx, hk⟩
    · obtain ⟨φ, hp, hφ⟩ : Holds ws S s.log k (.at (.act (.store op) next)) := hk ▸ h.holds k
      refine ⟨φ, hp.allows, hp.next .error, ?_, ?_⟩
      · rintro runId id rfl -; exact hφ
      · rintro job a id f rfl -; exact hφ.2.1
    · obtain ⟨-, φ, hallow, hnext, haw⟩ : Holds ws S s.log k (.waiting tx op next) := hk ▸ h.holds k
      refine ⟨φ, hallow, hnext .error, ?_, ?_⟩
      · rintro runId id rfl rfl; exact haw
      · rintro job a id f rfl rfl; exact haw
  obtain ⟨φ, hallow, hnext, hload, hran⟩ := hphase
  refine h.stay (Or.inr ⟨_, rfl, rfl, rfl⟩) hnext ?_
  cases op with
  | claimJob w => cases φ <;> first | exact hallow.elim | trivial
  | getCampaign id =>
    cases φ <;> first | exact hallow.elim | skip
    exact hload _ _ rfl rfl
  | startRun id w => cases φ <;> first | exact hallow.elim | trivial
  | finishRun id f =>
    cases φ <;> first | exact hallow.elim | skip
    obtain ⟨rfl, rfl⟩ := hallow
    exact ⟨List.mem_cons_of_mem _ (hran _ _ _ _ rfl rfl), .error, List.mem_cons_self⟩

/-- Worker `k` publishes an event. -/
theorem Custody.emit (h : Custody ws s S) {k : Nat} {id : Uuid} {e : ProgressEvent} {next : Unit → Process}
    (hk : s.workers k = .at (.act (.emit id e) next)) : Custody ws (s.goto k (.at (next ())) [.emitted k id e]) S := by
  obtain ⟨φ, hp, hφ⟩ : Holds ws S s.log k (.at (.act (.emit id e) next)) := hk ▸ h.holds k
  have hallow := hp.allows
  refine h.stay (Or.inr ⟨_, rfl, rfl, rfl⟩) (hp.next ()) ?_
  cases φ <;> first | exact hallow.elim | skip
  · exact ⟨hφ.1, started_mono (commits_subset fun _ => List.mem_cons_of_mem _) hφ.2⟩
  · obtain ⟨rfl, rfl⟩ := hallow
    exact ⟨hφ.1, List.mem_cons_of_mem _ hφ.2, List.mem_cons_self⟩

/-- Worker `k` invokes the runner. -/
theorem Custody.run (h : Custody ws s S) {k : Nat} {job : RunJob} {next : Except RunnerError RunResult → Process}
    (hk : s.workers k = .at (.act (.run job) next)) :
      ∃ S', Custody ws (s.goto k (.running job next) [.invoked k job]) S' := by
  obtain ⟨φ, hp, hφ⟩ : Holds ws S s.log k (.at (.act (.run job) next)) := hk ▸ h.holds k
  have hallow := hp.allows
  cases φ <;> first | exact hallow.elim | skip
  rename_i runId
  obtain rfl : job.runId = runId := hallow
  obtain ⟨hst, hstarted⟩ := hφ
  refine ⟨Function.update S job.runId (.running k), h.goto (Or.inr ⟨_, rfl, rfl⟩) (fun _ _ _ => nofun)
    (update_inHand (by rw [hst]; exact rfl)) ?_ ⟨Function.update_self .., List.mem_cons_self, fun a => hp.next a⟩⟩
  refine (h.trace.later (update_rank (by rw [hst]; exact Nat.le_succ 4))).cons _ nofun (fun k' job' e => ?_) nofun nofun
  cases e
  refine ⟨by rw [Function.update_self]; exact Nat.le_refl 5, hstarted, fun k' job' hm e => ?_⟩
  have hlow := (h.trace.invokes k' job' hm).1
  rw [e, hst] at hlow
  exact absurd hlow (by simp [Stage.rank])

/-- The runner answers worker `k`. -/
theorem Custody.answer (h : Custody ws s S) {k : Nat} {job : RunJob} {next : Except RunnerError RunResult → Process}
    {a : Except RunnerError RunResult} (hk : s.workers k = .running job next) :
    ∃ S', Custody ws (s.goto k (.at (next a)) [.ran k job a]) S' := by
  obtain ⟨hst, hinv, hnext⟩ : Holds ws S s.log k (.running job next) := hk ▸ h.holds k
  refine ⟨Function.update S job.runId (.ran k), h.goto (Or.inr ⟨_, rfl, rfl⟩) (fun _ _ _ => nofun)
    (update_inHand (by rw [hst]; exact rfl)) ?_ ⟨.ran job a, hnext a, Function.update_self .., List.mem_cons_self⟩⟩
  refine (h.trace.later (update_rank (by rw [hst]; exact Nat.le_succ 5))).cons _ nofun nofun
    (fun k' job' a' e => ?_) nofun
  cases e
  refine ⟨by rw [Function.update_self]; exact Nat.le_refl 6, hinv, fun k' job' a' hm e => ?_⟩
  have hlow := (h.trace.rans k' job' a' hm).1
  rw [e, hst] at hlow
  exact absurd hlow (by simp [Stage.rank])

/-- A step in which no worker moves and nothing commits. -/
theorem Custody.still (h : Custody ws s S) (hsound : Sound s') (hdb : s'.pg.db = s.pg.db)
    (hworkers : s'.workers = s.workers)
    (hlog : s'.log = s.log ∨ ∃ e, e.traced = false ∧ commits [e] = [] ∧ s'.log = e :: s.log)
    (htxns : ∀ i t, s'.pg.txns.lookup i = some t →
      (∃ u, s.pg.txns.lookup i = some u ∧ u.call = t.call ∧ u.seen = t.seen) ∨
      ∀ runId f ids, t.call ≠ .finishRun runId f ids) : Custody ws s' S := by
  have hsub : ∀ e, e ∈ s.log → e ∈ s'.log := by
    intro e he
    rcases hlog with hl | ⟨e', -, -, hl⟩ <;> rw [hl]
    · exact he
    · exact List.mem_cons_of_mem _ he
  refine h.advance 0 hsound hdb ?_ hsub (fun _ _ => by rw [hworkers]) (fun _ => Or.inl rfl) ?_ ?_
    (fun tx c job op next hm hw => h.awaited tx c job 0 op next hm (hworkers ▸ hw)) (fun i t ht => ?_)
  · rcases hlog with hl | ⟨e', -, hc, hl⟩ <;> rw [hl]
    rw [show commits (e' :: s.log) = commits [e'] ++ commits s.log from List.filterMap_append (l := [e']), hc,
      List.nil_append]
  · rcases hlog with hl | ⟨e', he, -, hl⟩ <;> rw [hl]
    · exact h.trace
    · exact h.trace.skip he
  · rw [hworkers]
    exact (h.holds 0).frame (fun _ _ => rfl) hsub
  · rcases htxns i t ht with hold | hnew
    · exact Or.inl hold
    · exact Or.inr fun runId f ids hc => absurd hc (hnew runId f ids)

theorem custody_step (h : Custody ws s S) (hs : Stepped ws s s') : ∃ S', Custody ws s' S' := by
  have hsound := sound_step h.sound hs
  cases hs with
  | tick d => exact ⟨S, h.still hsound rfl rfl (Or.inl rfl) fun i t ht => Or.inl ⟨t, ht, rfl, rfl⟩⟩
  | exec i t l pg ht hp hpg =>
    cases Lib.ReadCommitted.step_cases body hpg with
    | exec _ t' _ writes next ht' _ _ =>
      rw [ht] at ht'; cases ht'
      refine ⟨S, h.still hsound rfl rfl (Or.inr ⟨_, rfl, rfl, rfl⟩) fun j u hu => Or.inl ?_⟩
      rcases Lib.ReadCommitted.lookup_insert_cases hu with ⟨rfl, rfl⟩ | ⟨-, hu⟩
      · exact ⟨t, ht, rfl, rfl⟩
      · exact ⟨u, hu, rfl, rfl⟩
  | commit i t r pg ht hp hpg => exact h.committed ht hp hpg
  | abort i t r pg ht hp hpg =>
    cases Lib.ReadCommitted.step_cases body hpg with
    | abort _ hi =>
      exact ⟨S, h.still hsound rfl rfl (Or.inr ⟨_, rfl, rfl, rfl⟩) fun j u hu =>
        Or.inl ⟨u, (Lib.ReadCommitted.lookup_erase_cases hu).2, rfl, rfl⟩⟩
  | api c pg hc hpg =>
    cases Lib.ReadCommitted.step_cases body hpg with
    | start =>
      refine ⟨S, h.still hsound rfl rfl (Or.inr ⟨_, ?_, rfl, rfl⟩) fun i t ht => ?_⟩
      · cases c <;> first | rfl | cases hc
      · rcases Lib.ReadCommitted.lookup_insert_cases ht with ⟨rfl, rfl⟩ | ⟨-, ht⟩
        · exact Or.inr fun runId f ids e => by dsimp only at e; rw [e] at hc; cases hc
        · exact Or.inl ⟨t, ht, rfl, rfl⟩
  | poll k hk => exact ⟨S, h.stay (Or.inl rfl) (φ := .idle) runLoop_obeys trivial⟩
  | call k tie ids op next pg hk hpg => exact h.call hk hpg
  | reply k tx op next r hk hr => exact h.reply hk hr
  | failed k op next hk => exact ⟨S, h.failed hk⟩
  | publisher k id next hk =>
    obtain ⟨φ, hp, hφ⟩ : Holds ws S s.log k (.at (.act (.publisher id) next)) := hk ▸ h.holds k
    have hallow := hp.allows
    cases φ <;> first | exact hallow.elim | skip
    exact ⟨S, h.stay (Or.inl rfl) (hp.next ()) hφ⟩
  | emit k id e next hk => exact ⟨S, h.emit hk⟩
  | close k id next hk =>
    obtain ⟨φ, hp, hφ⟩ : Holds ws S s.log k (.at (.act (.close id) next)) := hk ▸ h.holds k
    have hallow := hp.allows
    cases φ <;> first | exact hallow.elim | skip
    exact ⟨S, h.stay (Or.inr ⟨_, rfl, rfl, rfl⟩) (φ := .idle) (hp.next ()) trivial⟩
  | run k job next hk => exact h.run hk
  | answer k job next a hk => exact h.answer hk

theorem custody_init : Custody ws World.init fun _ => .unclaimed where
  sound := sound_init
  history := history_nil
  trace := ⟨nofun, nofun, nofun, List.nodup_nil, nofun, nofun, nofun⟩
  holds _ := ⟨.idle, obeys_ret _, trivial⟩
  awaited _ _ _ _ _ _ h := by cases h
  jobs _ h := absurd rfl h
  claims := List.nodup_nil
  finishing _ _ _ _ _ h := by cases h
  finished _ _ h := by obtain ⟨_, _, h⟩ := h; cases h

/-- Every reachable world has its stages. -/
theorem custody (h : World.Reach ws s) : ∃ S, Custody ws s S := by
  induction h with
  | init => exact ⟨_, custody_init⟩
  | step a _ hs ih =>
    obtain ⟨S, hS⟩ := ih
    exact custody_step hS (step_cases hs)

end SoroFuzz.Queue
