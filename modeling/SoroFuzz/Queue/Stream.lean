/-
  SoroFuzz.Queue.Stream — what the live stream says of a run's end, and what the store
  says.

  `process` publishes the runner's outcome, then calls `finish_run`, which leaves the
  status alone when a cancel came first, then closes the channel and returns.

  Proved:
  - `stream_agrees`: once a terminal status is published and `finish_run` took effect, so
    also when `process` returns then, the store has that status, or Cancelled by a cancel
    of the campaign that committed.
  - `stream_cancel_race`: a cancel between the two makes them differ.
-/

import SoroFuzz.Queue.Custody

namespace SoroFuzz.Queue

open SoroFuzz.Store
open Lib.Process
open World

variable {ws : Nat → Worker} {s s' : World} {S : Uuid → Stage}

/-- What the log says that workers publish, and hear from `finish_run`. -/
structure Published (ws : Nat → Worker) (log : List Event) : Prop where
  tells : ∀ k runId st, .emitted k runId (.status st) ∈ log → st.isTerminal = true →
    ∃ job a, .ran k job a ∈ log ∧ job.runId = runId ∧ st = ((ws k).finish job.fuzzTargetName a).status.runStatus
  replies : ∀ k runId f, .replied k (.finishRun runId f) .finished ∈ log → Finished (commits log) runId f

theorem Published.cons {log : List Event} (h : Published ws log) (e : Event)
    (htell : ∀ k runId st, e = .emitted k runId (.status st) → st.isTerminal = true →
      ∃ job a, .ran k job a ∈ log ∧ job.runId = runId ∧ st = ((ws k).finish job.fuzzTargetName a).status.runStatus)
    (hreply : ∀ k runId f, e = .replied k (.finishRun runId f) .finished → Finished (commits log) runId f) :
    Published ws (e :: log) := by
  refine ⟨fun k runId st hm hst => ?_, fun k runId f hm => ?_⟩
  · have hold : ∃ job a, .ran k job a ∈ log ∧ job.runId = runId ∧
      st = ((ws k).finish job.fuzzTargetName a).status.runStatus := by
      rcases List.mem_cons.mp hm with heq | hm
      · exact htell k runId st heq.symm hst
      · exact h.tells k runId st hm hst
    obtain ⟨job, a, hr, hrest⟩ := hold
    exact ⟨job, a, List.mem_cons_of_mem _ hr, hrest⟩
  · refine Finished.mono (commits_subset fun _ => List.mem_cons_of_mem _) ?_
    rcases List.mem_cons.mp hm with heq | hm
    · exact hreply k runId f heq.symm
    · exact h.replies k runId f hm

/-- The events that `Published` is about. -/
def Event.told : Event → Bool
  | .emitted _ _ _ | .replied _ _ .finished => true
  | _ => false

theorem Published.skip {log : List Event} (h : Published ws log) {e : Event} (he : e.told = false) :
    Published ws (e :: log) :=
  h.cons e (fun _ _ _ heq => by rw [heq] at he; cases he) (fun _ _ _ heq => by rw [heq] at he; cases he)

theorem published_step (hc : Custody ws s S) (h : Published ws s.log) (hs : Stepped ws s s') : Published ws s'.log := by
  cases hs with
  | tick | poll | publisher => exact h
  | exec | commit | abort | api | run | answer | failed | close => exact h.skip rfl
  | call => exact (h.skip rfl).skip rfl
  | reply k tx op next r hk hr =>
    refine h.cons _ nofun (fun k' runId f e => ?_)
    cases e
    obtain ⟨hcalled, -⟩ : Holds ws S s.log k (.waiting tx (.finishRun runId f) next) := hk ▸ hc.holds k
    rcases mem_of_replyOf hr with ⟨c, hm⟩ | hm
    · obtain ⟨tie, ids, hb⟩ := hc.sound.called k _ tx hcalled
      obtain rfl := hc.sound.once tx _ _ (hc.sound.committed tx c _ hm).1 hb
      exact ⟨tx, ids, mem_commits.mpr hm⟩
    · rcases hc.sound.aborted tx _ hm with e | e <;> cases e
  | emit k id e next hk =>
    refine h.cons _ (fun k' runId st heq hst => ?_) nofun
    cases heq
    obtain ⟨φ, hp, hφ⟩ : Holds ws S s.log k (.at (.act (.emit id (.status st)) next)) := hk ▸ hc.holds k
    have hallow := hp.allows
    cases φ <;> first | exact hallow.elim | skip
    · obtain ⟨-, e⟩ := hallow
      cases e; cases hst
    · obtain ⟨rfl, e⟩ := hallow
      cases e
      exact ⟨_, _, hφ.2, rfl, rfl⟩

theorem published (h : World.Reach ws s) : Published ws s.log := by
  induction h with
  | init => exact ⟨nofun, nofun⟩
  | step a hr hs ih =>
    obtain ⟨S, hS⟩ := custody hr
    exact published_step hS ih (step_cases hs)

/-- A `finish_run` that committed stores the outcome that was published. -/
theorem finished_published (hc : Custody ws s S) {k : Nat} {job : RunJob} {a : Except RunnerError RunResult}
    {f : RunFinish} (hran : .ran k job a ∈ s.log) (hf : Finished (commits s.log) job.runId f) :
      f = (ws k).finish job.fuzzTargetName a := by
  obtain ⟨tx, ids, hm⟩ := hf
  obtain ⟨k', job', a', hran', hrun', rfl⟩ :=
    hc.trace.finishes tx job.runId f ids (hc.sound.committed tx _ _ (mem_commits.mp hm)).1
  obtain ⟨rfl, rfl, rfl⟩ := hc.trace.ranOnce k' k job' job a' a hran' hran hrun'
  rfl

theorem stream_agrees (h : World.Reach ws s) {k : Nat} {runId : Uuid} {st : RunStatus}
    (hpub : .emitted k runId (.status st) ∈ s.log) (hterm : st.isTerminal = true)
    (hfin : (∃ f, .replied k (.finishRun runId f) .finished ∈ s.log) ∨ ∃ f, Finished (commits s.log) runId f) :
    ∃ r, Db.run s.pg.db runId = some r ∧
      (r.status = st ∨ r.status = .cancelled ∧ Cancelled (commits s.log) r.campaignId) := by
  obtain ⟨S, hc⟩ := custody h
  have hp := published h
  obtain ⟨job, a, hran, rfl, rfl⟩ := hp.tells k runId st hpub hterm
  obtain ⟨f, hf⟩ : ∃ f, Finished (commits s.log) job.runId f :=
    hfin.elim (fun ⟨f, hm⟩ => ⟨f, hp.replies k _ f hm⟩) id
  have honly : ∀ g, Finished (commits s.log) job.runId g → g = (ws k).finish job.fuzzTargetName a :=
    fun g hg => finished_published hc hran hg
  obtain rfl := honly f hf
  obtain ⟨r, hr, hst⟩ := hc.history.finished _ _ hf
  refine ⟨r, hr, ?_⟩
  by_cases hcan : Cancelled (commits s.log) r.campaignId
  · exact hst.imp_right fun hst => ⟨hst, hcan⟩
  · exact Or.inl (hc.history.status_of_finished hf honly hr hcan)

/-- The runner completes, and worker 0 publishes it. -/
def publishAct : List Act := createAct ++ claimAct ++ startAct ++
    [.answer 0 (.ok ⟨.completed, 7, [], none⟩), .proceed 0]

/-- A handler cancels the campaign, in transaction 4. -/
def cancelAct : List Act := [.api (.cancelCampaign 1), .pg (.exec 4), .pg (.exec 4), .pg (.exec 4), .pg (.commit 4)]

/-- Worker 0 published Completed, and then closed run 2. -/
def completed2 (s : World) : Bool :=
  s.log.any (fun
    | .emitted k id (.status st) => k = 0 ∧ id = 2 ∧ st = .completed
    | _ => false) &&
  s.log.any fun
    | .closed k id => k = 0 ∧ id = 2
    | _ => false

theorem completed2_log (h : completed2 s = true) : .emitted 0 2 (.status .completed) ∈ s.log ∧ .closed 0 2 ∈ s.log := by
  obtain ⟨h1, h2⟩ := (Bool.and_eq_true _ _).mp h
  obtain ⟨e1, hm1, he1⟩ := List.any_eq_true.mp h1
  obtain ⟨e2, hm2, he2⟩ := List.any_eq_true.mp h2
  split at he1
  · split at he2
    · obtain ⟨rfl, rfl, rfl⟩ := of_decide_eq_true he1
      obtain ⟨rfl, rfl⟩ := of_decide_eq_true he2
      exact ⟨hm1, hm2⟩
    · cases he2
  · cases he1

/-- `finish_run` in transaction `tx`, with `n` statements, and the close. -/
def finishAct (tx n : Nat) : List Act :=
  .call 0 id id :: List.replicate n (.pg (.exec tx)) ++ [.pg (.commit tx), .reply 0, .proceed 0]

/-- Worker 0 heard from `finish_run` that run 2 is finished. -/
def finished2 (s : World) : Bool :=
  s.log.any fun
    | .replied k (.finishRun id _) .finished => k = 0 ∧ id = 2
    | _ => false

theorem finished2_log (h : finished2 s = true) : ∃ f, .replied 0 (.finishRun 2 f) .finished ∈ s.log := by
  obtain ⟨e, hm, he⟩ := List.any_eq_true.mp h
  split at he
  · obtain ⟨rfl, rfl⟩ := of_decide_eq_true he
    exact ⟨_, hm⟩
  · cases he

theorem stream_agrees_completed : ∃ s, play (fun _ => tokenWorker) World.init (publishAct ++ finishAct 4 2) = some s ∧
    ∃ r, Db.run s.pg.db 2 = some r ∧
      (r.status = .completed ∨ r.status = .cancelled ∧ Cancelled (commits s.log) r.campaignId) := by
  have h : (play (fun _ => tokenWorker) World.init (publishAct ++ finishAct 4 2)).any (fun s =>
      completed2 s && finished2 s) = true := by decide
  obtain ⟨s, hs⟩ := Option.isSome_iff_exists.mp
    (show (play (fun _ => tokenWorker) World.init (publishAct ++ finishAct 4 2)).isSome = true by decide)
  rw [hs] at h
  obtain ⟨h1, h2⟩ := (Bool.and_eq_true _ _).mp h
  obtain ⟨hpub, -⟩ := completed2_log h1
  exact ⟨s, hs, stream_agrees (play_reach .init hs) hpub rfl (Or.inl (finished2_log h2))⟩

theorem stream_cancel_race : ¬ ∀ (ws : Nat → Worker) (s : World) (k : Nat) (runId : Uuid)
    (st : RunStatus), World.Reach ws s →
    .emitted k runId (.status st) ∈ s.log → st.isTerminal = true → .closed k runId ∈ s.log →
      ∃ r, Db.run s.pg.db runId = some r ∧ r.status = st := by
  intro hall
  have h : (play (fun _ => tokenWorker) World.init (publishAct ++ cancelAct ++ finishAct 5 1)).any (fun s =>
      completed2 s && runStatus s.pg 2 = some .cancelled) = true := by decide
  obtain ⟨s, hs⟩ := Option.isSome_iff_exists.mp
    (show (play (fun _ => tokenWorker) World.init (publishAct ++ cancelAct ++ finishAct 5 1)).isSome = true by decide)
  rw [hs] at h
  obtain ⟨h1, h2⟩ := (Bool.and_eq_true _ _).mp h
  obtain ⟨hpub, hret⟩ := completed2_log h1
  obtain ⟨r, hr, hst⟩ := hall _ s 0 2 .completed (play_reach .init hs) hpub rfl hret
  have h2 : runStatus s.pg 2 = some .cancelled := of_decide_eq_true h2
  rw [runStatus, hr, Option.map_some, hst] at h2
  cases h2

end SoroFuzz.Queue
