/-
  SoroFuzz.Queue.Kept — what becomes of a run's findings.

  `finish_run` inserts them, and only `start_run` deletes any: those of the run that it
  starts. The workers start a run once, and finish it once. So what a `finish_run` stored
  is there ever after, and no finding of the run is but those.

  Proved:
  - `effect_findings`: a commit leaves a run's findings alone, unless it starts the run
    or finishes it.
  - `onward_commits`: what every commit keeps, given what the workers keep to, is kept
    from any reachable world on.
  - `findingsKept`: in every reachable world, a finished run's findings are those that
    its one `finish_run` stored (`Shelf`); `shelf_onward`: they stay.
-/

import SoroFuzz.Queue.Carry
import SoroFuzz.Queue.Custody

namespace SoroFuzz.Store

/-- The run's findings are `fs`, each under its id, and no others. -/
structure Shelf (d : Db) (runId : Uuid) (fs : List NewFinding) (ids : Nat → Uuid) (b : DateTime) : Prop where
  distinct : ∀ j < fs.length, ∀ k < fs.length, ids j = ids k → j = k
  row : ∀ k f, fs[k]? = some f → d.finding (ids k) = some ⟨runId, f, b⟩
  only : ∀ i f, d.finding i = some f → f.runId = runId → ∃ k < fs.length, ids k = i

/-- It finishes the run. -/
def Call.finishes (c : Call) (runId : Uuid) : Prop := ∃ f ids, c = .finishRun runId f ids

/-- There is one `finish_run` of a run, and what it stored is there. -/
structure FindingsKept (d : Db) (cs : List Commit) : Prop where
  once : ∀ tx tx' runId f f' ids ids', (⟨tx, .finishRun runId f ids, .finished⟩ : Commit) ∈ cs →
    (⟨tx', .finishRun runId f' ids', .finished⟩ : Commit) ∈ cs → f = f' ∧ ids = ids'
  shelf : ∀ tx runId f ids, (⟨tx, .finishRun runId f ids, .finished⟩ : Commit) ∈ cs →
    ∃ b, Shelf d runId f.findings ids b

theorem findingsKept_nil : FindingsKept ∅ [] where
  once _ _ _ _ _ _ _ h := by cases h
  shelf _ _ _ _ h := by cases h

section shelf
variable {ok : CampaignStatus → Prop} {b b' : DateTime} {d0 d d' : Db} {cs : List Commit} {tx : Nat} {c : Call}
  {reply : Reply} {runId : Uuid} {fs : List NewFinding} {ids : Nat → Uuid}

theorem Added.finding_iff (h : Added d d' runId fs ids b) {i : Uuid} {f : FindingRow} (hne : f.runId ≠ runId) :
    d'.finding i = some f ↔ d.finding i = some f := by
  constructor
  · intro hf
    rcases h.cases hf with hold | ⟨_, _, -, -, rfl⟩
    · exact hold
    · exact absurd rfl hne
  · intro hf
    rw [h.other i fun k hk hi => ?_]
    · exact hf
    · have := h.fresh k hk
      rw [hi, hf] at this
      cases this

/-- A commit leaves a run's findings alone, unless it starts the run or finishes it. -/
theorem effect_findings (he : Effect ok b d0 c reply d d') (hstart : ∀ w, c = .startRun runId w → reply ≠ .started true)
    (hfinish : ¬ c.finishes runId) {i : Uuid} {f : FindingRow} (hf : f.runId = runId) :
    d'.finding i = some f ↔ d.finding i = some f := by
  cases he with
  | created | claimed => simp
  | got | cancelNoop | claimedNone | startedNot => rfl
  | cancelled _ _ _ _ _ _ _ _ _ _ _ hsame => rw [hsame]
  | started other w _ _ _ _ _ _ _ hsub hkeep =>
    have hne : f.runId ≠ other := by
      rintro rfl
      exact hstart w (by rw [hf]) rfl
    exact ⟨hsub i f, fun h => hkeep i f h hne⟩
  | finishedNot _ other g ids _ _ _ _ ha | finished other g ids _ _ _ _ _ _ ha =>
    refine ha.finding_iff ?_
    rintro rfl
    exact hfinish ⟨g, ids, by rw [hf]⟩

theorem Shelf.commit (h : Shelf d runId fs ids b') (he : Effect ok b d0 c reply d d')
    (hstart : ∀ w, c = .startRun runId w → reply ≠ .started true) (hfinish : ¬ c.finishes runId) :
    Shelf d' runId fs ids b' where
  distinct := h.distinct
  row k f hk := (effect_findings he hstart hfinish rfl).mpr (h.row k f hk)
  only i f hi hf := h.only i f ((effect_findings he hstart hfinish hf).mp hi) hf

/-- The first `finish_run` of a run stores the run's first findings. -/
theorem shelf_finished {f : RunFinish} (he : Effect ok b d0 (.finishRun runId f ids) reply d d')
    (hnone : ∀ i g, d.finding i = some g → g.runId ≠ runId) : Shelf d' runId f.findings ids b := by
  have hadded : Added d d' runId f.findings ids b := by
    generalize hcall : Call.finishRun runId f ids = c at he
    cases he with
    | finishedNot _ _ _ _ _ _ _ _ ha | finished _ _ _ _ _ _ _ _ _ ha => cases hcall; exact ha
    | _ => cases hcall
  refine ⟨hadded.distinct, hadded.new, fun i g hi hg => ?_⟩
  rcases hadded.cases hi with hold | ⟨k, _, hk, rfl, -⟩
  · exact absurd hg (hnone i g hold)
  · exact ⟨k, (List.getElem?_eq_some_iff.mp hk).1, rfl⟩

/-- A finished run is not pending, so it is not started again. -/
theorem History.not_started (h : History d cs) {f : RunFinish} (hf : Finished cs runId f)
    (he : Effect ok b d0 c reply d d') (w : String) (hc : c = .startRun runId w) : reply ≠ .started true := by
  rintro rfl
  subst hc
  generalize hcall : Call.startRun runId w = c at he
  generalize hreply : Reply.started true = reply at he
  cases he with
  | started _ _ _ r hr hpend =>
    cases hcall
    obtain ⟨q, hq, hst⟩ := h.finished runId f hf
    rw [hr] at hq
    cases hq
    rcases hst with hst | hst
    · cases hs : f.status <;> rw [hpend, hs] at hst <;> cases hst
    · rw [hpend] at hst
      cases hst
  | startedNot => cases hreply
  | _ => cases hcall

theorem findingsKept_commit (h : FindingsKept d cs) (hh : History d cs) (he : Effect ok b d0 c reply d d')
    (hfirst : ∀ runId, c.finishes runId → ∀ g, ¬ Finished cs runId g) : FindingsKept d' (⟨tx, c, reply⟩ :: cs) where
  once i j runId f f' ids ids' hi hj := by
    rcases List.mem_cons.mp hi with ei | oi <;> rcases List.mem_cons.mp hj with ej | oj
    · cases ei
      cases ej
      exact ⟨rfl, rfl⟩
    · cases ei
      exact absurd ⟨j, ids', oj⟩ (hfirst runId ⟨f, ids, rfl⟩ f')
    · cases ej
      exact absurd ⟨i, ids, oi⟩ (hfirst runId ⟨f', ids', rfl⟩ f)
    · exact h.once i j runId f f' ids ids' oi oj
  shelf i runId f ids hi := by
    rcases List.mem_cons.mp hi with heq | hold
    · cases heq
      refine ⟨b, shelf_finished he fun k g hg hrun => ?_⟩
      obtain ⟨f', hf'⟩ := hh.findings k g hg
      exact hfirst runId ⟨f, ids, rfl⟩ f' (hrun ▸ hf')
    · have hf : Finished cs runId f := ⟨i, ids, hold⟩
      obtain ⟨b', hs⟩ := h.shelf i runId f ids hold
      exact ⟨b', hs.commit he (hh.not_started hf he) fun hc => hfirst runId hc f hf⟩

end shelf

end SoroFuzz.Store

namespace SoroFuzz.Queue

open SoroFuzz.Store
open World

variable {ws : Nat → Worker} {s s' : World}

/-! ## From a world on -/

/-- `s'` comes after `s`, or is `s`. -/
abbrev World.Onward (ws : Nat → Worker) : World → World → Prop :=
  Relation.ReflTransGen fun s s' => ∃ a, World.step ws s a = some s'

theorem onward_reach (h : World.Reach ws s) (hl : World.Onward ws s s') : World.Reach ws s' := by
  induction hl with
  | refl => exact h
  | tail _ hs ih =>
    obtain ⟨a, hs⟩ := hs
    exact .step a ih hs

theorem World.Reach.onward (h : World.Reach ws s) : World.Onward ws World.init s := by
  induction h with
  | init => exact .refl
  | step a _ hs ih => exact ih.tail ⟨a, hs⟩

/-- The next commit is not a second `finish_run` of a run. -/
theorem first_finish (h : World.Reach ws s) {i : Nat} {t : Txn} (ht : s.pg.txns.lookup i = some t) (runId : Uuid)
    (hc : t.call.finishes runId) (g : RunFinish) : ¬ Finished (commits s.log) runId g := by
  obtain ⟨S, hS⟩ := custody h
  obtain ⟨f, ids, hc⟩ := hc
  intro hg
  have hdone := hS.finished runId g hg
  rw [(hS.finishing i t runId f ids ht hc).1] at hdone
  cases hdone

/-- What every commit keeps, given what the workers keep to, is kept from any reachable
    world on. -/
theorem onward_commits (P : Db → List Commit → Prop)
    (hcommit : ∀ {b d0 d d' cs tx c r}, Wf d → History d cs → (∀ runId, c.finishes runId → ∀ g, ¬ Finished cs runId g) →
      Effect (fun _ => True) b d0 c r d d' → P d cs → P d' (⟨tx, c, r⟩ :: cs))
    (h : World.Reach ws s) (hl : World.Onward ws s s') (h0 : P s.pg.db (commits s.log)) :
    P s'.pg.db (commits s'.log) := by
  induction hl with
  | refl => exact h0
  | @tail s1 s2 hl hs ih =>
    have hr := onward_reach h hl
    obtain ⟨a, hs⟩ := hs
    have hsound := reach_sound hr
    obtain ⟨S, hS⟩ := custody hr
    cases (step_cases hs).recorded with
    | still hdb hcs => rw [hdb, hcs]; exact ih
    | commit i t r ht hp hdb hcs =>
      have he := (Lib.ReadCommitted.commit_post hsound.ok ht hp).2.2
      rw [hdb, hcs]
      exact hcommit hsound.ok.inv hS.history (first_finish hr ht) he ih

theorem onward_subset (hl : World.Onward ws s s') : commits s.log ⊆ commits s'.log := by
  induction hl with
  | refl => exact fun _ => id
  | tail _ hs ih =>
    obtain ⟨a, hs⟩ := hs
    exact fun _ hc => commits_subset (step_cases hs).log_subset (ih hc)

/-! ## A finished run's findings -/

theorem findingsKept (h : World.Reach ws s) : FindingsKept s.pg.db (commits s.log) :=
  onward_commits FindingsKept (fun _ hh hfirst he hk => findingsKept_commit hk hh he hfirst) .init h.onward
    findingsKept_nil

/-- A finished run's findings stay as they are. -/
theorem shelf_onward (h : World.Reach ws s) (hl : World.Onward ws s s') {runId : Uuid} {f : RunFinish}
    (hf : Finished (commits s.log) runId f) {fs : List NewFinding} {ids : Nat → Uuid} {b : DateTime}
    (hs : Shelf s.pg.db runId fs ids b) : Shelf s'.pg.db runId fs ids b := by
  refine (onward_commits (fun d cs => Finished cs runId f ∧ Shelf d runId fs ids b) ?_ h hl ⟨hf, hs⟩).2
  intro b d0 d d' cs tx c r _ hh hfirst he hk
  exact ⟨hk.1.mono (List.subset_cons_self _ _),
    hk.2.commit he (hh.not_started hk.1 he) fun hc => hfirst runId hc f hk.1⟩

end SoroFuzz.Queue
