/-
  SoroFuzz.Queue.Drain — a worker left alone with the queue (`worker/mod.rs`,
  `claim_job`).

  It takes one turn of `run_loop` after the other (`turns`), each with its own time, new
  ids, runner and fate of its calls (`Outside`). A turn claims the oldest claimable job,
  and touches no other job and no other run.

  Proved:
  - `mem_turn`: what a turn leaves in the queue is what it did not claim.
  - `turns_run`: its turns are among the interleavings of the store's calls.
  - `drains_in_order`: whatever fails, the jobs are claimed oldest first, each once; and when
    nothing fails and every target is known, as many turns as there are jobs end all their
    runs.
-/

import SoroFuzz.Queue.Jobs
import SoroFuzz.Queue.Stranded

namespace SoroFuzz.Store

open Lib.ReadCommitted (alone)

/-! ## The next job -/

/-- The job that `claim_job` returns when no other transaction is in flight. -/
def nextJob (tie : Uuid → Nat) (d : Db) : Option (Uuid × JobRow) := oldest tie (claimableJobs d)

theorem claimableJobs_nodup (d : Db) : (claimableJobs d).Nodup :=
  (Lib.Sql.scan_nodup (by intro k r k' r' a h h'; cases k <;> cases h; cases k' <;> cases h'; rfl) d).filter _

end SoroFuzz.Store

namespace SoroFuzz.Queue

open SoroFuzz.Store
open Lib.Process
open Lib.ReadCommitted (alone)

/-! ## What `process` leaves alone -/

/-- Of the store's rows, only the run and its campaign change. -/
def minds (runId : Uuid) : Protocol Action Action.Answer Unit where
  allows
    | _, .store (.startRun id _) => id = runId
    | _, .store (.finishRun id _) => id = runId
    | _, .store (.claimJob _) => False
    | _, _ => True
  after _ _ _ := ()

section minds
variable {w : Worker} {o : Outside} {d d' : Db} {runId : Uuid}

theorem finished_minds (job : RunJob) (answer : Except RunnerError RunResult) :
    Obeys (minds job.runId) () (w.finished job answer) :=
  obeys_act trivial fun _ => obeys_act rfl fun _ => obeys_act trivial fun _ => trivial

theorem loaded_minds (campaignId runId : Uuid) (r : Reply) : Obeys (minds runId) () (w.loaded campaignId runId r) := by
  unfold Worker.loaded
  split
  · split
    · trivial
    · refine obeys_act rfl fun r => ?_
      unfold Worker.started
      split
      · exact obeys_act trivial fun _ => obeys_act trivial fun _ => obeys_act trivial fun answer =>
          finished_minds _ answer
      · trivial
  · trivial

theorem process_minds (campaignId runId : Uuid) : Obeys (minds runId) () (w.process campaignId runId) :=
  obeys_act trivial fun r => loaded_minds campaignId runId r

/-- The jobs are the same, and so are the other runs. -/
structure Spares (runId : Uuid) (d d' : Db) : Prop where
  job : ∀ i, d'.job i = d.job i
  run : ∀ i, i ≠ runId → d'.run i = d.run i

theorem Spares.refl (runId : Uuid) (d : Db) : Spares runId d d := ⟨fun _ => rfl, fun _ _ => rfl⟩

theorem Spares.trans {d1 d2 d3 : Db} (h : Spares runId d1 d2) (h' : Spares runId d2 d3) : Spares runId d1 d3 :=
  ⟨fun i => (h'.job i).trans (h.job i), fun i hi => (h'.run i hi).trans (h.run i hi)⟩

theorem effect_spares {ok : CampaignStatus → Prop} {b : DateTime} {d0 : Db} {op : StoreOp} {tie ids : Nat → Nat}
    {r : Reply} (ha : (minds runId).allows () (.store op)) (he : Effect ok b d0 (op.call tie ids) r d d') :
    Spares runId d d' := by
  generalize hc : op.call tie ids = c at he
  cases op with
  | claimJob => exact ha.elim
  | getCampaign id =>
    cases he with
    | got => exact .refl _ _
    | _ => cases hc
  | startRun id workerId =>
    obtain rfl : id = runId := ha
    cases he with
    | startedNot => exact .refl _ _
    | started _ _ _ _ _ _ _ _ hmv =>
      cases hc
      exact ⟨hmv.job, fun i hi => by rw [hmv.run, if_neg hi]⟩
    | _ => cases hc
  | finishRun id f =>
    obtain rfl : id = runId := ha
    cases he with
    | finishedNot _ _ _ _ _ _ _ hs => exact ⟨hs.job, fun i _ => hs.run i⟩
    | finished _ _ _ _ _ _ _ _ hmv =>
      cases hc
      exact ⟨hmv.job, fun i hi => by rw [hmv.run, if_neg hi]⟩
    | _ => cases hc

theorem alone_spares (h : Wf d) {op : StoreOp} (ha : (minds runId).allows () (.store op)) :
    Spares runId d (alone (body (op.call o.tie o.ids) o.now) [] d).2 := by
  rcases alone_body o.now h (op.call o.tie o.ids) with ⟨-, -, he⟩ | ⟨hsame, -⟩
  · exact effect_spares ha he
  · rw [hsame]
    exact .refl _ _

theorem interp_spares {p : Process} (h : Wf d) (hp : Obeys (minds runId) () p) (n : Nat) :
    Spares runId d (interp o n p d) := by
  induction p generalizing n d with
  | ret => exact .refl _ _
  | act a next ih =>
    cases a with
    | store op =>
      have hcall := alone_spares (o := o) h hp.allows
      have hw : Wf (alone (body (op.call o.tie o.ids) o.now) [] d).2 := alone_wf h rfl
      simp only [interp]
      split
      · exact hcall.trans (ih _ hw (hp.next _) _)
      · exact ih _ h (hp.next _) _
      · exact hcall.trans (ih _ hw (hp.next _) _)
    | _ => exact ih _ h (hp.next _) _

end minds

/-! ## A turn -/

namespace Worker

/-- One turn of `run_loop`, with nothing else in flight. -/
def turn (w : Worker) (o : Outside) (d : Db) : Db := interp o 0 w.runLoop d

/-- The job that the turn claims. -/
def claims (o : Outside) (d : Db) : Option (Uuid × JobRow) := if o.fate 0 = .lost then none else nextJob o.tie d

variable (w : Worker) (o : Nat → Outside) (d : Db)

def turns : Nat → Db
  | 0 => d
  | n + 1 => w.turn (o n) (turns n)

/-- The jobs claimed in the first `n` turns, in their order. -/
def served : Nat → List (Uuid × JobRow)
  | 0 => []
  | n + 1 => served n ++ (claims (o n) (w.turns o d n)).toList

end Worker

section turn
variable {w : Worker} {o : Outside} {d : Db} {jobId : Uuid} {j : JobRow}

/-- The rest of a turn's calls, numbered from the next on. -/
def Outside.rest (o : Outside) : Outside := { o with fate := fun n => o.fate (n + 1) }

theorem interp_rest (p : Process) : ∀ (n : Nat) (d : Db), interp o (n + 1) p d = interp o.rest n p d := by
  induction p with
  | ret => exact fun _ _ => rfl
  | act a next ih =>
    intro n d
    cases a with
    | store op =>
      simp only [interp, Outside.rest]
      split <;> exact ih _ _ _
    | _ => exact ih _ _ _

theorem turn_none (h : Worker.claims o d = none) : w.turn o d = d := by
  unfold Worker.claims at h
  split at h
  · rename_i hlost
    simp only [Worker.turn, Worker.runLoop, interp, hlost]
  · have halone := alone_claimJob_none w.idStorable o.now h
    simp only [Worker.turn, Worker.runLoop, interp, StoreOp.call, body, halone]
    split <;> rfl

theorem claims_some (h : Worker.claims o d = some (jobId, j)) :
    o.fate 0 ≠ .lost ∧ nextJob o.tie d = some (jobId, j) := by
  unfold Worker.claims at h
  split at h
  · cases h
  · exact ⟨‹_›, h⟩

theorem turn_some (h : Worker.claims o d = some (jobId, j)) : w.turn o d =
    if o.fate 0 = .ok then interp o.rest 0 (w.process j.campaignId j.runId) (d.insert (.jobQueue jobId) (j.claim w.id o.now))
    else d.insert (.jobQueue jobId) (j.claim w.id o.now) := by
  obtain ⟨hlost, hnext⟩ := claims_some h
  have halone := alone_claimJob_some w.idStorable o.now hnext
  simp only [Worker.turn, Worker.runLoop, interp, StoreOp.call, body, halone]
  cases hfate : o.fate 0 with
  | ok => exact interp_rest _ 0 _
  | lost => exact absurd hfate hlost
  | unacked => rfl

theorem claims_mem (h : Worker.claims o d = some (jobId, j)) : (jobId, j) ∈ claimableJobs d :=
  oldest_mem (claims_some h).2

theorem wf_claim (h : Wf d) (hc : Worker.claims o d = some (jobId, j)) :
    Wf (d.insert (.jobQueue jobId) (j.claim w.id o.now)) :=
  alone_wf (c := .claimJob o.tie w.id) h (alone_claimJob_some w.idStorable o.now (claims_some hc).2)

/-- A turn leaves the claimed job's row, and no other job or run has changed. -/
theorem turn_spares (h : Wf d) (hc : Worker.claims o d = some (jobId, j)) :
    Spares j.runId (d.insert (.jobQueue jobId) (j.claim w.id o.now)) (w.turn o d) := by
  rw [turn_some hc]
  split
  · exact interp_spares (wf_claim h hc) (process_minds _ _) 0
  · exact .refl _ _

/-- What a turn leaves in the queue is what it did not claim. -/
theorem mem_turn (h : Wf d) (e : Uuid × JobRow) :
    e ∈ claimableJobs d ↔ e ∈ (Worker.claims o d).toList ∨ e ∈ claimableJobs (w.turn o d) := by
  cases hc : Worker.claims o d with
  | none =>
    rw [turn_none hc]
    simp
  | some x =>
    obtain ⟨jobId, j⟩ := x
    obtain ⟨i, q⟩ := e
    have hs := turn_spares (w := w) h hc
    have hm := claims_mem hc
    obtain ⟨hj, hnone, -⟩ := mem_claimableJobs.mp hm
    by_cases hi : i = jobId
    · subst hi
      have hrow : (w.turn o d).job i = some (j.claim w.id o.now) := (hs.job i).trans (by simp)
      have hout : (i, q) ∉ claimableJobs (w.turn o d) := by
        intro hin
        obtain ⟨hq, hfree, -⟩ := mem_claimableJobs.mp hin
        rw [hrow] at hq
        cases hq
        cases hfree
      simp only [Option.toList_some, List.mem_singleton, hout, or_false]
      constructor
      · intro hin
        have hq := (mem_claimableJobs.mp hin).1
        rw [hj] at hq
        cases hq
        rfl
      · rintro heq
        rw [heq]
        exact hm
    · have hjob : (w.turn o d).job i = d.job i := (hs.job i).trans (by simp [hi])
      have hne : (i, q) ≠ (jobId, j) := fun heq => hi (Prod.mk.inj heq).1
      simp only [Option.toList_some, List.mem_singleton, hne, false_or]
      rw [mem_claimableJobs, mem_claimableJobs, hjob]
      refine and_congr_right fun hq => and_congr_right fun _ => ?_
      -- Its run is another one: a run has one job.
      have hne : q.runId ≠ j.runId := fun heq => hi (h.jobUnique i jobId q j hq hj heq)
      have hrun : (w.turn o d).run q.runId = d.run q.runId := (hs.run _ hne).trans (by simp)
      rw [hrun]

theorem wf_turn (h : Wf d) : Wf (w.turn o d) := (interp_persist h).1

theorem persist_turn (h : Wf d) : Persist d (w.turn o d) := (interp_persist h).2

/-- Every call of the turn works, and its job's target is known. -/
theorem turn_ended (h : Wf d) (hc : Worker.claims o d = some (jobId, j)) (hok : ∀ n, o.fate n = .ok)
    (htexts : ∀ job, answerStorable job.fuzzTargetName (o.runner job) = true) (hids : NewIds d o.ids)
    (ht : ∀ c, d.campaign j.campaignId = some c → (w.targets.get c.targetId).isSome = true) :
    Ended (w.turn o d) j.runId := by
  rw [turn_some hc, if_pos (hok 0)]
  obtain ⟨hj, -, r, hr, hpend⟩ := mem_claimableJobs.mp (claims_mem hc)
  obtain ⟨q, hq, hcid⟩ := h.jobRun jobId j hj
  rw [hr] at hq
  cases hq
  obtain ⟨c, hcampaign⟩ := h.runCampaign j.runId r hr
  rw [hcid] at hcampaign
  have hids' : NewIds (d.insert (.jobQueue jobId) (j.claim w.id o.now)) o.rest.ids :=
    hids.of_sub fun i f hf => by simpa using hf
  refine (ended_iff (o := o.rest) (wf_claim h hc) hids' (c := c) (r := r) ?_ ?_).mpr
    (Or.inr ⟨hpend, hok 1, ht c hcampaign, hok 2, ?_, fun target _ => htexts (jobOf _ _ c target)⟩)
  · simpa using hcampaign
  · simpa using hr
  · show o.fate 3 ≠ .lost
    rw [hok 3]
    exact nofun

/-- No turn changes what a campaign was created with. -/
theorem interp_input {p : Process} {id : Uuid} {input : NewCampaign} (h : Wf d) (hc : CreatedWith d id input)
    (n : Nat) :
    CreatedWith (interp o n p d) id input := by
  induction p generalizing n d with
  | ret => exact hc
  | act a next ih =>
    cases a with
    | store op =>
      have hcall : CreatedWith (alone (body (op.call o.tie o.ids) o.now) [] d).2 id input := by
        rcases alone_body o.now h (op.call o.tie o.ids) with ⟨-, -, he⟩ | ⟨hsame, -⟩
        · exact effect_input he hc
        · rw [hsame]
          exact hc
      have hw : Wf (alone (body (op.call o.tie o.ids) o.now) [] d).2 := alone_wf h rfl
      simp only [interp]
      split
      · exact ih _ hw hcall _
      · exact ih _ h hc _
      · exact ih _ hw hcall _
    | _ => exact ih _ h hc _

theorem Ended.later {d d' : Db} {runId : Uuid} (he : Ended d runId) (hp : Persist d d') : Ended d' runId := by
  obtain ⟨r, hr, ht⟩ := he
  obtain ⟨r', hr', -, hl⟩ := hp.run runId r hr
  exact ⟨r', hr', hl.isTerminal ht⟩

end turn

/-! ## Turn after turn -/

section turns
variable {w : Worker} {o : Nat → Outside} {d : Db}

theorem wf_turns (h : Wf d) : ∀ n, Wf (w.turns o d n)
  | 0 => h
  | n + 1 => wf_turn (wf_turns h n)

theorem persist_turns (h : Wf d) (n : Nat) : ∀ k, Persist (w.turns o d n) (w.turns o d (n + k))
  | 0 => .refl _
  | k + 1 => (persist_turns h n k).trans (persist_turn (wf_turns h (n + k)))

/-- A worker's turns are among the interleavings of the store's calls, when its clock
    does not go back. -/
theorem turns_run {s : Pg} (hs : s.txns = ∅) (h0 : s.now ≤ (o 0).now) (hclock : ∀ n, (o n).now ≤ (o (n + 1)).now)
    (n : Nat) : Lib.ReadCommitted.Run body (fun _ _ => true) s ⟨w.turns o s.db n, (o n).now, ∅⟩ := by
  have htick : ∀ {d : Db} {t u : DateTime}, t ≤ u → Lib.ReadCommitted.Run body (fun _ _ => true) s ⟨d, t, ∅⟩ →
      Lib.ReadCommitted.Run body (fun _ _ => true) s ⟨d, u, ∅⟩ := by
    intro d t u hle hr
    refine .step (.tick (u - t)) hr rfl ?_
    simp only [Lib.ReadCommitted.step]
    rw [Nat.add_sub_of_le hle]
  induction n with
  | zero =>
    obtain ⟨db, now, txns⟩ := s
    cases hs
    exact htick h0 .refl
  | succ n ih => exact htick (hclock n) (interp_run ih)

theorem served_perm (h : Wf d) (n : Nat) :
    (claimableJobs d).Perm (w.served o d n ++ claimableJobs (w.turns o d n)) := by
  induction n with
  | zero => exact .refl _
  | succ n ih =>
    have hwf := wf_turns (w := w) (o := o) h n
    refine ih.trans ?_
    rw [Worker.served, List.append_assoc]
    refine List.Perm.append_left _ ?_
    have hnd : ((Worker.claims (o n) (w.turns o d n)).toList ++ claimableJobs (w.turn (o n) (w.turns o d n))).Nodup := by
      refine List.Nodup.append ?_ (claimableJobs_nodup _) ?_
      · cases Worker.claims (o n) (w.turns o d n) <;> simp
      · intro e he hin
        obtain ⟨i, q⟩ := e
        have hc := Option.mem_toList.mp he
        have hrow := (turn_spares (w := w) hwf hc).job i
        obtain ⟨hq, hfree, -⟩ := mem_claimableJobs.mp hin
        rw [hq] at hrow
        simp at hrow
        rw [hrow] at hfree
        cases hfree
    refine (List.perm_ext_iff_of_nodup (claimableJobs_nodup _) hnd).mpr fun e => ?_
    rw [List.mem_append]
    exact mem_turn hwf e

theorem served_sorted (h : Wf d) (n : Nat) :
    (w.served o d n).Pairwise (fun x y => x.2.createdAt ≤ y.2.createdAt) ∧
      ∀ x ∈ w.served o d n, ∀ y ∈ claimableJobs (w.turns o d n), x.2.createdAt ≤ y.2.createdAt := by
  induction n with
  | zero => exact ⟨.nil, nofun⟩
  | succ n ih =>
    obtain ⟨hsorted, hbefore⟩ := ih
    have hwf := wf_turns (w := w) (o := o) h n
    have hstay : ∀ y ∈ claimableJobs (w.turns o d (n + 1)), y ∈ claimableJobs (w.turns o d n) :=
      fun y hy => (mem_turn hwf y).mpr (Or.inr hy)
    rw [Worker.served]
    cases hc : Worker.claims (o n) (w.turns o d n) with
    | none =>
      rw [Option.toList_none, List.append_nil]
      exact ⟨hsorted, fun x hx y hy => hbefore x hx y (hstay y hy)⟩
    | some e =>
      obtain ⟨jobId, j⟩ := e
      refine ⟨List.pairwise_append.mpr ⟨hsorted, List.pairwise_singleton _ _, fun x hx y hy => ?_⟩, fun x hx y hy => ?_⟩
      · rw [Option.toList_some, List.mem_singleton] at hy
        rw [hy]
        exact hbefore x hx _ (claims_mem hc)
      · rcases List.mem_append.mp hx with hx | hx
        · exact hbefore x hx y (hstay y hy)
        · rw [Option.toList_some, List.mem_singleton] at hx
          rw [hx]
          exact oldest_le (claims_some hc).2 y (hstay y hy)

theorem mem_turns (h : Wf d) {n : Nat} {e : Uuid × JobRow} (he : e ∈ claimableJobs (w.turns o d n)) :
    e ∈ claimableJobs d := (served_perm h n).symm.subset (List.mem_append_right _ he)

theorem turns_input (h : Wf d) {id : Uuid} {input : NewCampaign} (hc : CreatedWith d id input) :
    ∀ n, CreatedWith (w.turns o d n) id input
  | 0 => hc
  | n + 1 => interp_input (wf_turns h n) (turns_input h hc n) 0

/-- The worker's manifest has the target of every job that waits. -/
def Worker.Knows (w : Worker) (d : Db) : Prop :=
  ∀ jobId j, (jobId, j) ∈ claimableJobs d → ∀ c, d.campaign j.campaignId = some c →
    (w.targets.get c.targetId).isSome = true

theorem knows_turns (h : Wf d) (hk : w.Knows d) (n : Nat) : w.Knows (w.turns o d n) := by
  intro jobId j hm c hc
  have hm0 := mem_turns h hm
  obtain ⟨hj, -⟩ := mem_claimableJobs.mp hm0
  obtain ⟨r, hr, hid⟩ := h.jobRun jobId j hj
  obtain ⟨c0, hc0⟩ := h.runCampaign j.runId r hr
  rw [hid] at hc0
  obtain ⟨c', hc', hinput⟩ := turns_input (w := w) (o := o) h ⟨c0, hc0, rfl⟩ n
  rw [hc] at hc'
  cases hc'
  have htarget : c.targetId = c0.targetId := congrArg NewCampaign.targetId hinput
  rw [htarget]
  exact hk jobId j hm0 c0 hc0

/-- In the first `k` turns nothing fails, the runner's answers are texts that Postgres
    stores, and the ids that it generates are new. -/
structure Unfailing (w : Worker) (o : Nat → Outside) (d : Db) (k : Nat) : Prop where
  ok : ∀ n < k, ∀ call, (o n).fate call = .ok
  texts : ∀ n < k, ∀ job, answerStorable job.fuzzTargetName ((o n).runner job) = true
  ids : ∀ n < k, NewIds (w.turns o d n) (o n).ids

theorem claims_eq_none {o : Outside} {d : Db} (hok : o.fate 0 = .ok) (h : Worker.claims o d = none) :
    claimableJobs d = [] := by
  unfold Worker.claims at h
  rw [if_neg (by rw [hok]; exact nofun)] at h
  exact oldest_eq_none h

variable {k : Nat}

theorem served_length (hu : Unfailing w o d k) (n : Nat) (hn : n ≤ k) :
    (w.served o d n).length = n ∨ claimableJobs (w.turns o d n) = [] := by
  induction n with
  | zero => exact Or.inl rfl
  | succ n ih =>
    cases hc : Worker.claims (o n) (w.turns o d n) with
    | none =>
      refine Or.inr ?_
      show claimableJobs (w.turn (o n) (w.turns o d n)) = []
      rw [turn_none hc]
      exact claims_eq_none (hu.ok n hn 0) hc
    | some e =>
      rcases ih (Nat.le_of_succ_le hn) with hlen | hnil
      · refine Or.inl ?_
        rw [Worker.served, hc, List.length_append, hlen]
        rfl
      · obtain ⟨jobId, j⟩ := e
        have hm := claims_mem hc
        rw [hnil] at hm
        cases hm

theorem served_ended (h : Wf d) (hu : Unfailing w o d k) (hk : w.Knows d) (n : Nat) (hn : n ≤ k) :
    ∀ e ∈ w.served o d n, Ended (w.turns o d n) e.2.runId := by
  induction n with
  | zero => exact nofun
  | succ n ih =>
    intro e he
    have hwf := wf_turns (w := w) (o := o) h n
    rcases List.mem_append.mp he with he | he
    · exact (ih (Nat.le_of_succ_le hn) e he).later (persist_turn hwf)
    · obtain ⟨jobId, j⟩ := e
      have hc := Option.mem_toList.mp he
      exact turn_ended hwf hc (hu.ok n hn) (hu.texts n hn) (hu.ids n hn) (knows_turns h hk n jobId j (claims_mem hc))

/-- As many turns as there are jobs. -/
theorem drained (h : Wf d) (hu : Unfailing w o d (claimableJobs d).length) (hk : w.Knows d) :
    claimableJobs (w.turns o d (claimableJobs d).length) = [] ∧
      ∀ e ∈ claimableJobs d, Ended (w.turns o d (claimableJobs d).length) e.2.runId := by
  have hperm := served_perm (w := w) (o := o) h (claimableJobs d).length
  have hnil : claimableJobs (w.turns o d (claimableJobs d).length) = [] := by
    rcases served_length hu _ (Nat.le_refl _) with hlen | hnil
    · have hsum := hperm.length_eq
      rw [List.length_append, hlen] at hsum
      exact List.eq_nil_of_length_eq_zero (by omega)
    · exact hnil
  refine ⟨hnil, fun e he => served_ended h hu hk _ (Nat.le_refl _) e ?_⟩
  rw [hnil, List.append_nil] at hperm
  exact hperm.subset he

end turns

/-- Whatever fails, the worker claims the jobs oldest first, each once. When nothing
    fails, it ends the run of each of them. -/
theorem drains_in_order {s : Pg} (h : Reach s) (w : Worker) (o : Nat → Outside) :
    (∀ n, (claimableJobs s.db).Perm (w.served o s.db n ++ claimableJobs (w.turns o s.db n)) ∧
      (w.served o s.db n).Pairwise (fun x y => x.2.createdAt ≤ y.2.createdAt) ∧
      ∀ x ∈ w.served o s.db n, ∀ y ∈ claimableJobs (w.turns o s.db n), x.2.createdAt ≤ y.2.createdAt) ∧
    (Unfailing w o s.db (claimableJobs s.db).length → w.Knows s.db →
      claimableJobs (w.turns o s.db (claimableJobs s.db).length) = [] ∧
        ∀ e ∈ claimableJobs s.db, Ended (w.turns o s.db (claimableJobs s.db).length) e.2.runId) := by
  have hwf := (pg_ok h).inv
  exact ⟨fun n => ⟨served_perm hwf n, served_sorted hwf n⟩, drained hwf⟩

/-- Two campaigns: job 6 is a microsecond older than job 3, and commits after it. -/
def twoJobs : List PgAct :=
  [.start 0 (.createCampaign 4 5 6 ⟨"token", "first", [], 60⟩), .tick 1,
    .start 1 (.createCampaign 1 2 3 ⟨"token", "second", [], 60⟩), .exec 1, .exec 1, .exec 1, .exec 1, .commit 1,
    .exec 0, .exec 0, .exec 0, .exec 0, .commit 0]

theorem drains_in_order_two : ∃ s, Reach s ∧
    tokenWorker.served (fun _ => allWell) s.db 2 = [(6, ⟨4, 5, none, none, 0, 0⟩), (3, ⟨1, 2, none, none, 0, 1⟩)] ∧
    claimableJobs (tokenWorker.turns (fun _ => allWell) s.db 2) = [] ∧
    Ended (tokenWorker.turns (fun _ => allWell) s.db 2) 5 ∧ Ended (tokenWorker.turns (fun _ => allWell) s.db 2) 2 := by
  have h : (playAll Store.init twoJobs).any (fun s =>
      tokenWorker.served (fun _ => allWell) s.db 2 = [(6, ⟨4, 5, none, none, 0, 0⟩), (3, ⟨1, 2, none, none, 0, 1⟩)] ∧
      claimableJobs s.db = [(6, ⟨4, 5, none, none, 0, 0⟩), (3, ⟨1, 2, none, none, 0, 1⟩)] ∧
      ((List.range 2).all fun n => (Db.findings (tokenWorker.turns (fun _ => allWell) s.db n)).isEmpty) ∧
      Db.campaign s.db 1 = some ⟨"token", "second", [], 60, .queued, 1, 1⟩ ∧
      Db.campaign s.db 4 = some ⟨"token", "first", [], 60, .queued, 0, 0⟩) = true := by
    decide
  obtain ⟨s, hs⟩ := Option.isSome_iff_exists.mp (show (playAll Store.init twoJobs).isSome = true by decide)
  rw [hs] at h
  obtain ⟨hserved, hjobs, hfindings, hone, hfour⟩ := of_decide_eq_true h
  have hreach := playAll_reach hs
  have hunfailing : Unfailing tokenWorker (fun _ => allWell) s.db (claimableJobs s.db).length := by
    rw [hjobs]
    exact ⟨fun _ _ _ => rfl, fun _ _ _ => rfl, fun n hn => newIds_of_empty (by
      simpa using List.all_eq_true.mp hfindings n (List.mem_range.mpr hn))⟩
  have hknows : tokenWorker.Knows s.db := by
    intro jobId j hm c hc
    rw [hjobs] at hm
    simp only [List.mem_cons, List.not_mem_nil, or_false, Prod.mk.injEq] at hm
    rcases hm with ⟨-, rfl⟩ | ⟨-, rfl⟩
    · cases hfour.symm.trans hc
      rfl
    · cases hone.symm.trans hc
      rfl
  obtain ⟨hnil, hended⟩ := (drains_in_order hreach tokenWorker fun _ => allWell).2 hunfailing hknows
  rw [hjobs] at hnil hended
  exact ⟨s, hreach, hserved, hnil, hended (6, ⟨4, 5, none, none, 0, 0⟩) (by simp),
    hended (3, ⟨1, 2, none, none, 0, 1⟩) (by simp)⟩

end SoroFuzz.Queue
