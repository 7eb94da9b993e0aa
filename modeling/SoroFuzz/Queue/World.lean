/-
  SoroFuzz.Queue.World — any number of workers, in any number of server processes, on one
  Postgres.

  Worker `k` runs `run_loop`, turn after turn. Its calls to the store are transactions of
  `Store`, whose statements interleave with those of every other call in flight; the
  HTTP handlers create, read and cancel campaigns meanwhile. A call's answer is
  delivered some time after it committed. A call may also fail at any time (`fail`: no
  connection to be had, or the connection lost); its transaction is then left to itself,
  and may still commit or be aborted.

  `log` records what happened, newest first. Only `replyOf` reads it: the answer that is
  on its way.

  Proved:
  - `step_cases`: all that a step can do.
  - `sound_step`: what every step keeps (`Sound`): the store's invariant, and a log that
    tells the transactions apart.
-/

import SoroFuzz.Queue.Process
import SoroFuzz.Store.History

namespace SoroFuzz.Queue

open SoroFuzz.Store
open Lib.Process

/-- Where a worker is. -/
inductive Doing where
  | at (p : Process)
  /-- It awaits the answer to its call, which is the transaction `tx`. -/
  | waiting (tx : Nat) (op : StoreOp) (next : Reply → Process)
  | running (job : RunJob) (next : Except RunnerError RunResult → Process)

inductive Event where
  | began (tx : Nat) (call : Call)
  | called (k : Nat) (op : StoreOp) (tx : Nat)
  | executed (tx : Nat) (call : Call) (sql : Sql)
  | committed (tx : Nat) (call : Call) (reply : Reply)
  /-- Rolled back; the caller will see `reply`. -/
  | aborted (tx : Nat) (reply : Reply)
  | replied (k : Nat) (op : StoreOp) (reply : Reply)
  | emitted (k : Nat) (runId : Uuid) (event : ProgressEvent)
  | invoked (k : Nat) (job : RunJob)
  | ran (k : Nat) (job : RunJob) (answer : Except RunnerError RunResult)
  | closed (k : Nat) (runId : Uuid)

/-- The events that say nothing of a transaction. -/
def Event.quiet : Event → Bool
  | .replied _ _ _ | .emitted _ _ _ | .invoked _ _ | .ran _ _ _ | .closed _ _ => true
  | .began _ _ | .called _ _ _ | .executed _ _ _ | .committed _ _ _ | .aborted _ _ => false

structure World where
  pg : Pg
  workers : Nat → Doing
  /-- Transactions are numbered in the order they begin. -/
  next : Nat
  log : List Event

namespace World

def init : World := ⟨Store.init, fun _ => .at .ret, 0, []⟩

/-- The answer of a transaction that is over. -/
def replyOf (log : List Event) (tx : Nat) : Option Reply :=
  log.findSome? fun
    | .committed i _ r => if i = tx then some r else none
    | .aborted i r => if i = tx then some r else none
    | _ => none

/-- What the log records of a step of Postgres. -/
def observe (pg : Pg) : PgAct → List Event
  | .exec i =>
    match pg.txns.lookup i with
    | some t =>
      match t.prog with
      | .stmt l _ _ => [.executed i t.call l]
      | _ => []
    | none => []
  | .commit i =>
    match pg.txns.lookup i with
    | some t =>
      match t.prog with
      | .commit r => [.committed i t.call r]
      | _ => []
    | none => []
  | .abort i =>
    match pg.txns.lookup i with
    | some t =>
      match t.prog with
      | .rollback r => [.aborted i r]
      | _ => [.aborted i .error]
    | none => []
  | .tick _ | .start _ _ => []

/-- The calls of the HTTP handlers. -/
def ofApi : Call → Bool
  | .createCampaign _ _ _ _ | .getCampaign _ | .cancelCampaign _ => true
  | .claimJob _ _ | .startRun _ _ | .finishRun _ _ _ => false

end World

inductive Act where
  /-- Postgres executes a statement, commits or aborts a transaction, or time passes. -/
  | pg (a : PgAct)
  | api (call : Call)
  /-- Worker `k` begins a turn of `run_loop`. -/
  | poll (k : Nat)
  | call (k : Nat) (tie ids : Nat → Nat)
  | reply (k : Nat)
  | fail (k : Nat)
  /-- Worker `k` talks to the hub, or invokes the runner. -/
  | proceed (k : Nat)
  | answer (k : Nat) (answer : Except RunnerError RunResult)

namespace World

/-- Begin a transaction. -/
def begin (s : World) (call : Call) : Option World :=
  (Lib.ReadCommitted.step body s.pg (.start s.next call)).map fun pg =>
    { s with pg, next := s.next + 1, log := .began s.next call :: s.log }

def goto (s : World) (k : Nat) (d : Doing) (log : List Event) : World :=
  { s with workers := Function.update s.workers k d, log := log ++ s.log }

variable (ws : Nat → Worker)

def step (s : World) : Act → Option World
  | .pg (.start _ _) => none
  | .pg a => (Lib.ReadCommitted.step body s.pg a).map fun pg => { s with pg, log := observe s.pg a ++ s.log }
  | .api call => if ofApi call then s.begin call else none
  | .poll k =>
    match s.workers k with
    | .at .ret => some (s.goto k (.at (ws k).runLoop) [])
    | _ => none
  | .call k tie ids =>
    match s.workers k with
    | .at (.act (.store op) next) =>
      (s.begin (op.call tie ids)).map fun s' => s'.goto k (.waiting s.next op next) [.called k op s.next]
    | _ => none
  | .reply k =>
    match s.workers k with
    | .waiting tx op next => (replyOf s.log tx).map fun r => s.goto k (.at (next r)) [.replied k op r]
    | _ => none
  | .fail k =>
    match s.workers k with
    | .at (.act (.store op) next) => some (s.goto k (.at (next .error)) [.replied k op .error])
    | .waiting _ op next => some (s.goto k (.at (next .error)) [.replied k op .error])
    | _ => none
  | .proceed k =>
    match s.workers k with
    | .at (.act (.publisher _) next) => some (s.goto k (.at (next ())) [])
    | .at (.act (.emit runId e) next) => some (s.goto k (.at (next ())) [.emitted k runId e])
    | .at (.act (.close runId) next) => some (s.goto k (.at (next ())) [.closed k runId])
    | .at (.act (.run job) next) => some (s.goto k (.running job next) [.invoked k job])
    | _ => none
  | .answer k answer =>
    match s.workers k with
    | .running job next => some (s.goto k (.at (next answer)) [.ran k job answer])
    | _ => none

inductive Reach : World → Prop
  | init : Reach init
  | step {s s' : World} (a : Act) : Reach s → step ws s a = some s' → Reach s'

def play (s : World) : List Act → Option World
  | [] => some s
  | a :: as => (step ws s a).bind fun s' => play s' as

variable {ws}

theorem play_reach : ∀ {as : List Act} {s s' : World}, Reach ws s → play ws s as = some s' → Reach ws s' := by
  intro as
  induction as with
  | nil => intro s s' h hp; cases hp; exact h
  | cons a as ih =>
    intro s s' h hp
    obtain ⟨s1, h1, h2⟩ := Option.bind_eq_some_iff.mp hp
    exact ih (.step a h h1) h2

/-- Campaign 1 with run 2 and job 3 is created, in transaction 0. -/
def createAct : List Act :=
  [.api (.createCampaign 1 2 3 ⟨"token", "nightly", [], 60⟩), .pg (.exec 0), .pg (.exec 0), .pg (.exec 0),
    .pg (.exec 0), .pg (.commit 0)]

/-- Worker 0 claims a job and loads its campaign, in transactions 1 and 2. -/
def claimAct : List Act :=
  [.poll 0, .call 0 id id, .pg (.exec 1), .pg (.commit 1), .reply 0, .call 0 id id, .pg (.exec 2),
    .pg (.commit 2), .reply 0]

/-- It starts the run, in transaction 3, and invokes the runner. -/
def startAct : List Act :=
  [.call 0 id id, .pg (.exec 3), .pg (.exec 3), .pg (.exec 3), .pg (.commit 3), .reply 0, .proceed 0,
    .proceed 0, .proceed 0]

/-! ## What one step does -/

/-- What one step does, whichever action it is. -/
inductive Stepped (ws : Nat → Worker) (s : World) : World → Prop
  | tick (d : Nat) : Stepped ws s { s with pg := { s.pg with now := s.pg.now + d } }
  | exec (i : Nat) (t : Txn) (l : Sql) (pg : Pg) : s.pg.txns.lookup i = some t →
      (∃ writes next, t.prog = .stmt l writes next) → Lib.ReadCommitted.step body s.pg (.exec i) = some pg →
      Stepped ws s { s with pg, log := .executed i t.call l :: s.log }
  | commit (i : Nat) (t : Txn) (r : Reply) (pg : Pg) : s.pg.txns.lookup i = some t → t.prog = .commit r →
      Lib.ReadCommitted.step body s.pg (.commit i) = some pg →
      Stepped ws s { s with pg, log := .committed i t.call r :: s.log }
  | abort (i : Nat) (t : Txn) (r : Reply) (pg : Pg) : s.pg.txns.lookup i = some t →
      (t.prog = .rollback r ∨ r = .error) → Lib.ReadCommitted.step body s.pg (.abort i) = some pg →
      Stepped ws s { s with pg, log := .aborted i r :: s.log }
  | api (c : Call) (pg : Pg) : ofApi c = true → Lib.ReadCommitted.step body s.pg (.start s.next c) = some pg →
      Stepped ws s { s with pg, next := s.next + 1, log := .began s.next c :: s.log }
  | poll (k : Nat) : s.workers k = .at .ret → Stepped ws s (s.goto k (.at (ws k).runLoop) [])
  | call (k : Nat) (tie ids : Nat → Nat) (op : StoreOp) (next : Reply → Process) (pg : Pg) :
      s.workers k = .at (.act (.store op) next) →
        Lib.ReadCommitted.step body s.pg (.start s.next (op.call tie ids)) = some pg →
      Stepped ws s (World.mk pg (Function.update s.workers k (.waiting s.next op next)) (s.next + 1)
        (.called k op s.next :: .began s.next (op.call tie ids) :: s.log))
  | reply (k tx : Nat) (op : StoreOp) (next : Reply → Process) (r : Reply) : s.workers k = .waiting tx op next →
      replyOf s.log tx = some r → Stepped ws s (s.goto k (.at (next r)) [.replied k op r])
  | failed (k : Nat) (op : StoreOp) (next : Reply → Process) :
      (s.workers k = .at (.act (.store op) next) ∨ ∃ tx, s.workers k = .waiting tx op next) →
      Stepped ws s (s.goto k (.at (next .error)) [.replied k op .error])
  | publisher (k : Nat) (runId : Uuid) (next : Unit → Process) : s.workers k = .at (.act (.publisher runId) next) →
      Stepped ws s (s.goto k (.at (next ())) [])
  | emit (k : Nat) (runId : Uuid) (e : ProgressEvent) (next : Unit → Process) :
    s.workers k = .at (.act (.emit runId e) next) →
      Stepped ws s (s.goto k (.at (next ())) [.emitted k runId e])
  | close (k : Nat) (runId : Uuid) (next : Unit → Process) : s.workers k = .at (.act (.close runId) next) →
      Stepped ws s (s.goto k (.at (next ())) [.closed k runId])
  | run (k : Nat) (job : RunJob) (next : Except RunnerError RunResult → Process) :
    s.workers k = .at (.act (.run job) next) →
      Stepped ws s (s.goto k (.running job next) [.invoked k job])
  | answer (k : Nat) (job : RunJob) (next : Except RunnerError RunResult → Process) (a : Except RunnerError RunResult) :
      s.workers k = .running job next → Stepped ws s (s.goto k (.at (next a)) [.ran k job a])

theorem step_cases {s s' : World} {a : Act} (h : step ws s a = some s') : Stepped ws s s' := by
  cases a with
  | pg a =>
    cases a with
    | start i c => cases h
    | tick d =>
      simp only [step, Lib.ReadCommitted.step, Option.map_some, Option.some.injEq] at h
      exact h ▸ .tick d
    | exec i =>
      obtain ⟨pg, hpg, rfl⟩ := Option.map_eq_some_iff.mp h
      cases Lib.ReadCommitted.step_cases body hpg with
      | exec _ t l writes next ht hp _ =>
        simpa [observe, ht, hp] using (Stepped.exec i t l _ ht ⟨_, _, hp⟩ hpg : Stepped ws _ _)
    | commit i =>
      obtain ⟨pg, hpg, rfl⟩ := Option.map_eq_some_iff.mp h
      cases Lib.ReadCommitted.step_cases body hpg with
      | commit _ t r ht hp => simpa [observe, ht, hp] using (Stepped.commit i t r _ ht hp hpg : Stepped ws _ _)
    | abort i =>
      obtain ⟨pg, hpg, rfl⟩ := Option.map_eq_some_iff.mp h
      cases Lib.ReadCommitted.step_cases body hpg with
      | abort _ hi =>
        obtain ⟨t, ht⟩ := Option.isSome_iff_exists.mp (AList.lookup_isSome.mpr hi)
        cases hp : t.prog with
        | rollback r => simpa [observe, ht, hp] using (Stepped.abort i t r _ ht (Or.inl hp) hpg : Stepped ws _ _)
        | _ => simpa [observe, ht, hp] using (Stepped.abort i t .error _ ht (Or.inr rfl) hpg : Stepped ws _ _)
  | api c =>
    simp only [step] at h
    split at h
    · rename_i hc
      obtain ⟨pg, hpg, rfl⟩ := Option.map_eq_some_iff.mp h
      exact .api c pg hc hpg
    · cases h
  | poll k =>
    simp only [step] at h
    split at h
    · rename_i hk; cases h; exact .poll k hk
    · cases h
  | call k tie ids =>
    simp only [step] at h
    split at h
    · rename_i op next hk
      obtain ⟨s1, hs1, rfl⟩ := Option.map_eq_some_iff.mp h
      obtain ⟨pg, hpg, rfl⟩ := Option.map_eq_some_iff.mp hs1
      exact .call k tie ids op next pg hk hpg
    · cases h
  | reply k =>
    simp only [step] at h
    split at h
    · rename_i tx op next hk
      obtain ⟨r, hr, rfl⟩ := Option.map_eq_some_iff.mp h
      exact .reply k tx op next r hk hr
    · cases h
  | fail k =>
    simp only [step] at h
    split at h
    · rename_i op next hk; cases h; exact .failed k op next (Or.inl hk)
    · rename_i tx op next hk; cases h; exact .failed k op next (Or.inr ⟨tx, hk⟩)
    · cases h
  | proceed k =>
    simp only [step] at h
    split at h
    · rename_i hk; cases h; exact .publisher k _ _ hk
    · rename_i hk; cases h; exact .emit k _ _ _ hk
    · rename_i hk; cases h; exact .close k _ _ hk
    · rename_i hk; cases h; exact .run k _ _ hk
    · cases h
  | answer k a =>
    simp only [step] at h
    split at h
    · rename_i hk; cases h; exact .answer k _ _ a hk
    · cases h

/-! ## Transactions and the log -/

/-- The commits the log records. -/
def commits (log : List Event) : List Commit :=
  log.filterMap fun
    | .committed tx call reply => some ⟨tx, call, reply⟩
    | _ => none

@[simp] theorem mem_commits {log : List Event} {tx : Nat} {c : Call} {r : Reply} :
    (⟨tx, c, r⟩ : Commit) ∈ commits log ↔ .committed tx c r ∈ log := by
  rw [commits, List.mem_filterMap]
  constructor
  · intro hm
    obtain ⟨e, he, hc⟩ := hm
    cases e <;> cases hc
    exact he
  · exact fun h => ⟨_, h, rfl⟩

theorem mem_of_replyOf {log : List Event} {tx : Nat} {r : Reply} (h : replyOf log tx = some r) :
    (∃ c, .committed tx c r ∈ log) ∨ .aborted tx r ∈ log := by
  obtain ⟨e, he, hr⟩ := List.exists_of_findSome?_eq_some h
  cases e with
  | committed i c r' =>
    simp only [Option.ite_none_right_eq_some, Option.some.injEq] at hr
    obtain ⟨rfl, rfl⟩ := hr
    exact Or.inl ⟨c, he⟩
  | aborted i r' =>
    simp only [Option.ite_none_right_eq_some, Option.some.injEq] at hr
    obtain ⟨rfl, rfl⟩ := hr
    exact Or.inr he
  | _ => cases hr

/-- The log tells the transactions apart, and says what became of each. -/
structure Sound (s : World) : Prop where
  ok : Lib.ReadCommitted.Ok (storeSpec fun _ => True) s.pg
  lt : ∀ i c, .began i c ∈ s.log → i < s.next
  once : ∀ i c c', .began i c ∈ s.log → .began i c' ∈ s.log → c = c'
  txns : ∀ i t, s.pg.txns.lookup i = some t → .began i t.call ∈ s.log
  executed : ∀ i c l, .executed i c l ∈ s.log → .began i c ∈ s.log
  committed : ∀ i c r, .committed i c r ∈ s.log → .began i c ∈ s.log ∧ i ∉ s.pg.txns
  aborted : ∀ i r, .aborted i r ∈ s.log → r = .error ∨ r = .campaign none
  called : ∀ k op i, .called k op i ∈ s.log → ∃ tie ids, .began i (op.call tie ids) ∈ s.log
  caller : ∀ k k' op op' i, .called k op i ∈ s.log → .called k' op' i ∈ s.log → k = k'
  /-- A transaction executes nothing after its commit. -/
  ended : ∀ i c l log, (.executed i c l :: log : List Event) <:+ s.log → ∀ c' r, .committed i c' r ∉ log

theorem sound_init : Sound init where
  ok := Lib.ReadCommitted.init_ok wf_empty
  lt _ _ h := by cases h
  once _ _ _ h := by cases h
  txns _ _ h := by cases h
  executed _ _ _ h := by cases h
  committed _ _ _ h := by cases h
  aborted _ _ h := by cases h
  called _ _ _ h := by cases h
  caller _ _ _ _ _ h := by cases h
  ended _ _ _ _ h := by have := List.suffix_nil.mp h; cases this

/-- A step that says nothing of a transaction. -/
theorem Sound.quiet {s s' : World} (h : Sound s) (hpg : s'.pg = s.pg) (hnext : s'.next = s.next)
    (hlog : s'.log = s.log ∨ ∃ e, e.quiet = true ∧ s'.log = e :: s.log) : Sound s' := by
  have hmem : ∀ e, e.quiet = false → e ∈ s'.log → e ∈ s.log := by
    intro e he hm
    rcases hlog with hl | ⟨e', he', hl⟩
    · rwa [hl] at hm
    · rw [hl] at hm
      rcases List.mem_cons.mp hm with rfl | hm
      · rw [he] at he'; cases he'
      · exact hm
  have hle : ∀ e, e ∈ s.log → e ∈ s'.log := by
    intro e hm
    rcases hlog with hl | ⟨e', -, hl⟩ <;> rw [hl]
    · exact hm
    · exact List.mem_cons_of_mem _ hm
  refine ⟨hpg ▸ h.ok, fun i c hm => hnext ▸ h.lt i c (hmem _ rfl hm),
    fun i c c' hm hm' => h.once i c c' (hmem _ rfl hm) (hmem _ rfl hm'),
    fun i t ht => hle _ (h.txns i t (hpg ▸ ht)), fun i c l hm => hle _ (h.executed i c l (hmem _ rfl hm)),
      fun i c r hm => ?_,
    fun i r hm => h.aborted i r (hmem _ rfl hm), fun k op i hm => ?_,
    fun k k' op op' i hm hm' => h.caller k k' op op' i (hmem _ rfl hm) (hmem _ rfl hm'), fun i c l log hs => ?_⟩
  · obtain ⟨hb, hi⟩ := h.committed i c r (hmem _ rfl hm)
    exact ⟨hle _ hb, hpg ▸ hi⟩
  · obtain ⟨tie, ids, hb⟩ := h.called k op i (hmem _ rfl hm)
    exact ⟨tie, ids, hle _ hb⟩
  · rcases hlog with hl | ⟨e', he', hl⟩
    · exact h.ended i c l log (hl ▸ hs)
    · rw [hl] at hs
      rcases List.suffix_cons_iff.mp hs with heq | hs
      · cases heq; cases he'
      · exact h.ended i c l log hs

/-- A step of a transaction that is in flight, which it may end. -/
theorem Sound.txn {s : World} (h : Sound s) {i : Nat} {t : Txn} (ht : s.pg.txns.lookup i = some t) {pg : Pg} {e : Event}
    (hok : Lib.ReadCommitted.Ok (storeSpec fun _ => True) pg)
    (htxns : ∀ j u, pg.txns.lookup j = some u → ∃ u', s.pg.txns.lookup j = some u' ∧ u'.call = u.call)
    (he : (∃ l, e = .executed i t.call l) ∨ (∃ r, e = .committed i t.call r ∧ i ∉ pg.txns) ∨
      ∃ r, e = .aborted i r ∧ (r = .error ∨ r = .campaign none)) :
    Sound { s with pg, log := e :: s.log } := by
  have hbegan := h.txns i t ht
  have hcons : ∀ x, x ∈ s.log → x ∈ e :: s.log := fun x => List.mem_cons_of_mem e
  have hold : ∀ j c, .began j c ∈ e :: s.log → .began j c ∈ s.log := by
    intro j c hm
    rcases List.mem_cons.mp hm with heq | hm
    · rcases he with ⟨l, rfl⟩ | ⟨r, rfl, -⟩ | ⟨r, rfl, -⟩ <;> cases heq
    · exact hm
  have hcalled : ∀ k op j, .called k op j ∈ e :: s.log → .called k op j ∈ s.log := by
    intro k op j hm
    rcases List.mem_cons.mp hm with heq | hm
    · rcases he with ⟨l, rfl⟩ | ⟨r, rfl, -⟩ | ⟨r, rfl, -⟩ <;> cases heq
    · exact hm
  refine ⟨hok, fun j c hm => h.lt j c (hold j c hm), fun j c c' hm hm' => h.once j c c' (hold j c hm) (hold j c' hm'),
    fun j u hu => ?_, fun j c l hm => ?_, fun j c r hm => ?_, fun j r hm => ?_, fun k op j hm => ?_,
    fun k k' op op' j hm hm' => h.caller k k' op op' j (hcalled _ _ _ hm) (hcalled _ _ _ hm'), fun j c l log hs => ?_⟩
  · obtain ⟨u', hu', hc⟩ := htxns j u hu
    exact hcons _ (hc ▸ h.txns j u' hu')
  · rcases List.mem_cons.mp hm with heq | hm
    · rcases he with ⟨l, rfl⟩ | ⟨r, rfl, -⟩ | ⟨r, rfl, -⟩ <;> cases heq
      exact hcons _ hbegan
    · exact hcons _ (h.executed j c l hm)
  · rcases List.mem_cons.mp hm with heq | hm
    · rcases he with ⟨l, rfl⟩ | ⟨r, rfl, hi⟩ | ⟨r, rfl, -⟩ <;> cases heq
      exact ⟨hcons _ hbegan, hi⟩
    · obtain ⟨hb, hj⟩ := h.committed j c r hm
      refine ⟨hcons _ hb, fun hin => hj ?_⟩
      obtain ⟨u, hu⟩ := Option.isSome_iff_exists.mp (AList.lookup_isSome.mpr hin)
      obtain ⟨u', hu', -⟩ := htxns j u hu
      exact AList.lookup_isSome.mp (by rw [hu']; rfl)
  · rcases List.mem_cons.mp hm with heq | hm
    · rcases he with ⟨l, rfl⟩ | ⟨r, rfl, -⟩ | ⟨r, rfl, hr⟩ <;> cases heq
      exact hr
    · exact h.aborted j r hm
  · obtain ⟨tie, ids, hb⟩ := h.called k op j (hcalled _ _ _ hm)
    exact ⟨tie, ids, hcons _ hb⟩
  · rcases List.suffix_cons_iff.mp hs with heq | hs
    · cases heq
      rcases he with ⟨l, heq⟩ | ⟨r, heq, -⟩ | ⟨r, heq, -⟩ <;> cases heq
      -- It is in flight, so it has not committed.
      intro c' r hm
      exact (h.committed i c' r hm).2 (AList.lookup_isSome.mp (by rw [ht]; rfl))
    · exact h.ended j c l log hs

/-- A new transaction. -/
theorem Sound.start {s : World} (h : Sound s) {c : Call} {pg : Pg}
    (hpg : Lib.ReadCommitted.step body s.pg (.start s.next c) = some pg) :
    Sound { s with pg, next := s.next + 1, log := .began s.next c :: s.log } := by
  have hok := (Lib.ReadCommitted.step_ok body (fun c n d => body_meets _ c n d) h.ok hpg (allowed _ _)).1
  cases Lib.ReadCommitted.step_cases body hpg with
  | start _ _ hnot =>
    have hcons : ∀ x, x ∈ s.log → x ∈ .began s.next c :: s.log := fun x => List.mem_cons_of_mem _
    refine ⟨hok, fun j c' hm => ?_, fun j c1 c2 h1 h2 => ?_, fun j u hu => ?_, fun j c' l hm => ?_, fun j c' r hm => ?_,
      fun j r hm => ?_, fun k op j hm => ?_, fun k k' op op' j hm hm' => ?_, fun j c' l log hs => ?_⟩
    · rcases List.mem_cons.mp hm with heq | hm
      · cases heq; exact Nat.lt_succ_self _
      · exact Nat.lt_succ_of_lt (h.lt j c' hm)
    · rcases List.mem_cons.mp h1 with e1 | h1 <;> rcases List.mem_cons.mp h2 with e2 | h2
      · cases e1; cases e2; rfl
      · cases e1; exact absurd (h.lt _ _ h2) (Nat.lt_irrefl _)
      · cases e2; exact absurd (h.lt _ _ h1) (Nat.lt_irrefl _)
      · exact h.once j c1 c2 h1 h2
    · rcases Lib.ReadCommitted.lookup_insert_cases hu with ⟨rfl, rfl⟩ | ⟨-, hu⟩
      · exact List.mem_cons_self
      · exact hcons _ (h.txns j u hu)
    · rcases List.mem_cons.mp hm with heq | hm
      · cases heq
      · exact hcons _ (h.executed j c' l hm)
    · rcases List.mem_cons.mp hm with heq | hm
      · cases heq
      · obtain ⟨hb, hj⟩ := h.committed j c' r hm
        refine ⟨hcons _ hb, fun hin => ?_⟩
        rcases (AList.mem_insert _).mp hin with rfl | hin
        · exact absurd (h.lt _ _ hb) (Nat.lt_irrefl _)
        · exact hj hin
    · rcases List.mem_cons.mp hm with heq | hm
      · cases heq
      · exact h.aborted j r hm
    · rcases List.mem_cons.mp hm with heq | hm
      · cases heq
      · obtain ⟨tie, ids, hb⟩ := h.called k op j hm
        exact ⟨tie, ids, hcons _ hb⟩
    · exact h.caller k k' op op' j ((List.mem_cons.mp hm).resolve_left nofun)
        ((List.mem_cons.mp hm').resolve_left nofun)
    · rcases List.suffix_cons_iff.mp hs with heq | hs
      · cases heq
      · exact h.ended j c' l log hs

theorem Sound.call {s : World} (h : Sound s) {k i : Nat} {op : StoreOp} (tie ids : Nat → Nat)
    (hb : .began i (op.call tie ids) ∈ s.log) (hnew : ∀ k' op', .called k' op' i ∉ s.log) :
      Sound { s with log := .called k op i :: s.log } := by
  have hcons : ∀ x, x ∈ s.log → x ∈ .called k op i :: s.log := fun x => List.mem_cons_of_mem _
  have hmem : ∀ x, x ≠ .called k op i → x ∈ .called k op i :: s.log → x ∈ s.log := fun x hne hm =>
    (List.mem_cons.mp hm).resolve_left hne
  refine ⟨h.ok, fun j c hm => h.lt j c (hmem _ nofun hm), fun j c c' hm hm' => h.once j c c' (hmem _ nofun hm)
    (hmem _ nofun hm'),
    fun j t ht => hcons _ (h.txns j t ht), fun j c l hm => hcons _ (h.executed j c l (hmem _ nofun hm)),
      fun j c r hm => ?_,
    fun j r hm => h.aborted j r (hmem _ nofun hm), fun k' op' j hm => ?_, fun k1 k2 op1 op2 j h1 h2 => ?_,
      fun j c l log hs => ?_⟩
  · obtain ⟨hb, hj⟩ := h.committed j c r (hmem _ nofun hm)
    exact ⟨hcons _ hb, hj⟩
  · rcases List.mem_cons.mp hm with heq | hm
    · cases heq; exact ⟨tie, ids, hcons _ hb⟩
    · obtain ⟨tie', ids', hb'⟩ := h.called k' op' j hm
      exact ⟨tie', ids', hcons _ hb'⟩
  · rcases List.mem_cons.mp h1 with e1 | h1 <;> rcases List.mem_cons.mp h2 with e2 | h2
    · cases e1; cases e2; rfl
    · cases e1; exact absurd h2 (hnew _ _)
    · cases e2; exact absurd h1 (hnew _ _)
    · exact h.caller k1 k2 op1 op2 j h1 h2
  · rcases List.suffix_cons_iff.mp hs with heq | hs
    · cases heq
    · exact h.ended j c l log hs

theorem sound_step {s s' : World} (h : Sound s) (hs : Stepped ws s s') : Sound s' := by
  have hok : ∀ {a pg}, Lib.ReadCommitted.step body s.pg a = some pg →
      Lib.ReadCommitted.Ok (storeSpec fun _ => True) pg :=
    fun hpg => (Lib.ReadCommitted.step_ok body (fun c n d => body_meets _ c n d) h.ok hpg (allowed _ _)).1
  cases hs with
  | tick d => exact ⟨hok (a := .tick d) rfl, h.lt, h.once, h.txns, h.executed, h.committed, h.aborted, h.called,
    h.caller, h.ended⟩
  | exec i t l pg ht hp hpg =>
    have hok' := hok hpg
    cases Lib.ReadCommitted.step_cases body hpg with
    | exec _ t' _ writes next ht' _ _ =>
      rw [ht] at ht'; cases ht'
      refine h.txn ht hok' (fun j u hu => ?_) (Or.inl ⟨l, rfl⟩)
      rcases Lib.ReadCommitted.lookup_insert_cases hu with ⟨rfl, rfl⟩ | ⟨-, hu⟩
      · exact ⟨t, ht, rfl⟩
      · exact ⟨u, hu, rfl⟩
  | commit i t r pg ht hp hpg =>
    have hok' := hok hpg
    cases Lib.ReadCommitted.step_cases body hpg with
    | commit _ t' r' _ _ =>
      refine h.txn ht hok' (fun j u hu => ?_) (Or.inr (Or.inl ⟨r, rfl, ?_⟩))
      · exact ⟨u, (Lib.ReadCommitted.lookup_erase_cases hu).2, rfl⟩
      · simp
  | abort i t r pg ht hp hpg =>
    have hok' := hok hpg
    have hr : r = .error ∨ r = .campaign none := by
      rcases hp with hp | hr
      · have hm := h.ok.meets i t ht
        rw [hp] at hm
        exact hm
      · exact Or.inl hr
    cases Lib.ReadCommitted.step_cases body hpg with
    | abort _ hi =>
      exact h.txn ht hok' (fun j u hu => ⟨u, (Lib.ReadCommitted.lookup_erase_cases hu).2, rfl⟩)
        (Or.inr (Or.inr ⟨r, rfl, hr⟩))
  | api c pg _ hpg => exact h.start hpg
  | call k tie ids op next pg _ hpg =>
    have hbegan : Event.began s.next (op.call tie ids) ∈ Event.began s.next (op.call tie ids) :: s.log :=
      List.mem_cons_self
    have hnew : ∀ k' op', Event.called k' op' s.next ∉ Event.began s.next (op.call tie ids) :: s.log :=
      fun k' op' hm => by
      obtain ⟨tie', ids', hb⟩ := h.called k' op' _ ((List.mem_cons.mp hm).resolve_left nofun)
      exact absurd (h.lt _ _ hb) (Nat.lt_irrefl _)
    have hcall := (h.start hpg).call (k := k) tie ids hbegan hnew
    exact ⟨hcall.ok, hcall.lt, hcall.once, hcall.txns, hcall.executed, hcall.committed, hcall.aborted, hcall.called,
      hcall.caller, hcall.ended⟩
  | poll | publisher => exact h.quiet rfl rfl (Or.inl rfl)
  | reply | failed | emit | close | run | answer => exact h.quiet rfl rfl (Or.inr ⟨_, rfl, rfl⟩)

end World

end SoroFuzz.Queue
