/-
  SoroFuzz.Queue.Scripted — the live streams when the runner is a given program
  (`runner/subprocess.rs`, `worker/progress.rs`, `api/stream.rs`).

  `Live` lets a runner publish and answer what it likes. Here it is a function of the job:
  it publishes its events, in order and with anything in between, and then it answers.
  `told` counts what a worker's runner has published.

  A channel is opened for one run, whose story is then told on it: that it runs, what the
  runner publishes, and the outcome. `Chapter` is how far a worker has come with that.

  Proved:
  - `run_live`: a run of the server with such a runner is one of `Live`.
  - `runLoop_narrates`: a worker tells a story to its end before it begins another.
  - `narrated_emit`, `narrated_publisher`, `narrated_close`: what it does to the hub keeps
    each channel to the story of one run (`Narrated`).
-/

import SoroFuzz.Queue.Fresh

namespace SoroFuzz.Queue

open SoroFuzz.Store
open Lib.Process
open Lib.Broadcast

/-! ## The server and its runner -/

/-- What `run(job, progress)` publishes, and what it answers. -/
abbrev RunnerScript := RunJob → List ProgressEvent × Except RunnerError RunResult

/-- A runner's doings. -/
def LiveAct.byRunner : LiveAct → Bool
  | .publish _ _ | .world (.answer _ _) => true
  | .world _ | .request _ _ | .subscribe _ | .recv _ => false

structure Scripted where
  live : Live
  /-- How many events worker `k`'s runner has published. -/
  told : Nat → Nat

inductive ScriptedAct where
  /-- What is not a runner's. -/
  | live (a : LiveAct)
  | publish (k : Nat)
  | answer (k : Nat)

namespace Scripted

def init : Scripted := ⟨.init, fun _ => 0⟩

variable (ws : Nat → Worker) (runner : RunnerScript)

def step (s : Scripted) : ScriptedAct → Option Scripted
  | .live a => if a.byRunner then none else (Live.step ws s.live a).map fun live => { s with live }
  | .publish k =>
    match s.live.world.workers k with
    | .running job _ =>
      match (runner job).1[s.told k]? with
      | some event => (Live.step ws s.live (.publish k event)).map fun live =>
          ⟨live, Function.update s.told k (s.told k + 1)⟩
      | none => none
    | _ => none
  | .answer k =>
    match s.live.world.workers k with
    | .running job _ =>
      if s.told k = (runner job).1.length then
        (Live.step ws s.live (.world (.answer k (runner job).2))).map fun live => ⟨live, Function.update s.told k 0⟩
      else none
    | _ => none

/-- The runs, with what was done in them, newest first. -/
inductive Run : List ScriptedAct → Scripted → Prop
  | init : Run [] init
  | step {acts : List ScriptedAct} {s s' : Scripted} (a : ScriptedAct) : Run acts s → step ws runner s a = some s' →
      Run (a :: acts) s'

def play (s : Scripted) : List ScriptedAct → Option Scripted
  | [] => some s
  | a :: as => (step ws runner s a).bind fun s' => play s' as

variable {ws runner}

theorem play_run : ∀ {as acts : List ScriptedAct} {s s' : Scripted}, Run ws runner acts s →
    play ws runner s as = some s' → Run ws runner (as.reverse ++ acts) s' := by
  intro as
  induction as with
  | nil =>
    intro acts s s' h hp
    cases hp
    exact h
  | cons a as ih =>
    intro acts s s' h hp
    obtain ⟨s1, h1, h2⟩ := Option.bind_eq_some_iff.mp hp
    rw [List.reverse_cons, List.append_assoc]
    exact ih (.step a h h1) h2

/-- What one step does, whichever action it is. -/
inductive Stepped (ws : Nat → Worker) (runner : RunnerScript) (s : Scripted) : ScriptedAct → Scripted → Prop
  | live (a : LiveAct) (live : Live) : a.byRunner = false → Live.step ws s.live a = some live →
      Stepped ws runner s (.live a) { s with live }
  | publish (k : Nat) (event : ProgressEvent) (job : RunJob) (next : Except RunnerError RunResult → Process)
      (live : Live) : s.live.world.workers k = .running job next → (runner job).1[s.told k]? = some event →
      Live.step ws s.live (.publish k event) = some live →
      Stepped ws runner s (.publish k) ⟨live, Function.update s.told k (s.told k + 1)⟩
  | answer (k : Nat) (job : RunJob) (next : Except RunnerError RunResult → Process) (live : Live) :
      s.live.world.workers k = .running job next → s.told k = (runner job).1.length →
      Live.step ws s.live (.world (.answer k (runner job).2)) = some live →
      Stepped ws runner s (.answer k) ⟨live, Function.update s.told k 0⟩

theorem step_cases {s s' : Scripted} {a : ScriptedAct} (h : step ws runner s a = some s') :
    Stepped ws runner s a s' := by
  cases a with
  | live a =>
    simp only [step] at h
    split at h
    · cases h
    · rename_i ha
      obtain ⟨live, hl, rfl⟩ := Option.map_eq_some_iff.mp h
      exact .live a live (Bool.eq_false_iff.mpr ha) hl
  | publish k =>
    simp only [step] at h
    split at h
    · rename_i job next hk
      split at h
      · rename_i event he
        obtain ⟨live, hl, rfl⟩ := Option.map_eq_some_iff.mp h
        exact .publish k event job next live hk he hl
      · cases h
    · cases h
  | answer k =>
    simp only [step] at h
    split at h
    · rename_i job next hk
      split at h
      · rename_i hn
        obtain ⟨live, hl, rfl⟩ := Option.map_eq_some_iff.mp h
        exact .answer k job next live hk hn hl
      · cases h
    · cases h

/-- The server does what it does with any runner. -/
theorem run_live {acts : List ScriptedAct} {s : Scripted} (h : Run ws runner acts s) :
    Live.Run ws (fun _ _ => true) s.live := by
  induction h with
  | init => exact .init
  | step a _ hs ih =>
    cases step_cases hs with
    | live a live _ hl => exact .step a ih rfl hl
    | publish k event job next live _ _ hl => exact .step _ ih rfl hl
    | answer k job next live _ _ hl => exact .step _ ih rfl hl

end Scripted

/-! ## What a worker tells -/

/-- How far a worker has come with the story of the run it is at. -/
inductive Chapter where
  | away
  | opened (runId : Uuid)
  /-- It has published that the run runs. -/
  | begun (runId : Uuid)
  | running (job : RunJob)
  | ran (job : RunJob) (answer : Except RunnerError RunResult)
  | finished (job : RunJob) (answer : Except RunnerError RunResult)

def Chapter.run : Chapter → Option Uuid
  | .away => none
  | .opened runId | .begun runId => some runId
  | .running job | .ran job _ | .finished job _ => some job.runId

/-- The job that the runner was given. -/
def Chapter.job : Chapter → Option RunJob
  | .running job | .ran job _ | .finished job _ => some job
  | .away | .opened _ | .begun _ => none

/-- The status that `process` publishes last. -/
def Worker.outcome (w : Worker) (job : RunJob) (answer : Except RunnerError RunResult) : RunStatus :=
  (w.finish job.fuzzTargetName answer).status.runStatus

def narration (w : Worker) : Protocol Action Action.Answer Chapter where
  allows
    | .away, .store _ => True
    | .away, .publisher _ => True
    | .opened runId, .emit id event => id = runId ∧ event = .status .running
    | .begun runId, .run job => job.runId = runId
    | .ran job answer, .emit id event => id = job.runId ∧ event = .status (w.outcome job answer)
    | .finished _ _, .store _ => True
    | .finished job _, .close id => id = job.runId
    | _, _ => False
  after
    | .away, .publisher runId, _ => .opened runId
    | .opened runId, .emit _ _, _ => .begun runId
    | .begun _, .run job, answer => .ran job answer
    | .ran job answer, .emit _ _, _ => .finished job answer
    | .finished _ _, .close _, _ => .away
    | x, _, _ => x

/-- A worker tells a story to its end. -/
abbrev Narrates (w : Worker) : Chapter → Process → Prop := Completes (narration w) (· = .away)

variable {ws : Nat → Worker} {w : Worker} {runner : RunnerScript}

theorem finished_narrates (job : RunJob) (answer : Except RunnerError RunResult) :
    Narrates w (.ran job answer) (w.finished job answer) :=
  completes_act ⟨rfl, rfl⟩ fun _ => completes_act trivial fun _ => completes_act rfl fun _ => rfl

theorem started_narrates (campaignId runId : Uuid) (campaign : CampaignRecord) (target : Target) (r : Reply) :
    Narrates w .away (w.started campaignId runId campaign target r) := by
  unfold Worker.started
  split
  · exact completes_act trivial fun _ => completes_act ⟨rfl, rfl⟩ fun _ => completes_act rfl fun answer =>
      finished_narrates _ answer
  · rfl

theorem loaded_narrates (campaignId runId : Uuid) (r : Reply) :
    Narrates w .away (w.loaded campaignId runId r) := by
  unfold Worker.loaded
  split
  · split
    · rfl
    · exact completes_act trivial fun r => started_narrates _ _ _ _ r
  · rfl

theorem runLoop_narrates : Narrates w .away w.runLoop := by
  refine completes_act trivial fun r => ?_
  split
  · exact completes_act trivial fun r => loaded_narrates _ _ r
  · rfl

/-- What a worker does goes with the chapter it is at. -/
def Recounts (w : Worker) (x : Chapter) : Doing → Prop
  | .at p => Narrates w x p
  | .waiting _ op next => (narration w).allows x (.store op) ∧ ∀ r, Narrates w x (next r)
  | .running job next => x = .running job ∧ ∀ answer, Narrates w (.ran job answer) (next answer)

theorem narrates_store {x : Chapter} {op : StoreOp} {next : Reply → Process}
    (h : Narrates w x (.act (.store op) next)) :
    (narration w).allows x (.store op) ∧ ∀ r, Narrates w x (next r) := by
  obtain ⟨ha, hn⟩ := h
  cases x with
  | away | finished => exact ⟨ha, hn⟩
  | _ => exact ha.elim

/-! ## The story of a run -/

/-- All that is published of a run, in order. -/
def story (w : Worker) (runner : RunnerScript) (job : RunJob) : List ProgressEvent :=
  .status .running :: (runner job).1 ++ [.status (w.outcome job (runner job).2)]

/-- What was published at the chapter, `n` of it by the runner. -/
def Said (w : Worker) (runner : RunnerScript) (n : Nat) : Chapter → List ProgressEvent → Prop
  | .away, _ => True
  | .opened _, sent => sent = []
  | .begun _, sent => sent = [.status .running]
  | .running job, sent => sent = .status .running :: (runner job).1.take n
  | .ran job answer, sent => sent = .status .running :: (runner job).1 ∧ answer = (runner job).2
  | .finished job _, sent => sent = story w runner job

/-- What was published of the run is a part of its story. -/
inductive Part (ws : Nat → Worker) (runner : RunnerScript) (log : List Event) (runId : Uuid)
    (sent : List ProgressEvent) : Prop
  | opening : sent <+: [.status .running] → Part ws runner log runId sent
  | story (k : Nat) (job : RunJob) : .invoked k job ∈ log → job.runId = runId → sent <+: story (ws k) runner job →
      Part ws runner log runId sent

theorem Part.mono {log log' : List Event} (hlog : ∀ e, e ∈ log → e ∈ log') {runId : Uuid}
    {sent : List ProgressEvent} (h : Part ws runner log runId sent) : Part ws runner log' runId sent := by
  cases h with
  | opening h => exact .opening h
  | story k job hm hrun h => exact .story k job (hlog _ hm) hrun h

/-! ## The channels -/

/-- Channel `c` is that of run `owner c`, and has a part of its story; worker `k`'s has what
    is published at `chapter k`. -/
structure Narrated (ws : Nat → Worker) (runner : RunnerScript) (log : List Event) (hub : ProgressHub)
    (told : Nat → Nat) (chapter : Nat → Chapter) (owner : Nat → Uuid) : Prop where
  publisher : ∀ k runId, (chapter k).run = some runId → ∃ c, hub.publishers k = some c ∧ owner c = runId ∧
    Said (ws k) runner (told k) (chapter k) (hub.broadcasts c).sent
  invoked : ∀ k job, (chapter k).job = some job → .invoked k job ∈ log
  resting : ∀ k, (∀ job, chapter k ≠ .running job) → told k = 0
  alone : ∀ k k' c, hub.publishers k = some c → hub.publishers k' = some c → k = k'
  channel : ∀ runId c, hub.channels runId = some c → owner c = runId
  part : ∀ c < hub.opened, Part ws runner log (owner c) (hub.broadcasts c).sent

section hub
variable {hub : ProgressHub} {told : Nat → Nat} {chapter : Nat → Chapter} {owner : Nat → Uuid}
  {log log' : List Event} {k c : Nat} {runId : Uuid}

theorem Narrated.later (h : Narrated ws runner log hub told chapter owner) (hlog : ∀ e, e ∈ log → e ∈ log') :
    Narrated ws runner log' hub told chapter owner where
  publisher := h.publisher
  invoked k job hj := hlog _ (h.invoked k job hj)
  resting := h.resting
  alone := h.alone
  channel := h.channel
  part c hc := (h.part c hc).mono hlog

/-- Worker `k`, whose channel is `c`, goes on to chapter `x`, with `ch` published. -/
theorem narrated_setChannel (h : Narrated ws runner log hub told chapter owner) (hlog : ∀ e, e ∈ log → e ∈ log')
    (hk : hub.publishers k = some c) {ch : Channel ProgressEvent} {x : Chapter} {n : Nat}
    (hrun : x.run = some (owner c)) (hsaid : Said (ws k) runner n x ch.sent)
    (hjob : ∀ job, x.job = some job → .invoked k job ∈ log') (hrest : (∀ job, x ≠ .running job) → n = 0)
    (hpart : Part ws runner log' (owner c) ch.sent) :
    Narrated ws runner log' (hub.setChannel c ch) (Function.update told k n) (Function.update chapter k x) owner where
  publisher k' r hr := by
    by_cases e : k' = k
    · subst e
      rw [Function.update_self] at hr ⊢
      rw [hrun] at hr
      cases hr
      exact ⟨c, hk, rfl, by rw [Function.update_self, setChannel_self]; exact hsaid⟩
    · rw [Function.update_of_ne e] at hr ⊢
      obtain ⟨c', hc', ho, hs⟩ := h.publisher k' r hr
      have hne : c' ≠ c := fun e' => e (h.alone k' k c (e' ▸ hc') hk)
      exact ⟨c', hc', ho, by rw [Function.update_of_ne e, setChannel_ne hne]; exact hs⟩
  invoked k' job hj := by
    by_cases e : k' = k
    · subst e
      rw [Function.update_self] at hj
      exact hjob job hj
    · rw [Function.update_of_ne e] at hj
      exact hlog _ (h.invoked k' job hj)
  resting k' hx := by
    by_cases e : k' = k
    · subst e
      rw [Function.update_self] at hx ⊢
      exact hrest hx
    · rw [Function.update_of_ne e] at hx ⊢
      exact h.resting k' hx
  alone := h.alone
  channel := h.channel
  part c' hc' := by
    by_cases e : c' = c
    · rw [e, setChannel_self]
      exact hpart
    · rw [setChannel_ne e]
      exact (h.part c' hc').mono hlog

/-- The worker goes on to a chapter with nothing published. -/
theorem narrated_goto (h : Narrated ws runner log hub told chapter owner) (hlog : ∀ e, e ∈ log → e ∈ log')
    (hnum : Numbered hub) (hk : hub.publishers k = some c) {x : Chapter} {n : Nat} (hrun : x.run = some (owner c))
    (hsaid : Said (ws k) runner n x (hub.broadcasts c).sent) (hjob : ∀ job, x.job = some job → .invoked k job ∈ log')
    (hrest : (∀ job, x ≠ .running job) → n = 0) :
    Narrated ws runner log' hub (Function.update told k n) (Function.update chapter k x) owner := by
  have hsame : hub.setChannel c (hub.broadcasts c) = hub := by
    rw [ProgressHub.setChannel, Function.update_eq_self]
  have hnew := narrated_setChannel h hlog hk hrun hsaid hjob hrest
    ((h.part c (hnum.publisher k c hk)).mono hlog)
  rwa [hsame] at hnew

/-- The worker publishes. -/
theorem narrated_emit (h : Narrated ws runner log hub told chapter owner) (hlog : ∀ e, e ∈ log → e ∈ log')
    (hk : hub.publishers k = some c) (event : ProgressEvent) {x : Chapter} {n : Nat} (hrun : x.run = some (owner c))
    (hsaid : Said (ws k) runner n x ((hub.broadcasts c).sent ++ [event]))
    (hjob : ∀ job, x.job = some job → .invoked k job ∈ log') (hrest : (∀ job, x ≠ .running job) → n = 0)
    (hpart : Part ws runner log' (owner c) ((hub.broadcasts c).sent ++ [event])) :
    Narrated ws runner log' (hub.emit k event) (Function.update told k n) (Function.update chapter k x) owner := by
  rw [emit_eq hk]
  exact narrated_setChannel h hlog hk hrun hsaid hjob hrest hpart

/-- A new channel is opened, for the run. -/
theorem narrated_publisher (h : Narrated ws runner log hub told chapter owner) (hnum : Numbered hub)
    (hnone : hub.channels runId = none) (haway : chapter k = .away) :
    Narrated ws runner log (hub.publisher k runId) told (Function.update chapter k (.opened runId))
      (Function.update owner hub.opened runId) := by
  have hold : ∀ c, c < hub.opened → Function.update owner hub.opened runId c = owner c := fun c hc =>
    Function.update_of_ne (Nat.ne_of_lt hc) ..
  have hpub : ∀ k' c, Function.update hub.publishers k (some hub.opened) k' = some c →
      (k' = k ∧ c = hub.opened) ∨ (k' ≠ k ∧ hub.publishers k' = some c) := by
    intro k' c hc
    by_cases e : k' = k
    · rw [e, Function.update_self] at hc
      exact Or.inl ⟨e, (Option.some.inj hc).symm⟩
    · rw [Function.update_of_ne e] at hc
      exact Or.inr ⟨e, hc⟩
  have hnew : (Function.update hub.broadcasts hub.opened ⟨[], 2⟩ hub.opened).sent = [] :=
    congrArg Channel.sent (Function.update_self hub.opened _ hub.broadcasts)
  rw [publisher_eq hnone]
  refine ⟨fun k' r hr => ?_, fun k' job hj => ?_, fun k' hx => ?_, fun k1 k2 c h1 h2 => ?_, fun r c hr => ?_,
    fun c hc => ?_⟩
  · by_cases e : k' = k
    · subst e
      rw [Function.update_self] at hr ⊢
      cases hr
      exact ⟨hub.opened, Function.update_self .., Function.update_self .., hnew⟩
    · rw [Function.update_of_ne e] at hr ⊢
      obtain ⟨c, hc, ho, hs⟩ := h.publisher k' r hr
      have hlt := hnum.publisher k' c hc
      refine ⟨c, (Function.update_of_ne e ..).trans hc, (hold c hlt).trans ho, ?_⟩
      dsimp only
      rw [Function.update_of_ne (Nat.ne_of_lt hlt)]
      exact hs
  · by_cases e : k' = k
    · rw [e, Function.update_self] at hj
      cases hj
    · rw [Function.update_of_ne e] at hj
      exact h.invoked k' job hj
  · by_cases e : k' = k
    · exact h.resting k' fun job => by simp [e, haway]
    · rw [Function.update_of_ne e] at hx
      exact h.resting k' hx
  · rcases hpub k1 c h1 with ⟨e1, hc1⟩ | ⟨e1, hc1⟩ <;> rcases hpub k2 c h2 with ⟨e2, hc2⟩ | ⟨e2, hc2⟩
    · rw [e1, e2]
    · exact absurd hc1 (Nat.ne_of_lt (hnum.publisher k2 c hc2))
    · exact absurd hc2 (Nat.ne_of_lt (hnum.publisher k1 c hc1))
    · exact h.alone k1 k2 c hc1 hc2
  · dsimp only at hr
    by_cases e : r = runId
    · rw [e, Function.update_self] at hr
      cases hr
      rw [Function.update_self, e]
    · rw [Function.update_of_ne e] at hr
      rw [hold c (hnum.channel r c hr)]
      exact h.channel r c hr
  · rcases Nat.lt_or_eq_of_le (Nat.le_of_lt_succ hc) with hlt | rfl
    · dsimp only
      rw [hold c hlt, Function.update_of_ne (Nat.ne_of_lt hlt)]
      exact h.part c hlt
    · refine .opening ?_
      dsimp only
      rw [hnew]
      exact List.nil_prefix

/-- The worker closes its channel, and what was published on it stays. -/
theorem narrated_close (h : Narrated ws runner log hub told chapter owner) (hlog : ∀ e, e ∈ log → e ∈ log')
    (hrest : told k = 0) (runId : Uuid) :
    Narrated ws runner log' (hub.close k runId) told (Function.update chapter k .away) owner := by
  have hpub : ∀ k' c, (hub.close k runId).publishers k' = some c → k' ≠ k ∧ hub.publishers k' = some c := by
    intro k' c hc
    simp only [ProgressHub.close] at hc
    by_cases e : k' = k
    · rw [e, Function.update_self] at hc
      cases hc
    · rw [Function.update_of_ne e] at hc
      exact ⟨e, hc⟩
  refine ⟨fun k' r hr => ?_, fun k' job hj => ?_, fun k' hx => ?_, fun k1 k2 c h1 h2 => ?_, fun r c hr => ?_,
    fun c hc => ?_⟩
  · by_cases e : k' = k
    · rw [e, Function.update_self] at hr
      cases hr
    · rw [Function.update_of_ne e] at hr ⊢
      obtain ⟨c, hc, ho, hs⟩ := h.publisher k' r hr
      exact ⟨c, (Function.update_of_ne e ..).trans hc, ho, by rw [sent_close]; exact hs⟩
  · by_cases e : k' = k
    · rw [e, Function.update_self] at hj
      cases hj
    · rw [Function.update_of_ne e] at hj
      exact hlog _ (h.invoked k' job hj)
  · by_cases e : k' = k
    · rw [e]
      exact hrest
    · rw [Function.update_of_ne e] at hx
      exact h.resting k' hx
  · exact h.alone k1 k2 c (hpub k1 c h1).2 (hpub k2 c h2).2
  · simp only [ProgressHub.close] at hr
    by_cases e : r = runId
    · rw [e, Function.update_self] at hr
      cases hr
    · rw [Function.update_of_ne e] at hr
      exact h.channel r c hr
  · rw [close_opened] at hc
    rw [sent_close]
    exact (h.part c hc).mono hlog

end hub

end SoroFuzz.Queue
