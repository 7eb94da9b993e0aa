/-
  SoroFuzz.Queue.Live — the live streams of runs (`worker/progress.rs`, `api/stream.rs`).

  One server process: its workers (`World`), its progress hub, and the requests
  `GET /runs/{id}/stream` it serves, each of which reads the run, subscribes, and then
  receives, one step at a time.

  A channel's senders are the hub's and those of the publishers that `process` holds. The
  clone the runner gets is dropped before they are. `close` is the last thing `process`
  does: its own publisher goes with it.

  Not modeled: a request whose `get_run` fails, the timestamp of a `log` event, and
  keep-alive comments, which are no events.
-/

import SoroFuzz.Lib.Broadcast
import SoroFuzz.Queue.World
import SoroFuzz.Store.Read

namespace SoroFuzz.Queue

open SoroFuzz.Store
open Lib.Process
open Lib.Broadcast

/-- `CHANNEL_CAPACITY` -/
def channelCapacity : Nat := 256

/-- A terminal status is published. -/
def ProgressEvent.terminal : ProgressEvent → Bool
  | .status st => st.isTerminal
  | .iterations _ _ | .log _ _ | .finding _ _ => false

def logLevelStr : LogLevel → String
  | .info => "info"
  | .warn => "warn"
  | .error => "error"

inductive SseEvent where
  | progress (iterations elapsedSecs : Nat) (status : RunStatus)
  | log (line level : String)
  | finding (findingId invariant : String) (stepIndex : Nat)
  | status (status : RunStatus)
  deriving DecidableEq, Repr

/-- Where a request is, with the events delivered so far. -/
inductive StreamState where
  | idle
  | notFound
  | found (runId : Uuid) (initialStatus : RunStatus)
  | live (channel next : Nat) (lastStatus : RunStatus) (out : List SseEvent)
  | ended (out : List SseEvent)

def StreamState.delivered : StreamState → List SseEvent
  | .live _ _ _ out | .ended out => out
  | .idle | .notFound | .found _ _ => []

/-- The arms of the loop's `match receiver.recv().await`. -/
def StreamState.received (channel next : Nat) (lastStatus : RunStatus) (out : List SseEvent) :
    Got ProgressEvent → StreamState
  | .ok (.iterations count elapsedSecs) =>
    .live channel next lastStatus (out ++ [.progress count elapsedSecs lastStatus])
  | .ok (.log line level) => .live channel next lastStatus (out ++ [.log line (logLevelStr level)])
  | .ok (.finding invariant stepIndex) => .live channel next lastStatus (out ++ [.finding "" invariant stepIndex])
  | .ok (.status status) =>
    if status.isTerminal then .ended (out ++ [.status status]) else .live channel next status (out ++ [.status status])
  | .lagged _ => .live channel next lastStatus out
  | .closed => .ended out

/-! ## worker/progress.rs -/

/-- `ProgressHub`, with every channel there has been. -/
structure ProgressHub where
  broadcasts : Nat → Channel ProgressEvent
  /-- Channels are numbered in the order they are made. -/
  opened : Nat
  channels : Uuid → Option Nat
  /-- The channel of the publisher that worker `k`'s `process` holds. -/
  publishers : Nat → Option Nat

namespace ProgressHub

def init : ProgressHub := ⟨fun _ => ⟨[], 0⟩, 0, fun _ => none, fun _ => none⟩

def setChannel (hub : ProgressHub) (c : Nat) (ch : Channel ProgressEvent) : ProgressHub :=
  { hub with broadcasts := Function.update hub.broadcasts c ch }

/-- `publisher(run_id)`, called by worker `k`. -/
def publisher (hub : ProgressHub) (k : Nat) (runId : Uuid) : ProgressHub :=
  match hub.channels runId with
  | some c =>
    { hub.setChannel c { hub.broadcasts c with senders := (hub.broadcasts c).senders + 1 } with
      publishers := Function.update hub.publishers k (some c) }
  | none =>
    { broadcasts := Function.update hub.broadcasts hub.opened ⟨[], 2⟩
      opened := hub.opened + 1
      channels := Function.update hub.channels runId (some hub.opened)
      publishers := Function.update hub.publishers k (some hub.opened) }

/-- `ProgressPublisher::emit`, on worker `k`'s publisher. -/
def emit (hub : ProgressHub) (k : Nat) (event : ProgressEvent) : ProgressHub :=
  match hub.publishers k with
  | some c => hub.setChannel c ((hub.broadcasts c).send event)
  | none => hub

def dropSender (hub : ProgressHub) : Option Nat → ProgressHub
  | some c => hub.setChannel c { hub.broadcasts c with senders := (hub.broadcasts c).senders - 1 }
  | none => hub

/-- `close(run_id)`, and worker `k`'s return from `process`. -/
def close (hub : ProgressHub) (k : Nat) (runId : Uuid) : ProgressHub :=
  { (hub.dropSender (hub.channels runId)).dropSender (hub.publishers k) with
    channels := Function.update hub.channels runId none
    publishers := Function.update hub.publishers k none }

/-- What worker `k` does to the hub when it goes on from where it is. -/
def hear (hub : ProgressHub) (k : Nat) : Doing → ProgressHub
  | .at (.act (.publisher runId) _) => hub.publisher k runId
  | .at (.act (.emit _ event) _) => hub.emit k event
  | .at (.act (.close runId) _) => hub.close k runId
  | _ => hub

end ProgressHub

/-! ## The server -/

structure Live where
  world : World
  progress : ProgressHub
  streams : Nat → StreamState

inductive LiveAct where
  | world (a : Act)
  /-- Worker `k`'s runner publishes: anything but a terminal status. -/
  | publish (k : Nat) (event : ProgressEvent)
  | request (i : Nat) (runId : Uuid)
  | subscribe (i : Nat)
  | recv (i : Nat)

namespace Live

def init : Live := ⟨World.init, .init, fun _ => .idle⟩

def setStream (s : Live) (i : Nat) (st : StreamState) : Live :=
  { s with streams := Function.update s.streams i st }

/-- What a step of the workers does to the hub. -/
def heard (s : Live) : Act → ProgressHub
  | .proceed k => s.progress.hear k (s.world.workers k)
  | _ => s.progress

variable (ws : Nat → Worker)

def step (s : Live) : LiveAct → Option Live
  | .world a => (World.step ws s.world a).map fun world => { s with world, progress := s.heard a }
  | .publish k event =>
    match s.world.workers k with
    | .running _ _ => if event.terminal then none else some { s with progress := s.progress.emit k event }
    | _ => none
  | .request i runId =>
    match s.streams i with
    | .idle =>
      match getRun s.world.pg.db s.world.pg.now runId with
      | some record => some (s.setStream i (.found runId record.status))
      | none => some (s.setStream i .notFound)
    | _ => none
  | .subscribe i =>
    match s.streams i with
    | .found runId initialStatus =>
      match s.progress.channels runId with
      | some c => some (s.setStream i (.live c (s.progress.broadcasts c).subscribe initialStatus []))
      | none => some (s.setStream i (.ended [.status initialStatus]))
    | _ => none
  | .recv i =>
    match s.streams i with
    | .live c next lastStatus out => ((s.progress.broadcasts c).recv channelCapacity next).map fun (got, next) =>
        s.setStream i (.received c next lastStatus out got)
    | _ => none

/-- The runs whose every step is one that `p` lets through. -/
inductive Run (p : Live → LiveAct → Bool) : Live → Prop
  | init : Run p init
  | step {s s' : Live} (a : LiveAct) : Run p s → p s a = true → step ws s a = some s' → Run p s'

def play (p : Live → LiveAct → Bool) (s : Live) : List LiveAct → Option Live
  | [] => some s
  | a :: as => if p s a then (step ws s a).bind fun s' => play p s' as else none

variable {ws}

theorem play_run {p : Live → LiveAct → Bool} : ∀ {as : List LiveAct} {s s' : Live}, Run ws p s →
    play ws p s as = some s' → Run ws p s' := by
  intro as
  induction as with
  | nil => intro s s' h hp; cases hp; exact h
  | cons a as ih =>
    intro s s' h hp
    simp only [play] at hp
    split at hp
    · rename_i ha
      obtain ⟨s1, h1, h2⟩ := Option.bind_eq_some_iff.mp hp
      exact ih (.step a h ha h1) h2
    · cases hp

/-- What one step does, whichever action it is. -/
inductive Stepped (ws : Nat → Worker) (s : Live) : LiveAct → Live → Prop
  | world (a : Act) (world : World) : World.step ws s.world a = some world →
      Stepped ws s (.world a) { s with world, progress := s.heard a }
  | publish (k : Nat) (event : ProgressEvent) (job : RunJob) (next : Except RunnerError RunResult → Process) :
      s.world.workers k = .running job next → event.terminal = false →
      Stepped ws s (.publish k event) { s with progress := s.progress.emit k event }
  | notFound (i : Nat) (runId : Uuid) : s.streams i = .idle → getRun s.world.pg.db s.world.pg.now runId = none →
      Stepped ws s (.request i runId) (s.setStream i .notFound)
  | found (i : Nat) (runId : Uuid) (record : RunRecord) : s.streams i = .idle →
      getRun s.world.pg.db s.world.pg.now runId = some record →
      Stepped ws s (.request i runId) (s.setStream i (.found runId record.status))
  | subscribed (i : Nat) (runId : Uuid) (st : RunStatus) (c : Nat) : s.streams i = .found runId st →
      s.progress.channels runId = some c →
      Stepped ws s (.subscribe i) (s.setStream i (.live c (s.progress.broadcasts c).subscribe st []))
  | missed (i : Nat) (runId : Uuid) (st : RunStatus) : s.streams i = .found runId st →
      s.progress.channels runId = none →
      Stepped ws s (.subscribe i) (s.setStream i (.ended [.status st]))
  | recv (i c next next' : Nat) (st : RunStatus) (out : List SseEvent) (got : Got ProgressEvent) :
      s.streams i = .live c next st out → (s.progress.broadcasts c).recv channelCapacity next = some (got, next') →
      Stepped ws s (.recv i) (s.setStream i (.received c next' st out got))

theorem step_cases {s s' : Live} {a : LiveAct} (h : step ws s a = some s') : Stepped ws s a s' := by
  cases a with
  | world a =>
    obtain ⟨world, hw, rfl⟩ := Option.map_eq_some_iff.mp h
    exact .world a world hw
  | publish k event =>
    simp only [step] at h
    split at h
    · rename_i job next hk
      split at h
      · cases h
      · rename_i ht
        cases h
        exact .publish k event job next hk (by simpa using ht)
    · cases h
  | request i runId =>
    simp only [step] at h
    split at h
    · rename_i hi
      split at h
      · rename_i record hr
        cases h
        exact .found i runId record hi hr
      · rename_i hr
        cases h
        exact .notFound i runId hi hr
    · cases h
  | subscribe i =>
    simp only [step] at h
    split at h
    · rename_i runId st hi
      split at h
      · rename_i c hc
        cases h
        exact .subscribed i runId st c hi hc
      · rename_i hnone
        cases h
        exact .missed i runId st hi hnone
    · cases h
  | recv i =>
    simp only [step] at h
    split at h
    · rename_i c next st out hi
      obtain ⟨⟨got, next'⟩, hr, rfl⟩ := Option.map_eq_some_iff.mp h
      exact .recv i c next next' st out got hi hr
    · cases h

/-- A run whose steps meet a condition meets any weaker one. -/
theorem Run.mono {p q : Live → LiveAct → Bool} (hpq : ∀ s a, p s a = true → q s a = true) {s : Live}
    (h : Run ws p s) : Run ws q s := by
  induction h with
  | init => exact .init
  | step a _ ha hs ih => exact .step a ih (hpq _ a ha) hs

theorem run_world {p : Live → LiveAct → Bool} {s : Live} (h : Run ws p s) : World.Reach ws s.world := by
  induction h with
  | init => exact .init
  | step a _ _ hs ih =>
    cases step_cases hs with
    | world a world hw => exact .step a ih hw
    | _ => exact ih

/-- What a step of the workers does to one of them, and to the hub. -/
inductive Turn (ws : Nat → Worker) (s : Live) (world : World) : ProgressHub → Prop
  | still : world.workers = s.world.workers → Turn ws s world s.progress
  | poll (k : Nat) : s.world.workers k = .at .ret →
      world.workers = Function.update s.world.workers k (.at (ws k).runLoop) → Turn ws s world s.progress
  | call (k tx : Nat) (op : StoreOp) (next : Reply → Process) : s.world.workers k = .at (.act (.store op) next) →
      world.workers = Function.update s.world.workers k (.waiting tx op next) → Turn ws s world s.progress
  | reply (k : Nat) (op : StoreOp) (next : Reply → Process) (r : Reply) :
    (s.world.workers k = .at (.act (.store op) next) ∨ ∃ tx, s.world.workers k = .waiting tx op next) →
      world.workers = Function.update s.world.workers k (.at (next r)) → Turn ws s world s.progress
  | publisher (k : Nat) (runId : Uuid) (next : Unit → Process) :
    s.world.workers k = .at (.act (.publisher runId) next) →
      world.workers = Function.update s.world.workers k (.at (next ())) →
      Turn ws s world (s.progress.publisher k runId)
  | emit (k : Nat) (runId : Uuid) (event : ProgressEvent) (next : Unit → Process) :
    s.world.workers k = .at (.act (.emit runId event) next) →
      world.workers = Function.update s.world.workers k (.at (next ())) → Turn ws s world (s.progress.emit k event)
  | close (k : Nat) (runId : Uuid) (next : Unit → Process) : s.world.workers k = .at (.act (.close runId) next) →
      world.workers = Function.update s.world.workers k (.at (next ())) → Turn ws s world (s.progress.close k runId)
  | run (k : Nat) (job : RunJob) (next : Except RunnerError RunResult → Process) :
    s.world.workers k = .at (.act (.run job) next) →
      world.workers = Function.update s.world.workers k (.running job next) → Turn ws s world s.progress
  | answer (k : Nat) (job : RunJob) (next : Except RunnerError RunResult → Process) (a : Except RunnerError RunResult) :
    s.world.workers k = .running job next →
      world.workers = Function.update s.world.workers k (.at (next a)) → Turn ws s world s.progress

theorem turn_of_step {s : Live} {a : Act} {world : World} (h : World.step ws s.world a = some world) :
    Turn ws s world (s.heard a) := by
  cases a with
  | pg a =>
    cases a with
    | start => cases h
    | tick =>
      cases h
      exact .still rfl
    | _ =>
      obtain ⟨pg, -, rfl⟩ := Option.map_eq_some_iff.mp h
      exact .still rfl
  | api call =>
    simp only [World.step] at h
    split at h
    · obtain ⟨pg, -, rfl⟩ := Option.map_eq_some_iff.mp h
      exact .still rfl
    · cases h
  | poll k =>
    simp only [World.step] at h
    split at h
    · rename_i hk
      cases h
      exact .poll k hk rfl
    · cases h
  | call k tie ids =>
    simp only [World.step] at h
    split at h
    · rename_i op next hk
      obtain ⟨s1, hs1, rfl⟩ := Option.map_eq_some_iff.mp h
      obtain ⟨pg, -, rfl⟩ := Option.map_eq_some_iff.mp hs1
      exact .call k _ op next hk rfl
    · cases h
  | reply k =>
    simp only [World.step] at h
    split at h
    · rename_i tx op next hk
      obtain ⟨r, -, rfl⟩ := Option.map_eq_some_iff.mp h
      exact .reply k op next r (Or.inr ⟨tx, hk⟩) rfl
    · cases h
  | fail k =>
    simp only [World.step] at h
    split at h
    · rename_i op next hk
      cases h
      exact .reply k op next .error (Or.inl hk) rfl
    · rename_i tx op next hk
      cases h
      exact .reply k op next .error (Or.inr ⟨tx, hk⟩) rfl
    · cases h
  | proceed k =>
    simp only [World.step] at h
    split at h <;> rename_i hk <;> cases h <;> simp only [heard, hk, ProgressHub.hear]
    · exact .publisher k _ _ hk rfl
    · exact .emit k _ _ _ hk rfl
    · exact .close k _ _ hk rfl
    · exact .run k _ _ hk rfl
  | answer k answer =>
    simp only [World.step] at h
    split at h
    · rename_i job next hk
      cases h
      exact .answer k job next answer hk rfl
    · cases h

end Live

/-! ## Channels only grow -/

/-- No channel is dropped, and no event is taken back. -/
structure Grows (hub hub' : ProgressHub) : Prop where
  opened : hub.opened ≤ hub'.opened
  sent : ∀ c < hub.opened, (hub.broadcasts c).sent <+: (hub'.broadcasts c).sent

/-- The numbers in the hub are those of channels it made. -/
structure Numbered (hub : ProgressHub) : Prop where
  channel : ∀ runId c, hub.channels runId = some c → c < hub.opened
  publisher : ∀ k c, hub.publishers k = some c → c < hub.opened

section hub
variable {hub : ProgressHub}

theorem Grows.refl (hub : ProgressHub) : Grows hub hub := ⟨Nat.le_refl _, fun _ _ => List.prefix_refl _⟩

theorem setChannel_self (c : Nat) (ch : Channel ProgressEvent) : (hub.setChannel c ch).broadcasts c = ch :=
  Function.update_self ..

theorem setChannel_ne {c c' : Nat} (h : c' ≠ c) (ch : Channel ProgressEvent) :
    (hub.setChannel c ch).broadcasts c' = hub.broadcasts c' := Function.update_of_ne h ..

/-- Senders come and go, and what was sent stays. -/
theorem sent_setChannel (c senders c' : Nat) :
    ((hub.setChannel c { hub.broadcasts c with senders }).broadcasts c').sent = (hub.broadcasts c').sent := by
  by_cases e : c' = c
  · rw [e, setChannel_self]
  · rw [setChannel_ne e]

theorem sent_dropSender (c : Option Nat) (c' : Nat) :
    ((hub.dropSender c).broadcasts c').sent = (hub.broadcasts c').sent := by
  unfold ProgressHub.dropSender
  split
  · exact sent_setChannel _ _ c'
  · rfl

theorem sent_close (k : Nat) (runId : Uuid) (c : Nat) :
    ((hub.close k runId).broadcasts c).sent = (hub.broadcasts c).sent :=
  (sent_dropSender _ c).trans (sent_dropSender _ c)

theorem grows_publisher (k : Nat) (runId : Uuid) : Grows hub (hub.publisher k runId) := by
  unfold ProgressHub.publisher
  split
  · rename_i c hc
    exact ⟨Nat.le_refl _, fun c' _ => (sent_setChannel _ _ c').symm ▸ List.prefix_rfl⟩
  · refine ⟨Nat.le_succ _, fun c hc => ?_⟩
    dsimp only
    rw [Function.update_of_ne (Nat.ne_of_lt hc)]

theorem grows_emit (k : Nat) (event : ProgressEvent) : Grows hub (hub.emit k event) := by
  unfold ProgressHub.emit
  split
  · rename_i c hc
    refine ⟨Nat.le_refl _, fun c' _ => ?_⟩
    by_cases e : c' = c
    · rw [e, setChannel_self]
      exact List.prefix_append _ _
    · rw [setChannel_ne e]
  · exact .refl hub

theorem numbered_publisher (h : Numbered hub) (k : Nat) (runId : Uuid) : Numbered (hub.publisher k runId) := by
  unfold ProgressHub.publisher
  split
  · rename_i c hc
    refine ⟨h.channel, (Function.forall_update_iff _ fun _ x => ∀ c', x = some c' → c' < hub.opened).mpr
      ⟨fun c' hc' => ?_, fun k' _ => h.publisher k'⟩⟩
    cases hc'
    exact h.channel runId c hc
  · have hnew : ∀ c, some hub.opened = some c → c < hub.opened + 1 := by
      intro c hc
      cases hc
      exact Nat.lt_succ_self _
    have hold : ∀ c, c < hub.opened → c < hub.opened + 1 := fun c => Nat.lt_succ_of_lt
    exact ⟨(Function.forall_update_iff _ fun _ x => ∀ c, x = some c → c < hub.opened + 1).mpr
        ⟨hnew, fun r _ c hr => hold c (h.channel r c hr)⟩,
      (Function.forall_update_iff _ fun _ x => ∀ c, x = some c → c < hub.opened + 1).mpr
        ⟨hnew, fun k' _ c hk => hold c (h.publisher k' c hk)⟩⟩

@[simp] theorem emit_opened (k : Nat) (event : ProgressEvent) : (hub.emit k event).opened = hub.opened := by
  unfold ProgressHub.emit
  split <;> rfl

@[simp] theorem emit_channels (k : Nat) (event : ProgressEvent) : (hub.emit k event).channels = hub.channels := by
  unfold ProgressHub.emit
  split <;> rfl

@[simp] theorem emit_publishers (k : Nat) (event : ProgressEvent) : (hub.emit k event).publishers = hub.publishers := by
  unfold ProgressHub.emit
  split <;> rfl

@[simp] theorem dropSender_opened (c : Option Nat) : (hub.dropSender c).opened = hub.opened := by
  unfold ProgressHub.dropSender
  split <;> rfl

theorem numbered_emit (h : Numbered hub) (k : Nat) (event : ProgressEvent) : Numbered (hub.emit k event) :=
  ⟨by simpa using h.channel, by simpa using h.publisher⟩

@[simp] theorem close_opened (k : Nat) (runId : Uuid) : (hub.close k runId).opened = hub.opened := by
  simp [ProgressHub.close]

theorem grows_close (k : Nat) (runId : Uuid) : Grows hub (hub.close k runId) :=
  ⟨Nat.le_of_eq (close_opened k runId).symm, fun c _ => by rw [sent_close]⟩

theorem numbered_close (h : Numbered hub) (k : Nat) (runId : Uuid) : Numbered (hub.close k runId) := by
  have hnone : ∀ c, none = some c → c < hub.opened := fun c hc => by cases hc
  refine ⟨?_, ?_⟩
  · simp only [ProgressHub.close, dropSender_opened]
    exact (Function.forall_update_iff _ fun _ x => ∀ c, x = some c → c < hub.opened).mpr
      ⟨hnone, fun r _ => h.channel r⟩
  · simp only [ProgressHub.close, dropSender_opened]
    exact (Function.forall_update_iff _ fun _ x => ∀ c, x = some c → c < hub.opened).mpr
      ⟨hnone, fun k' _ => h.publisher k'⟩

end hub

/-- What holds of each index still does when both functions change at one, and it holds of the new values. -/
theorem forall_update₂ {α β : Type} {p : α → β → Prop} {f : Nat → α} {g : Nat → β} (h : ∀ k, p (f k) (g k)) {i : Nat}
    {x : α} {y : β} (hxy : p x y) (k : Nat) : p (Function.update f i x k) (Function.update g i y k) := by
  by_cases e : k = i
  · rw [e, Function.update_self, Function.update_self]
    exact hxy
  · rw [Function.update_of_ne e, Function.update_of_ne e]
    exact h k

namespace Live

variable {ws : Nat → Worker} {s s' : Live}

/-- What holds of every stream still does when one goes on to where it holds. -/
theorem all_setStream {p : StreamState → Prop} (h : ∀ j, p (s.streams j)) {i : Nat} {x : StreamState} (hx : p x)
    (j : Nat) : p ((s.setStream i x).streams j) :=
  (Function.forall_update_iff s.streams fun _ y => p y).mpr ⟨hx, fun j _ => h j⟩ j

theorem Turn.grows {world : World} {hub : ProgressHub} (h : Turn ws s world hub) : Grows s.progress hub := by
  cases h with
  | publisher k runId => exact grows_publisher k runId
  | emit k _ event => exact grows_emit k event
  | close k runId => exact grows_close k runId
  | _ => exact .refl _

theorem Turn.numbered {world : World} {hub : ProgressHub} (h : Turn ws s world hub) (hn : Numbered s.progress) :
    Numbered hub := by
  cases h with
  | publisher k runId => exact numbered_publisher hn k runId
  | emit k _ event => exact numbered_emit hn k event
  | close k runId => exact numbered_close hn k runId
  | _ => exact hn

theorem numbered_run {p : Live → LiveAct → Bool} (h : Run ws p s) : Numbered s.progress := by
  induction h with
  | init => exact ⟨fun _ _ h => (by cases h), fun _ _ h => (by cases h)⟩
  | step a _ _ hs ih =>
    cases step_cases hs with
    | world a world hw => exact (turn_of_step hw).numbered ih
    | publish k event => exact numbered_emit ih k event
    | _ => exact ih

/-- The server without its streams, which only watch. -/
def unwatched (s : Live) : Live := { s with streams := fun _ => .idle }

/-- The workers and the hub go on as if there were no streams. -/
theorem run_unwatched {p q : Live → LiveAct → Bool} (hq : ∀ s a, q s (.world a) = true)
    (hq' : ∀ s k event, q s (.publish k event) = true) (h : Run ws p s) : Run ws q s.unwatched := by
  induction h with
  | init => exact .init
  | step a _ _ hs ih =>
    cases step_cases hs with
    | world a world hw => exact .step (.world a) ih (hq _ a) (Option.map_eq_some_iff.mpr ⟨world, hw, rfl⟩)
    | publish k event job next hk ht =>
      refine .step (.publish k event) ih (hq' _ k event) ?_
      simp only [step, unwatched, hk, ht]
      rfl
    | _ => exact ih

end Live

end SoroFuzz.Queue
