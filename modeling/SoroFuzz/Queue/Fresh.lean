/-
  SoroFuzz.Queue.Fresh — the news on which a live stream ends.

  A request reads the run's status, and then subscribes. A worker starts the run before
  it opens the channel, and publishes the terminal status before it closes it. So no
  channel does not mean that the status read is still the run's, and a channel does not
  mean that there is a terminal status to come.

  Proved:
  - `fresh_while_timely`: a stream that ended delivered a terminal status last, or the
    Pending status it read, as long as no request subscribes to a channel on which the
    terminal status is out, or finds no channel when it read that the run was running.
  - `fresh_early_reader`: without that one may end on Running.
-/

import SoroFuzz.Queue.Custody
import SoroFuzz.Queue.Live

namespace SoroFuzz.Queue

open SoroFuzz.Store
open Lib.Process
open Lib.Broadcast

/-! ## A worker's use of the hub -/

/-- What a worker has in hand of a run's channel. -/
inductive Hand where
  | away
  | open (runId : Uuid)
  /-- It has published the terminal status. -/
  | told (runId : Uuid)

def Hand.run : Hand → Option Uuid
  | .away => none
  | .open runId | .told runId => some runId

def channelProtocol : Protocol Action Action.Answer Hand where
  allows
    | .away, .store (.finishRun _ _) => False
    | .away, .store _ => True
    | .away, .publisher _ => True
    | .open runId, .emit id _ => id = runId
    | .open runId, .run job => job.runId = runId
    | .told runId, .store (.finishRun id _) => id = runId
    | .told runId, .close id => id = runId
    | _, _ => False
  after
    | .away, .publisher runId, _ => .open runId
    | .open runId, .emit _ event, _ => if event.terminal then .told runId else .open runId
    | .told _, .close _, _ => .away
    | h, _, _ => h

/-- A worker returns with no channel open. -/
abbrev Uses : Hand → Process → Prop := Completes channelProtocol (· = .away)

variable {ws : Nat → Worker} {w : Worker}

theorem finished_uses (job : RunJob) (answer : Except RunnerError RunResult) :
    Uses (.open job.runId) (w.finished job answer) := by
  have htold : channelProtocol.after (.open job.runId)
      (.emit job.runId (.status (w.finish job.fuzzTargetName answer).status.runStatus)) () = .told job.runId :=
    if_pos (RunFinishStatus.runStatus_isTerminal _)
  refine completes_act rfl fun _ => ?_
  rw [htold]
  exact completes_act rfl fun _ => completes_act rfl fun _ => rfl

theorem started_uses (campaignId runId : Uuid) (campaign : CampaignRecord) (target : Target) (r : Reply) :
    Uses .away (w.started campaignId runId campaign target r) := by
  unfold Worker.started
  split
  · exact completes_act trivial fun _ => completes_act rfl fun _ => completes_act rfl fun answer =>
      finished_uses _ answer
  · rfl

theorem loaded_uses (campaignId runId : Uuid) (r : Reply) : Uses .away (w.loaded campaignId runId r) := by
  unfold Worker.loaded
  split
  · split
    · rfl
    · exact completes_act trivial fun r => started_uses _ _ _ _ r
  · rfl

theorem runLoop_uses : Uses .away w.runLoop := by
  refine completes_act trivial fun r => ?_
  split
  · exact completes_act trivial fun r => loaded_uses _ _ r
  · rfl

/-- What a worker does goes with what it has in hand. -/
def Talks (h : Hand) : Doing → Prop
  | .at p => Uses h p
  | .waiting _ op next => channelProtocol.allows h (.store op) ∧ ∀ r, Uses h (next r)
  | .running job next => h = .open job.runId ∧ ∀ a, Uses h (next a)

theorem uses_store {h : Hand} {op : StoreOp} {next : Reply → Process} (hu : Uses h (.act (.store op) next)) :
    channelProtocol.allows h (.store op) ∧ ∀ r, Uses h (next r) := by
  cases h with
  | away => exact hu
  | «open» => exact hu.1.elim
  | told => exact hu

section carried
variable {s : World} {S : Uuid → Stage} {log : List Event} {k : Nat} {runId : Uuid} {h : Hand}

/-- Worker `k` has the run ready or running, or ran it. -/
def Carried (S : Uuid → Stage) (log : List Event) (k : Nat) (runId : Uuid) : Prop :=
  S runId = .ready k ∨ S runId = .running k ∨ ∃ job a, .ran k job a ∈ log ∧ job.runId = runId

theorem AtPhase.carried {φ : Phase} (hφ : AtPhase ws S log k φ) {a : Action} (ha : (protocol w).allows φ a)
    (hu : channelProtocol.allows h a) (hr : h.run = some runId) : Carried S log k runId := by
  cases h with
  | away => cases hr
  | «open» r =>
    cases hr
    cases a with
    | emit id event =>
      obtain rfl : id = runId := hu
      cases φ with
      | ready r =>
        obtain rfl : id = r := ha.1
        exact .inl hφ.1
      | ran job answer =>
        obtain rfl : id = job.runId := ha.1
        exact .inr (.inr ⟨job, answer, hφ.2, rfl⟩)
      | _ => exact ha.elim
    | run job =>
      obtain rfl : job.runId = runId := hu
      cases φ with
      | ready r =>
        obtain rfl : job.runId = r := ha
        exact .inl hφ.1
      | _ => exact ha.elim
    | _ => exact hu.elim
  | told r =>
    cases hr
    cases a with
    | store op =>
      cases op <;> first | exact hu.elim | skip
      obtain rfl : _ = runId := hu
      cases φ with
      | told job answer =>
        obtain ⟨rfl, -⟩ := ha
        exact .inr (.inr ⟨job, answer, hφ.2.1, rfl⟩)
      | _ => exact ha.elim
    | close id =>
      obtain rfl : id = runId := hu
      cases φ with
      | saved job answer =>
        obtain rfl : id = job.runId := ha
        exact .inr (.inr ⟨job, answer, hφ.1, rfl⟩)
      | _ => exact ha.elim
    | _ => exact hu.elim

/-- A worker that has a run's channel in hand carries the run. -/
theorem Custody.carried (hc : Custody ws s S) (ht : Talks h (s.workers k)) (hr : h.run = some runId) :
    Carried S s.log k runId := by
  have hheld := hc.holds k
  generalize s.workers k = d at ht hheld
  cases d with
  | «at» p =>
    obtain ⟨φ, hp, hφ⟩ := hheld
    cases p with
    | ret =>
      cases (show h = .away from ht)
      cases hr
    | act a next => exact hφ.carried hp.allows ht.1 hr
  | waiting tx op next =>
    obtain ⟨-, φ, hallow, -, hwait⟩ := hheld
    have hu := ht.1
    cases h with
    | away => cases hr
    | «open» r => exact hu.elim
    | told r =>
      cases hr
      cases op <;> first | exact hu.elim | skip
      obtain rfl : _ = runId := hu
      cases φ with
      | told job answer =>
        obtain ⟨rfl, -⟩ := hallow
        exact .inr (.inr ⟨job, answer, hwait, rfl⟩)
      | _ => exact hallow.elim
  | running job next =>
    obtain ⟨rfl, -⟩ := ht
    cases hr
    exact .inr (.inl hheld.1)

/-- While a worker is about to open a run's channel, no other has it in hand: the run is
    in one worker's custody. -/
theorem publisher_alone (hc : Custody ws s S) {k' : Nat} {next : Unit → Process}
    (hk : s.workers k = .at (.act (.publisher runId) next)) (ht : Talks h (s.workers k')) : h.run ≠ some runId := by
  intro hr
  have hready : S runId = .ready k := by
    obtain ⟨φ, hp, hφ⟩ : Holds ws S s.log k (.at (.act (.publisher runId) next)) := hk ▸ hc.holds k
    have hallow := hp.allows
    cases φ with
    | ready r =>
      obtain rfl : runId = r := hallow
      exact hφ.1
    | _ => exact hallow.elim
  rcases hc.carried ht hr with hS | hS | ⟨job, a, hran, rfl⟩
  · -- It is the same worker, whose hand is still empty.
    cases hready.symm.trans hS
    rw [hk] at ht
    cases h with
    | away => cases hr
    | _ => exact ht.1.elim
  · cases hready.symm.trans hS
  · have hrank := (hc.trace.rans k' job a hran).1
    rw [hready] at hrank
    exact absurd hrank (by simp [Stage.rank])

end carried

/-! ## The hub -/

/-- The event is a terminal status. -/
abbrev Terminal (e : ProgressEvent) : Prop := e.terminal = true

/-- Channel `c`, the hub's for the run, is in worker `k`'s hand, and is as the hand says. -/
structure Entry (hub : ProgressHub) (h : Nat → Hand) (runId : Uuid) (c k : Nat) : Prop where
  opened : c < hub.opened
  senders : (hub.broadcasts c).senders = 2
  run : (h k).run = some runId
  publisher : hub.publishers k = some c
  telling : h k = .open runId → ∀ e ∈ (hub.broadcasts c).sent, ¬ Terminal e
  told : h k = .told runId → Over Terminal (hub.broadcasts c)

structure Wired (hub : ProgressHub) (h : Nat → Hand) : Prop where
  entry : ∀ runId c, hub.channels runId = some c → ∃ k, Entry hub h runId c k
  held : ∀ k runId, (h k).run = some runId → ∃ c, hub.channels runId = some c
  alone : ∀ k k' runId, (h k).run = some runId → (h k').run = some runId → k = k'
  apart : ∀ r r' c, hub.channels r = some c → hub.channels r' = some c → r = r'
  sealed : ∀ c, Sealed Terminal (hub.broadcasts c)
  closed : ∀ c < hub.opened, (hub.broadcasts c).senders = 0 → Over Terminal (hub.broadcasts c)

theorem Entry.frame {hub hub' : ProgressHub} {h h' : Nat → Hand} {runId : Uuid} {c k : Nat} (he : Entry hub h runId c k)
    (hopened : hub.opened ≤ hub'.opened) (hchan : hub'.broadcasts c = hub.broadcasts c)
    (hpub : hub'.publishers k = hub.publishers k) (hh : h' k = h k) : Entry hub' h' runId c k where
  opened := Nat.lt_of_lt_of_le he.opened hopened
  senders := hchan ▸ he.senders
  run := hh ▸ he.run
  publisher := hpub ▸ he.publisher
  telling ho := hchan ▸ he.telling (hh ▸ ho)
  told ho := hchan ▸ he.told (hh ▸ ho)

/-- What no step takes from a receiver. -/
def Later (hub hub' : ProgressHub) : Prop :=
  ∀ c < hub.opened, c < hub'.opened ∧
    ∀ next, Ahead Terminal (hub.broadcasts c) next → Ahead Terminal (hub'.broadcasts c) next

section hub
variable {hub hub' : ProgressHub} {h : Nat → Hand} {c k : Nat} {runId : Uuid}

/-- Channel `c` changes, or is new, and no receiver loses anything by it. -/
structure Touches (hub hub' : ProgressHub) (c : Nat) : Prop where
  rest : ∀ c', c' ≠ c → hub'.broadcasts c' = hub.broadcasts c'
  kept : hub.opened ≤ hub'.opened
  made : ∀ c' < hub'.opened, c' ≠ c → c' < hub.opened
  sealed : Sealed Terminal (hub'.broadcasts c)
  closed : (hub'.broadcasts c).senders = 0 → Over Terminal (hub'.broadcasts c)
  ahead : c < hub.opened → ∀ next, Ahead Terminal (hub.broadcasts c) next → Ahead Terminal (hub'.broadcasts c) next

namespace Touches

theorem sealed_all (t : Touches hub hub' c) (h : ∀ c, Sealed Terminal (hub.broadcasts c)) (c' : Nat) :
    Sealed Terminal (hub'.broadcasts c') := by
  by_cases e : c' = c
  · rw [e]
    exact t.sealed
  · rw [t.rest c' e]
    exact h c'

theorem closed_all (t : Touches hub hub' c)
    (h : ∀ c < hub.opened, (hub.broadcasts c).senders = 0 → Over Terminal (hub.broadcasts c)) (c' : Nat)
    (hc' : c' < hub'.opened) (h0 : (hub'.broadcasts c').senders = 0) : Over Terminal (hub'.broadcasts c') := by
  by_cases e : c' = c
  · rw [e] at h0 ⊢
    exact t.closed h0
  · rw [t.rest c' e] at h0 ⊢
    exact h c' (t.made c' hc' e) h0

theorem later (t : Touches hub hub' c) : Later hub hub' := by
  refine fun c' hc' => ⟨Nat.lt_of_lt_of_le hc' t.kept, fun next ha => ?_⟩
  by_cases e : c' = c
  · subst e
    exact t.ahead hc' next ha
  · rw [t.rest c' e]
    exact ha

end Touches

/-- Worker `k` takes `x` in hand. -/
abbrev hand (h : Nat → Hand) (k : Nat) (x : Hand) : Nat → Hand := Function.update h k x

/-- The channel in worker `k`'s hand. -/
theorem Wired.entry_of_run (hw : Wired hub h) (hk : (h k).run = some runId) :
    ∃ c, hub.channels runId = some c ∧ Entry hub h runId c k := by
  obtain ⟨c, hc⟩ := hw.held k runId hk
  obtain ⟨k', he⟩ := hw.entry runId c hc
  obtain rfl := hw.alone k' k runId he.run hk
  exact ⟨c, hc, he⟩

/-- A run has a channel in the hub when it is in some worker's hand. -/
theorem Wired.hub_none (hw : Wired hub h) (hnone : ∀ k, (h k).run ≠ some runId) : hub.channels runId = none := by
  rw [Option.eq_none_iff_forall_ne_some]
  intro c hc
  obtain ⟨k, he⟩ := hw.entry runId c hc
  exact hnone k he.run

/-- The numbers of the channels still to come are not in the hub. -/
theorem Wired.ne_opened (hw : Wired hub h) {r : Uuid} : hub.channels r ≠ some hub.opened := by
  intro hr
  obtain ⟨k, he⟩ := hw.entry r _ hr
  exact absurd he.opened (Nat.lt_irrefl _)

/-- The hub when `publisher` made a channel. -/
theorem publisher_eq (hnone : hub.channels runId = none) :
    hub.publisher k runId = ⟨Function.update hub.broadcasts hub.opened ⟨[], 2⟩, hub.opened + 1,
      Function.update hub.channels runId (some hub.opened), Function.update hub.publishers k (some hub.opened)⟩ := by
  rw [ProgressHub.publisher, hnone]

theorem touches_publisher (hnone : hub.channels runId = none) : Touches hub (hub.publisher k runId) hub.opened := by
  rw [publisher_eq hnone]
  have hnew : Function.update hub.broadcasts hub.opened ⟨[], 2⟩ hub.opened = ⟨[], 2⟩ := Function.update_self ..
  refine ⟨fun c hc => Function.update_of_ne hc .., Nat.le_succ _, fun c hc hne => ?_, ?_, fun h0 => ?_, fun hlt => ?_⟩
  · exact Nat.lt_of_le_of_ne (Nat.le_of_lt_succ hc) hne
  · dsimp only
    rw [hnew]
    exact nofun
  · dsimp only at h0
    rw [hnew] at h0
    cases h0
  · exact absurd hlt (Nat.lt_irrefl _)

theorem wired_publisher (hw : Wired hub h) (hnone : ∀ k', (h k').run ≠ some runId) (hk : h k = .away) :
    Wired (hub.publisher k runId) (hand h k (.open runId)) ∧ Later hub (hub.publisher k runId) := by
  have hchannels := hw.hub_none hnone
  have ht := touches_publisher (k := k) hchannels
  have hrun : ∀ k' r, (hand h k (.open runId) k').run = some r →
      (k' = k ∧ r = runId) ∨ (r ≠ runId ∧ (h k').run = some r) := by
    intro k' r hr
    by_cases e : k' = k
    · rw [e, hand, Function.update_self] at hr
      exact Or.inl ⟨e, (Option.some.inj hr).symm⟩
    · rw [hand, Function.update_of_ne e] at hr
      exact Or.inr ⟨fun e' => hnone k' (e' ▸ hr), hr⟩
  have hchannels' : ∀ r, (hub.publisher k runId).channels r =
      if r = runId then some hub.opened else hub.channels r := by
    intro r
    rw [publisher_eq hchannels]
    exact Function.update_apply ..
  have hnew : Entry (hub.publisher k runId) (hand h k (.open runId)) runId hub.opened k := by
    rw [publisher_eq hchannels]
    constructor <;> simp [hand, Hand.run]
  have hother : ∀ {r c}, r ≠ runId → hub.channels r = some c →
      ∃ k', Entry (hub.publisher k runId) (hand h k (.open runId)) r c k' := by
    intro r c hr hc
    obtain ⟨k', he⟩ := hw.entry r c hc
    have hne : k' ≠ k := by
      intro e
      have hr' := he.run
      rw [e, hk] at hr'
      cases hr'
    refine ⟨k', he.frame ht.kept (ht.rest c (Nat.ne_of_lt he.opened)) ?_ (Function.update_of_ne hne ..)⟩
    rw [publisher_eq hchannels]
    exact Function.update_of_ne hne ..
  refine ⟨⟨fun r c hc => ?_, fun k' r hr => ?_, fun k1 k2 r h1 h2 => ?_, fun r r' c hr hr' => ?_,
    ht.sealed_all hw.sealed, ht.closed_all hw.closed⟩, ht.later⟩
  · rw [hchannels'] at hc
    split at hc
    · rename_i e
      cases hc
      exact ⟨k, e ▸ hnew⟩
    · rename_i e
      exact hother e hc
  · rw [hchannels']
    rcases hrun k' r hr with ⟨-, rfl⟩ | ⟨hne, hr⟩
    · exact ⟨hub.opened, if_pos rfl⟩
    · rw [if_neg hne]
      exact hw.held k' r hr
  · rcases hrun k1 r h1 with ⟨rfl, rfl⟩ | ⟨hne, h1⟩ <;> rcases hrun k2 _ h2 with ⟨rfl, e⟩ | ⟨hne', h2⟩
    · rfl
    · exact absurd rfl hne'
    · exact absurd e hne
    · exact hw.alone k1 k2 r h1 h2
  · rw [hchannels'] at hr hr'
    split at hr <;> split at hr'
    · rename_i e e'
      rw [e, e']
    · cases hr
      exact absurd hr' hw.ne_opened
    · cases hr'
      exact absurd hr hw.ne_opened
    · exact hw.apart r r' c hr hr'

theorem emit_eq (hpub : hub.publishers k = some c) (event : ProgressEvent) :
    hub.emit k event = hub.setChannel c ((hub.broadcasts c).send event) := by
  rw [ProgressHub.emit, hpub]

/-- An event is sent while the terminal status is not out. -/
theorem touches_emit (he : Entry hub h runId c k) (hk : h k = .open runId) (event : ProgressEvent) :
    Touches hub (hub.emit k event) c := by
  rw [emit_eq he.publisher]
  refine ⟨fun c' hc' => setChannel_ne hc' _, Nat.le_refl _, fun _ hc' _ => hc', ?_, fun h0 => ?_,
    fun _ next ha => ?_⟩
  · rw [setChannel_self]
    exact sealed_send (he.telling hk)
  · rw [setChannel_self] at h0
    cases he.senders.symm.trans h0
  · rw [setChannel_self]
    exact ahead_send ha event

/-- What the hand says of the channel after the event. -/
theorem Entry.emit (he : Entry hub h runId c k) (hk : h k = .open runId) (event : ProgressEvent) :
    Entry (hub.emit k event) (hand h k (if event.terminal then .told runId else .open runId)) runId c k := by
  rw [emit_eq he.publisher]
  refine ⟨he.opened, (congrArg Channel.senders (setChannel_self c _)).trans he.senders, ?_, he.publisher,
    fun ho => ?_, fun ho => ?_⟩
  · rw [hand, Function.update_self]
    split <;> rfl
  · rw [hand, Function.update_self] at ho
    split at ho
    · cases ho
    · rename_i ht
      rw [setChannel_self]
      intro ev hev
      rcases List.mem_append.mp hev with hev | hev
      · exact he.telling hk ev hev
      · obtain rfl := List.mem_singleton.mp hev
        exact ht
  · rw [hand, Function.update_self] at ho
    split at ho
    · rename_i ht
      rw [setChannel_self]
      exact over_send _ ht
    · cases ho

theorem wired_emit (hw : Wired hub h) (hk : h k = .open runId) (event : ProgressEvent) :
    Wired (hub.emit k event) (hand h k (if event.terminal then .told runId else .open runId)) ∧
      Later hub (hub.emit k event) := by
  obtain ⟨c, hc, he⟩ := hw.entry_of_run (show (h k).run = some runId by rw [hk]; rfl)
  have ht := touches_emit he hk event
  have hself := he.emit hk event
  have hchannels : (hub.emit k event).channels = hub.channels := emit_channels k event
  have hpub : (hub.emit k event).publishers = hub.publishers := emit_publishers k event
  have hrun : ∀ k', (hand h k (if event.terminal then .told runId else .open runId) k').run = (h k').run := by
    intro k'
    by_cases e : k' = k
    · rw [e, hself.run, hk]
      rfl
    · rw [hand, Function.update_of_ne e]
  refine ⟨⟨fun r c' hr => ?_, fun k' r hr => ?_, fun k1 k2 r h1 h2 => ?_, fun r r' c' hr hr' => ?_,
    ht.sealed_all hw.sealed, ht.closed_all hw.closed⟩, ht.later⟩
  · rw [hchannels] at hr
    by_cases e : c' = c
    · subst e
      obtain rfl := hw.apart r runId c' hr hc
      exact ⟨k, hself⟩
    · obtain ⟨k', he'⟩ := hw.entry r c' hr
      have hne : k' ≠ k := by
        intro e'
        have hpub' := he'.publisher
        rw [e', he.publisher] at hpub'
        exact e (Option.some.inj hpub').symm
      exact ⟨k', he'.frame ht.kept (ht.rest c' e) (by rw [hpub]) (Function.update_of_ne hne ..)⟩
  · rw [hchannels]
    exact hw.held k' r ((hrun k').symm.trans hr)
  · exact hw.alone k1 k2 r ((hrun k1).symm.trans h1) ((hrun k2).symm.trans h2)
  · rw [hchannels] at hr hr'
    exact hw.apart r r' c' hr hr'

/-- The hub's sender and the worker's are dropped, and there was no other. -/
theorem close_eq (hc : hub.channels runId = some c) (he : Entry hub h runId c k) :
    hub.close k runId = ⟨Function.update hub.broadcasts c ⟨(hub.broadcasts c).sent, 0⟩, hub.opened,
      Function.update hub.channels runId none, Function.update hub.publishers k none⟩ := by
  simp [ProgressHub.close, hc, he.publisher, ProgressHub.dropSender, ProgressHub.setChannel, he.senders]

/-- The channel is closed after the terminal status. -/
theorem touches_close (hw : Wired hub h) (hc : hub.channels runId = some c) (he : Entry hub h runId c k)
    (hk : h k = .told runId) : Touches hub (hub.close k runId) c := by
  rw [close_eq hc he]
  have hself : Function.update hub.broadcasts c ⟨(hub.broadcasts c).sent, 0⟩ c = ⟨(hub.broadcasts c).sent, 0⟩ :=
    Function.update_self ..
  refine ⟨fun c' hc' => Function.update_of_ne hc' .., Nat.le_refl _, fun _ hc' _ => hc', ?_, fun _ => ?_,
    fun _ next ha => ?_⟩
  · dsimp only
    rw [hself]
    exact hw.sealed c
  · dsimp only
    rw [hself]
    exact he.told hk
  · dsimp only
    rw [hself]
    exact ⟨ha.le, ha.ahead⟩

theorem wired_close (hw : Wired hub h) (hk : h k = .told runId) :
    Wired (hub.close k runId) (hand h k .away) ∧ Later hub (hub.close k runId) := by
  obtain ⟨c, hc, he⟩ := hw.entry_of_run (show (h k).run = some runId by rw [hk]; rfl)
  have ht := touches_close hw hc he hk
  have hchannels : ∀ r, (hub.close k runId).channels r = if r = runId then none else hub.channels r := by
    intro r
    rw [close_eq hc he]
    exact Function.update_apply ..
  have hrun : ∀ k' r, (hand h k .away k').run = some r → k' ≠ k ∧ (h k').run = some r := by
    intro k' r hr
    by_cases e : k' = k
    · rw [e, hand, Function.update_self] at hr
      cases hr
    · rw [hand, Function.update_of_ne e] at hr
      exact ⟨e, hr⟩
  refine ⟨⟨fun r c' hr => ?_, fun k' r hr => ?_, fun k1 k2 r h1 h2 => ?_, fun r r' c' hr hr' => ?_,
    ht.sealed_all hw.sealed, ht.closed_all hw.closed⟩, ht.later⟩
  · rw [hchannels] at hr
    split at hr
    · cases hr
    · rename_i e
      obtain ⟨k', he'⟩ := hw.entry r c' hr
      have hc' : c' ≠ c := fun e' => e (hw.apart r runId c' hr (e' ▸ hc))
      have hne : k' ≠ k := by
        intro e'
        have hr' := he'.run
        rw [e', hk] at hr'
        exact e (Option.some.inj hr').symm
      refine ⟨k', he'.frame ht.kept (ht.rest c' hc') ?_ (Function.update_of_ne hne ..)⟩
      rw [close_eq hc he]
      exact Function.update_of_ne hne ..
  · obtain ⟨hne, hr⟩ := hrun k' r hr
    rw [hchannels, if_neg]
    · exact hw.held k' r hr
    · intro e
      exact hne (hw.alone k' k runId (e ▸ hr) (by rw [hk]; rfl))
  · exact hw.alone k1 k2 r (hrun k1 r h1).2 (hrun k2 r h2).2
  · rw [hchannels] at hr hr'
    split at hr
    · cases hr
    · split at hr'
      · cases hr'
      · exact hw.apart r r' c' hr hr'

end hub

/-! ## Streams -/

def statuses (out : List SseEvent) : List RunStatus :=
  out.filterMap fun
    | .status st => some st
    | _ => none

/-- What a stream that ended is to have delivered: a terminal status last, or the Pending
    status that was read, and no more. -/
def FreshEnd (out : List SseEvent) : Prop :=
  (∃ st, (statuses out).getLast? = some st ∧ st.isTerminal = true) ∨ out = [.status .pending]

/-- A stream that is live has the terminal status still ahead; one that ended, ended on it. -/
def Informed (hub : ProgressHub) : StreamState → Prop
  | .live c next _ _ => c < hub.opened ∧ Ahead Terminal (hub.broadcasts c) next
  | .ended out => FreshEnd out
  | .idle | .notFound | .found _ _ => True

theorem Informed.later {hub hub' : ProgressHub} (h : Later hub hub') {st : StreamState} (hs : Informed hub st) :
    Informed hub' st := by
  cases st with
  | live c next _ _ => exact ⟨(h c hs.1).1, (h c hs.1).2 next hs.2⟩
  | ended out => exact hs
  | _ => trivial

theorem freshEnd_terminal (out : List SseEvent) {st : RunStatus} (h : st.isTerminal = true) :
    FreshEnd (out ++ [.status st]) := Or.inl ⟨st, by simp [statuses], h⟩

/-- A receiver goes on, or ends on the terminal status: the channel is not closed before. -/
theorem informed_recv {hub : ProgressHub} {h : Nat → Hand} (hw : Wired hub h) {c next next' : Nat} {st : RunStatus}
    {out : List SseEvent} {got : Got ProgressEvent} (hi : Informed hub (.live c next st out))
    (hr : (hub.broadcasts c).recv channelCapacity next = some (got, next')) :
    Informed hub (.received c next' st out got) := by
  obtain ⟨hc, ha⟩ := hi
  have hgo : (∃ e, got = .ok e ∧ Terminal e) ∨ Ahead Terminal (hub.broadcasts c) next' :=
    ahead_recv (by decide) (hw.sealed c) ha hr
  have hlive : (∀ e, got = .ok e → ¬ Terminal e) → Ahead Terminal (hub.broadcasts c) next' := by
    intro hno
    rcases hgo with ⟨e, he, ht⟩ | ha'
    · exact absurd ht (hno e he)
    · exact ha'
  cases got with
  | closed =>
    have h0 := (recv_closed hr).2
    exact absurd hr (not_closed ha (hw.closed c hc h0))
  | lagged n => exact ⟨hc, hlive nofun⟩
  | ok e =>
    cases e with
    | status st' =>
      rw [StreamState.received]
      split
      · rename_i ht
        exact freshEnd_terminal out ht
      · rename_i ht
        exact ⟨hc, hlive fun e he => by cases he; exact ht⟩
    | _ => exact ⟨hc, hlive fun e he => by cases he; exact Bool.false_ne_true⟩

/-! ## Every interleaving -/

structure Sure (s : Live) (h : Nat → Hand) : Prop where
  talks : ∀ k, Talks (h k) (s.world.workers k)
  wired : Wired s.progress h
  informed : ∀ i, Informed s.progress (s.streams i)

section steps
variable {s : Live} {h : Nat → Hand}

theorem Sure.talks_at (hs : Sure s h) {k : Nat} {d : Doing} (hk : s.world.workers k = d) : Talks (h k) d :=
  hk ▸ hs.talks k

/-- Worker `k` goes on to `d`, with `x` in hand. -/
theorem Sure.goto (hs : Sure s h) {k : Nat} {x : Hand} {d : Doing} {world : World} {hub : ProgressHub}
    (hwired : Wired hub (hand h k x) ∧ Later s.progress hub)
    (hworkers : world.workers = Function.update s.world.workers k d) (hd : Talks x d) :
    Sure { s with world, progress := hub } (hand h k x) where
  talks k' := by
    show Talks (hand h k x k') (world.workers k')
    rw [hworkers]
    exact forall_update₂ hs.talks hd k'
  wired := hwired.1
  informed i := (hs.informed i).later hwired.2

/-- Worker `k` goes on to `d` with nothing told to the hub. -/
theorem Sure.quiet (hs : Sure s h) {k : Nat} {d : Doing} {world : World}
    (hworkers : world.workers = Function.update s.world.workers k d) (hd : Talks (h k) d) :
    Sure { s with world } h := by
  have hself : hand h k (h k) = h := Function.update_eq_self ..
  have hsame : Wired s.progress (hand h k (h k)) ∧ Later s.progress s.progress := by
    rw [hself]
    exact ⟨hs.wired, fun c hc => ⟨hc, fun _ ha => ha⟩⟩
  have hnew := hs.goto hsame hworkers hd
  rwa [hself] at hnew

/-- No worker moves. -/
theorem Sure.still (hs : Sure s h) {world : World} (hworkers : world.workers = s.world.workers) :
    Sure { s with world } h where
  talks k := by
    show Talks (h k) (world.workers k)
    rw [hworkers]
    exact hs.talks k
  wired := hs.wired
  informed := hs.informed

/-- A worker opens its run's channel, sends on it, closes it, or goes on with nothing to tell. -/
theorem sure_turn {S : Uuid → Stage} (hc : Custody ws s.world S) (hs : Sure s h) {world : World} {hub : ProgressHub}
    (hturn : Live.Turn ws s world hub) : ∃ h', Sure { s with world, progress := hub } h' := by
  cases hturn with
  | still hw => exact ⟨h, hs.still hw⟩
  | poll k hk hw =>
    have haway : h k = .away := hs.talks_at hk
    exact ⟨h, hs.quiet hw (haway ▸ runLoop_uses)⟩
  | call k tx op next hk hw =>
    have ht := hs.talks_at hk
    exact ⟨h, hs.quiet hw (uses_store ht)⟩
  | reply k op next r hk hw =>
    rcases hk with hk | ⟨tx, hk⟩
    · exact ⟨h, hs.quiet hw ((uses_store (hs.talks_at hk)).2 r)⟩
    · exact ⟨h, hs.quiet hw ((hs.talks_at hk).2 r)⟩
  | publisher k runId next hk hw =>
    have hnone : ∀ k', (h k').run ≠ some runId := fun k' => publisher_alone hc hk (hs.talks k')
    have ht := hs.talks_at hk
    cases hh : h k with
    | away =>
      rw [hh] at ht
      exact ⟨_, hs.goto (wired_publisher hs.wired hnone hh) hw (ht.2 ())⟩
    | _ =>
      rw [hh] at ht
      exact ht.1.elim
  | emit k id event next hk hw =>
    have ht := hs.talks_at hk
    cases hh : h k with
    | «open» runId =>
      rw [hh] at ht
      exact ⟨_, hs.goto (wired_emit hs.wired hh event) hw (ht.2 ())⟩
    | _ =>
      rw [hh] at ht
      exact ht.1.elim
  | close k id next hk hw =>
    have ht := hs.talks_at hk
    cases hh : h k with
    | told runId =>
      rw [hh] at ht
      obtain rfl : id = runId := ht.1
      exact ⟨_, hs.goto (wired_close hs.wired hh) hw (ht.2 ())⟩
    | _ =>
      rw [hh] at ht
      exact ht.1.elim
  | run k job next hk hw =>
    have ht := hs.talks_at hk
    refine ⟨h, hs.quiet hw ?_⟩
    cases hh : h k with
    | «open» runId =>
      rw [hh] at ht
      obtain rfl : job.runId = runId := ht.1
      exact ⟨rfl, ht.2⟩
    | _ =>
      rw [hh] at ht
      exact ht.1.elim
  | answer k job next a hk hw =>
    have ht := hs.talks_at hk
    exact ⟨h, hs.quiet hw (ht.2 a)⟩

/-- The request subscribes while there is a terminal status to come, or finds no channel
    and did not read that the run was running. -/
def timely (s : Live) : LiveAct → Bool
  | .subscribe i =>
    match s.streams i with
    | .found runId initialStatus =>
      match s.progress.channels runId with
      | some c => (s.progress.broadcasts c).sent.all fun e => !e.terminal
      | none => initialStatus ≠ .running
    | _ => true
  | _ => true

theorem Sure.setStream (hs : Sure s h) (i : Nat) {st : StreamState} (hi : Informed s.progress st) :
    Sure (s.setStream i st) h where
  talks := hs.talks
  wired := hs.wired
  informed := Live.all_setStream hs.informed hi

theorem sure_step {S : Uuid → Stage} (hc : Custody ws s.world S) (hs : Sure s h) {a : LiveAct} {s' : Live}
    (hstep : Live.step ws s a = some s') (ha : timely s a = true) : ∃ h', Sure s' h' := by
  cases Live.step_cases hstep with
  | world a world hw => exact sure_turn hc hs (Live.turn_of_step hw)
  | publish k event job next hk ht =>
    have htalks := hs.talks k
    rw [hk] at htalks
    obtain ⟨hw, hl⟩ := wired_emit hs.wired htalks.1 event
    -- The event is no terminal status: the hand stays as it is.
    have hself : hand h k (if event.terminal then .told job.runId else .open job.runId) = h := by
      rw [ht, if_neg Bool.false_ne_true, ← htalks.1]
      exact Function.update_eq_self ..
    rw [hself] at hw
    exact ⟨h, hs.talks, hw, fun i => (hs.informed i).later hl⟩
  | notFound i => exact ⟨h, hs.setStream i trivial⟩
  | found i => exact ⟨h, hs.setStream i trivial⟩
  | subscribed i runId st c hi hchan =>
    simp only [timely, hi, hchan, List.all_eq_true] at ha
    obtain ⟨k, he⟩ := hs.wired.entry runId c hchan
    refine ⟨h, hs.setStream i ⟨he.opened, ahead_subscribe fun e hm ht => ?_⟩⟩
    have := ha e hm
    rw [ht] at this
    cases this
  | missed i runId st hi hnone =>
    simp only [timely, hi, hnone, decide_eq_true_eq] at ha
    refine ⟨h, hs.setStream i ?_⟩
    cases st with
    | running => exact absurd rfl ha
    | pending => exact Or.inr rfl
    | _ => exact freshEnd_terminal [] rfl
  | recv i c next next' st out got hi hr =>
    have hinf := hs.informed i
    rw [hi] at hinf
    exact ⟨h, hs.setStream i (informed_recv hs.wired hinf hr)⟩

theorem sure_run (hr : Live.Run ws timely s) : ∃ h, Sure s h := by
  induction hr with
  | init =>
    refine ⟨fun _ => .away, fun k => rfl, ⟨fun _ _ h => ?_, fun _ _ h => ?_, fun _ _ _ h => ?_, fun _ _ _ h => ?_,
      fun c i e h => ?_, fun c h => absurd h (Nat.not_lt_zero c)⟩, fun _ => trivial⟩
    all_goals cases h
  | step a hr ha hs ih =>
    obtain ⟨h, hsure⟩ := ih
    obtain ⟨S, hc⟩ := custody (Live.run_world hr)
    exact sure_step hc hsure hs ha

theorem fresh_while_timely (hr : Live.Run ws timely s) {i : Nat} {out : List SseEvent}
    (hi : s.streams i = .ended out) : FreshEnd out := by
  obtain ⟨h, hs⟩ := sure_run hr
  have := hs.informed i
  rwa [hi] at this

end steps

def StreamState.out? : StreamState → Option (List SseEvent)
  | .ended out => some out
  | _ => none

theorem StreamState.ended_of_out {st : StreamState} {out : List SseEvent} (h : st.out? = some out) :
    st = .ended out := by
  cases st <;> cases h
  rfl

/-- Request 0 subscribes while the runner of run 2 runs, which then completes. -/
def watchAct : List LiveAct :=
  (World.createAct ++ World.claimAct ++ World.startAct).map .world ++
    [.request 0 2, .subscribe 0, .publish 0 (.iterations 7 1), .world (.answer 0 (.ok ⟨.completed, 7, [], none⟩)),
      .world (.proceed 0), .recv 0, .recv 0]

theorem fresh_watched : ∃ s out, Live.play (fun _ => tokenWorker) timely .init watchAct = some s ∧
    s.streams 0 = .ended out ∧ FreshEnd out := by
  have h : (Live.play (fun _ => tokenWorker) timely .init watchAct).map (fun s => (s.streams 0).out?) =
      some (some [.progress 7 1 .running, .status .completed]) := by decide
  obtain ⟨s, hs, hout⟩ := Option.map_eq_some_iff.mp h
  have hi := StreamState.ended_of_out hout
  exact ⟨s, _, hs, hi, fresh_while_timely (Live.play_run .init hs) hi⟩

/-! ## The window -/

/-- Worker 0's `start_run` commits, in transaction 3. -/
def startCommits : List Act := [.call 0 id id, .pg (.exec 3), .pg (.exec 3), .pg (.exec 3), .pg (.commit 3)]

/-- Request 0 reads that run 2 runs before the worker has opened its channel. -/
def earlyAct : List LiveAct :=
  (World.createAct ++ World.claimAct ++ startCommits).map .world ++ [.request 0 2, .subscribe 0]

theorem fresh_early_reader : ¬ ∀ (ws : Nat → Worker) (s : Live), Live.Run ws (fun _ _ => true) s →
    ∀ i out, s.streams i = .ended out → FreshEnd out := by
  intro hall
  have h : (Live.play (fun _ => tokenWorker) (fun _ _ => true) .init earlyAct).map (fun s => (s.streams 0).out?) =
      some (some [.status .running]) := by decide
  obtain ⟨s, hs, hout⟩ := Option.map_eq_some_iff.mp h
  have hend := hall _ s (Live.play_run .init hs) 0 _ (StreamState.ended_of_out hout)
  revert hend
  simp [FreshEnd, statuses, RunStatus.isTerminal]

end SoroFuzz.Queue
