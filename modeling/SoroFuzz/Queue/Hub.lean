/-
  SoroFuzz.Queue.Hub — what the progress hub holds, and when a stream waits
  (`worker/progress.rs`, `worker/mod.rs`, `api/stream.rs`).

  A channel is opened, and closed again, by the worker that runs its run. Streams only
  ever look at the hub, so what it holds does not depend on them.

  Proved:
  - `hub_exact`: the hub has a channel for a run just while some worker's process is to
    close it, and that worker is the only one; a channel that is not in the hub has no
    sender left.
  - `streams_end`: so a stream waits only for a worker at work, and else receiving ends it.
-/

import SoroFuzz.Queue.Fresh

namespace SoroFuzz.Queue

open SoroFuzz.Store
open Lib.Process
open Lib.Broadcast

/-! ## Who closes a run's channel -/

/-- However it goes on, the process closes the run's channel, and opens none before. -/
inductive Closes (runId : Uuid) : Process → Prop
  | close (next : Unit → Process) : Closes runId (.act (.close runId) next)
  | act (a : Action) (next : a.Answer → Process) : (∀ id, a ≠ .publisher id) → (∀ r, Closes runId (next r)) →
      Closes runId (.act a next)

def Doing.Closes (runId : Uuid) : Doing → Prop
  | .at p => Queue.Closes runId p
  | .waiting _ _ next => ∀ r, Queue.Closes runId (next r)
  | .running _ next => ∀ a, Queue.Closes runId (next a)

variable {ws : Nat → Worker} {runId : Uuid} {h : Hand} {p : Process}

theorem closes_of_uses (hu : Uses h p) (hr : h.run = some runId) : Closes runId p := by
  induction p generalizing h with
  | ret =>
    obtain rfl : h = .away := hu
    cases hr
  | act a next ih =>
    obtain ⟨ha, hn⟩ := hu
    cases h with
    | away => cases hr
    | «open» r =>
      refine .act a next ?_ fun x => ih x (hn x) ?_
      · rintro id rfl
        exact ha
      · cases a with
        | emit id event =>
          simp only [channelProtocol]
          split <;> exact hr
        | run job => exact hr
        | _ => exact ha.elim
    | told r =>
      cases hr
      cases a with
      | close id =>
        obtain rfl : id = runId := ha
        exact .close next
      | store op => exact .act _ next nofun fun x => ih x (hn x) rfl
      | _ => exact ha.elim

theorem run_of_closes (hc : Closes runId p) : ∀ {h : Hand}, Uses h p → h.run = some runId := by
  induction hc with
  | close next =>
    intro h hu
    cases h with
    | told r =>
      obtain rfl : runId = r := hu.1
      rfl
    | _ => exact hu.1.elim
  | act a next hno _ ih =>
    intro h hu
    obtain ⟨ha, hn⟩ := hu
    cases a with
    | publisher id => exact absurd rfl (hno id)
    | store op =>
      have hrun := ih .error (hn .error)
      cases h <;> exact hrun
    | emit id event =>
      have hrun := ih () (hn ())
      cases h with
      | «open» r =>
        simp only [channelProtocol] at hrun
        split at hrun <;> exact hrun
      | _ => exact ha.elim
    | run job =>
      have hrun := ih (.error (.failed "")) (hn (.error (.failed "")))
      cases h <;> exact hrun
    | close id =>
      have hrun := ih () (hn ())
      cases h with
      | told r => cases hrun
      | _ => exact ha.elim

/-- A worker has a run's channel in hand when it is to close it. -/
theorem run_iff_closes {d : Doing} (ht : Talks h d) : h.run = some runId ↔ d.Closes runId := by
  cases d with
  | «at» p => exact ⟨closes_of_uses ht, fun hc => run_of_closes hc ht⟩
  | waiting tx op next =>
    exact ⟨fun hr r => closes_of_uses (ht.2 r) hr, fun hc => run_of_closes (hc .error) (ht.2 .error)⟩
  | running job next =>
    exact ⟨fun hr a => closes_of_uses (ht.2 a) hr,
      fun hc => run_of_closes (hc (.error (.failed ""))) (ht.2 (.error (.failed "")))⟩

/-! ## Channels that are not in the hub -/

/-- A channel is the hub's for some run, or has no sender. -/
def Shut (hub : ProgressHub) : Prop := ∀ c, (∃ runId, hub.channels runId = some c) ∨ (hub.broadcasts c).senders = 0

section shut
variable {hub : ProgressHub} {hand : Nat → Hand} {k c : Nat}

theorem shut_publisher (hs : Shut hub) : Shut (hub.publisher k runId) := by
  intro c
  unfold ProgressHub.publisher
  split
  · rename_i c' hc'
    by_cases e : c = c'
    · exact Or.inl ⟨runId, e ▸ hc'⟩
    · exact (hs c).imp_right fun h0 => (congrArg Channel.senders (setChannel_ne e _)).trans h0
  · rename_i hnone
    by_cases e : c = hub.opened
    · exact Or.inl ⟨runId, (Function.update_self ..).trans (congrArg some e.symm)⟩
    · rcases hs c with ⟨r, hr⟩ | h0
      · have hne : r ≠ runId := by
          rintro rfl
          rw [hnone] at hr
          cases hr
        exact Or.inl ⟨r, (Function.update_of_ne hne ..).trans hr⟩
      · right
        show (Function.update hub.broadcasts hub.opened ⟨[], 2⟩ c).senders = 0
        rw [Function.update_of_ne e, h0]

theorem shut_emit (hs : Shut hub) (event : ProgressEvent) : Shut (hub.emit k event) := by
  intro c
  unfold ProgressHub.emit
  split
  · rename_i c' _
    by_cases e : c = c'
    · refine (hs c).imp_right fun h0 => ?_
      rw [e, setChannel_self]
      exact e ▸ h0
    · exact (hs c).imp_right fun h0 => (congrArg Channel.senders (setChannel_ne e _)).trans h0
  · exact hs c

theorem shut_close (hs : Shut hub) (hw : Wired hub hand) (hk : hand k = .told runId) :
    Shut (hub.close k runId) := by
  obtain ⟨c', hc', he⟩ := hw.entry_of_run (show (hand k).run = some runId by rw [hk]; rfl)
  intro c
  rw [close_eq hc' he]
  by_cases e : c = c'
  · right
    rw [e]
    exact congrArg Channel.senders (Function.update_self c' _ hub.broadcasts)
  · rcases hs c with ⟨r, hr⟩ | h0
    · have hne : r ≠ runId := by
        rintro rfl
        rw [hc'] at hr
        exact e (Option.some.inj hr).symm
      exact Or.inl ⟨r, (Function.update_of_ne hne ..).trans hr⟩
    · right
      show (Function.update hub.broadcasts c' _ c).senders = 0
      rw [Function.update_of_ne e, h0]

end shut

/-! ## Every run of the server -/

section runs
variable {p : Live → LiveAct → Bool} {s : Live}

theorem shut_turn {hand : Nat → Hand} (hs : Sure s hand) (hshut : Shut s.progress) {world : World}
    {hub : ProgressHub} (hturn : Live.Turn ws s world hub) : Shut hub := by
  cases hturn with
  | publisher k runId next hk hw => exact shut_publisher hshut
  | emit k id event next hk hw => exact shut_emit hshut event
  | close k id next hk hw =>
    have ht := hs.talks_at hk
    cases hh : hand k with
    | told runId =>
      rw [hh] at ht
      obtain rfl : id = runId := ht.1
      exact shut_close hshut hs.wired hh
    | _ =>
      rw [hh] at ht
      exact ht.1.elim
  | _ => exact hshut

/-- What the workers have in hand is what the hub holds, whoever watches. -/
theorem wired_run (hr : Live.Run ws p s) : ∃ hand, Sure s.unwatched hand :=
  sure_run (Live.run_unwatched (q := timely) (fun _ _ => rfl) (fun _ _ _ => rfl) hr)

theorem shut_run (hr : Live.Run ws p s) : Shut s.progress := by
  induction hr with
  | init => exact fun c => Or.inr rfl
  | @step s s' a hr _ hs ih =>
    obtain ⟨hand, hsure⟩ := wired_run hr
    cases Live.step_cases hs with
    | world a world hw => exact shut_turn hsure ih (Live.turn_of_step (s := s.unwatched) hw)
    | publish k event job next hk ht => exact shut_emit ih event
    | _ => exact ih

/-- Request 0 subscribes while the runner of run 2 runs. -/
def watching : List LiveAct :=
  (World.createAct ++ World.claimAct ++ World.startAct).map .world ++ [.request 0 2, .subscribe 0]

/-- A run has a channel in the hub exactly as long as a worker's process is to close it;
    two runs never share one, nor two workers; and what is not in the hub has no sender. -/
theorem hub_exact (hr : Live.Run ws p s) :
    (∀ runId, (∃ c, s.progress.channels runId = some c) ↔ ∃ k, (s.world.workers k).Closes runId) ∧
    (∀ runId k k', (s.world.workers k).Closes runId → (s.world.workers k').Closes runId → k = k') ∧
    (∀ runId runId' c, s.progress.channels runId = some c → s.progress.channels runId' = some c → runId = runId') ∧
    ∀ c, (s.progress.broadcasts c).senders = 0 ↔ ∀ runId, s.progress.channels runId ≠ some c := by
  obtain ⟨hand, hs⟩ := wired_run hr
  have hw : Wired s.progress hand := hs.wired
  have hcloses : ∀ k runId, (hand k).run = some runId ↔ (s.world.workers k).Closes runId :=
    fun k runId => run_iff_closes (hs.talks k)
  refine ⟨fun runId => ⟨fun ⟨c, hc⟩ => ?_, fun ⟨k, hk⟩ => ?_⟩, fun runId k k' hk hk' => ?_, hw.apart, fun c =>
    ⟨fun h0 runId hc => ?_, fun hno => ?_⟩⟩
  · obtain ⟨k, he⟩ := hw.entry runId c hc
    exact ⟨k, (hcloses k runId).mp he.run⟩
  · exact hw.held k runId ((hcloses k runId).mpr hk)
  · exact hw.alone k k' runId ((hcloses k runId).mpr hk) ((hcloses k' runId).mpr hk')
  · obtain ⟨k, he⟩ := hw.entry runId c hc
    cases he.senders.symm.trans h0
  · rcases shut_run hr c with ⟨runId, hc⟩ | h0
    · exact absurd hc (hno runId)
    · exact h0

theorem hub_exact_watched : ∃ s, Live.play (fun _ => tokenWorker) (fun _ _ => true) .init watching = some s ∧
    ∃ k, (s.world.workers k).Closes 2 := by
  have h : (Live.play (fun _ => tokenWorker) (fun _ _ => true) .init watching).map (fun s => s.progress.channels 2) =
      some (some 0) := by decide
  obtain ⟨s, hs, hc⟩ := Option.map_eq_some_iff.mp h
  exact ⟨s, hs, ((hub_exact (Live.play_run .init hs)).1 2).mp ⟨0, hc⟩⟩

/-! ## Streams -/

theorem streams_setStream (s : Live) (i : Nat) (st : StreamState) : (s.setStream i st).streams i = st :=
  Function.update_self ..

theorem received_out (c next : Nat) (last : RunStatus) (out : List SseEvent) (got : Got ProgressEvent) :
    out <+: (StreamState.received c next last out got).delivered ∧
      ((∃ last' out', StreamState.received c next last out got = .live c next last' out' ∧ got ≠ .closed) ∨
        ∃ out', StreamState.received c next last out got = .ended out') := by
  cases got with
  | ok e =>
    cases e with
    | status st =>
      rw [StreamState.received]
      split
      · exact ⟨List.prefix_append _ _, Or.inr ⟨_, rfl⟩⟩
      · exact ⟨List.prefix_append _ _, Or.inl ⟨_, _, rfl, by simp⟩⟩
    | _ => exact ⟨List.prefix_append _ _, Or.inl ⟨_, _, rfl, by simp⟩⟩
  | lagged n => exact ⟨List.prefix_rfl, Or.inl ⟨_, _, rfl, by simp⟩⟩
  | closed => exact ⟨List.prefix_rfl, Or.inr ⟨_, rfl⟩⟩

/-- A channel without senders has something for every receiver, and what is not the end
    brings it nearer. -/
theorem recv_shut {ch : Channel ProgressEvent} (h0 : ch.senders = 0) (next : Nat) :
    ∃ got next', ch.recv channelCapacity next = some (got, next') ∧
      (got ≠ .closed → next < ch.sent.length ∧ next < next') := by
  cases hr : ch.recv channelCapacity next with
  | none =>
    have hlen := recv_none hr
    have hlag : ¬ next + channelCapacity < ch.sent.length := by omega
    rw [Channel.recv, if_neg hlag, List.getElem?_eq_none_iff.mpr hlen] at hr
    simp only [h0, if_true] at hr
    cases hr
  | some x =>
    obtain ⟨got, next'⟩ := x
    refine ⟨got, next', rfl, fun hne => ?_⟩
    cases recv_cases hr with
    | ok e _ he => exact ⟨(List.getElem?_eq_some_iff.mp he).1, Nat.lt_succ_self _⟩
    | lagged hlag => exact ⟨by omega, by omega⟩
    | closed => exact absurd rfl hne

/-- By induction on what there is to take. -/
theorem drains {i c : Nat} (m : Nat) : ∀ {s : Live} {next : Nat} {last : RunStatus} {out : List SseEvent},
    s.streams i = .live c next last out → (s.progress.broadcasts c).senders = 0 →
      (s.progress.broadcasts c).sent.length - next ≤ m →
        ∃ n s' out', Live.play ws (fun _ _ => true) s (List.replicate n (.recv i)) = some s' ∧
          s'.streams i = .ended out' ∧ out <+: out' := by
  induction m with
  | zero =>
    intro s next last out hi h0 hm
    obtain ⟨got, next', hrecv, hgo⟩ := recv_shut h0 next
    obtain ⟨hout, ⟨_, _, -, hne⟩ | ⟨out', hend⟩⟩ := received_out c next' last out got
    · have := (hgo hne).1
      omega
    · refine ⟨1, s.setStream i (.ended out'), out', ?_, Function.update_self .., ?_⟩
      · simp only [List.replicate_one, Live.play, Live.step, hi, hrecv, Option.map_some, hend, if_true,
          Option.bind_some]
      · rwa [hend] at hout
  | succ m ih =>
    intro s next last out hi h0 hm
    obtain ⟨got, next', hrecv, hgo⟩ := recv_shut h0 next
    have hstep : Live.step ws s (.recv i) = some (s.setStream i (.received c next' last out got)) := by
      simp only [Live.step, hi, hrecv, Option.map_some]
    obtain ⟨hout, ⟨last', out', hlive, hne⟩ | ⟨out', hend⟩⟩ := received_out c next' last out got
    · obtain ⟨hlt, hnext⟩ := hgo hne
      have hi' : (s.setStream i (.received c next' last out got)).streams i = .live c next' last' out' :=
        (streams_setStream s i _).trans hlive
      obtain ⟨n, s', out'', hplay, hend, hpre⟩ := ih hi' h0 (by
        show (s.progress.broadcasts c).sent.length - next' ≤ m
        omega)
      rw [hlive] at hout
      refine ⟨n + 1, s', out'', ?_, hend, List.IsPrefix.trans hout hpre⟩
      rw [List.replicate_succ, Live.play, if_pos rfl, hstep]
      exact hplay
    · rw [hend] at hstep hout
      refine ⟨1, s.setStream i (.ended out'), out', ?_, streams_setStream s i _, hout⟩
      rw [List.replicate_one, Live.play, if_pos rfl, hstep]
      rfl

/-- A stream is on the channel of a run that some worker is to close, or it ends when it
    is received from, with no step by anyone else. -/
theorem streams_end (hr : Live.Run ws p s) {i c next : Nat} {last : RunStatus} {out : List SseEvent}
    (hi : s.streams i = .live c next last out) :
    (∃ runId k, s.progress.channels runId = some c ∧ (s.world.workers k).Closes runId) ∨
      ∃ n s' out', Live.play ws (fun _ _ => true) s (List.replicate n (.recv i)) = some s' ∧
        s'.streams i = .ended out' ∧ out <+: out' := by
  obtain ⟨hand, hs⟩ := wired_run hr
  rcases shut_run hr c with ⟨runId, hc⟩ | h0
  · obtain ⟨k, he⟩ := hs.wired.entry runId c hc
    exact Or.inl ⟨runId, k, hc, (run_iff_closes (hs.talks k)).mp he.run⟩
  · exact Or.inr (drains _ hi h0 (Nat.le_refl _))

def StreamState.on? : StreamState → Option Nat
  | .live c _ _ _ => some c
  | _ => none

theorem StreamState.live_of_on {st : StreamState} {c : Nat} (h : st.on? = some c) :
    ∃ next last out, st = .live c next last out := by
  cases st with
  | live c' next last out =>
    cases h
    exact ⟨next, last, out, rfl⟩
  | _ => cases h

/-- The worker is done, and closes the channel, before the request receives anything. -/
def watchedLate : List LiveAct :=
  watching ++ [.world (.answer 0 (.ok ⟨.completed, 7, [], none⟩)), .world (.proceed 0), .world (.call 0 id id),
    .world (.pg (.exec 4)), .world (.pg (.exec 4)), .world (.pg (.commit 4)), .world (.reply 0), .world (.proceed 0)]

theorem streams_end_late : ∃ s, Live.play (fun _ => tokenWorker) (fun _ _ => true) .init watchedLate = some s ∧
    ((∃ runId k, s.progress.channels runId = some 0 ∧ (s.world.workers k).Closes runId) ∨
      ∃ n s' out', Live.play (fun _ => tokenWorker) (fun _ _ => true) s (List.replicate n (.recv 0)) = some s' ∧
        s'.streams 0 = .ended out') := by
  have h : (Live.play (fun _ => tokenWorker) (fun _ _ => true) .init watchedLate).map (fun s => (s.streams 0).on?) =
      some (some 0) := by decide
  obtain ⟨s, hs, hon⟩ := Option.map_eq_some_iff.mp h
  obtain ⟨next, last, out, hi⟩ := StreamState.live_of_on hon
  refine ⟨s, hs, ?_⟩
  rcases streams_end (Live.play_run .init hs) hi with hleft | ⟨n, s', out', hplay, hend, -⟩
  · exact Or.inl hleft
  · exact Or.inr ⟨n, s', out', hplay, hend⟩

end runs

end SoroFuzz.Queue
