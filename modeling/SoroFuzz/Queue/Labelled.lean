/-
  SoroFuzz.Queue.Labelled — the status that a stream's progress events carry.

  No event of the runner says what the run's status is. A stream labels its progress
  events with the last status it knows: the one it read before it subscribed, until the
  channel tells it another. A channel's first event is that the run is Running
  (`Announced`), so a stream that read Pending learns it only when it subscribed before
  that event and did not lag past it.

  Proved:
  - `labelled_while_abreast`: every progress event says Running as long as each stream
    that got one had read that, or was to be told, and did not lag before it knew. The run
    whose runner runs is Running, unless its campaign was cancelled.
  - `labelled_late_reader`: without that one may say Pending.
-/

import SoroFuzz.Queue.Faithful

namespace SoroFuzz.Queue

open SoroFuzz.Store
open Lib.Process
open Lib.Broadcast

/-! ## What a worker says first -/

/-- `process` publishes no other status. -/
def ProgressEvent.ofProcess (event : ProgressEvent) : Prop :=
  ∀ st, event = .status st → st = .running ∨ st.isTerminal = true

/-- A worker says on its channel that the run is Running, and then runs it. The phase is whether it has. -/
def announcing : Protocol Action Action.Answer Bool where
  allows said
    | .emit _ event => (said = false → event = .status .running) ∧ event.ofProcess
    | .run _ => said = true
    | .store _ | .publisher _ | .close _ => True
  after said
    | .publisher _, _ => false
    | .emit _ _, _ => true
    | .store _, _ | .run _, _ | .close _, _ => said

variable {ws : Nat → Worker} {w : Worker}

theorem finished_announces (job : RunJob) (answer : Except RunnerError RunResult) :
    Obeys announcing true (w.finished job answer) := by
  refine obeys_act ⟨fun h => ?_, fun st h => ?_⟩ fun _ => obeys_act trivial fun _ => obeys_act trivial fun _ =>
    obeys_ret _
  · cases h
  · cases h
    exact Or.inr (RunFinishStatus.runStatus_isTerminal _)

theorem started_announces (said : Bool) (campaignId runId : Uuid) (campaign : CampaignRecord) (target : Target)
    (r : Reply) : Obeys announcing said (w.started campaignId runId campaign target r) := by
  unfold Worker.started
  split
  · have hrunning : (ProgressEvent.status .running).ofProcess := fun st h => by cases h; exact Or.inl rfl
    exact obeys_act trivial fun _ => obeys_act ⟨fun _ => rfl, hrunning⟩ fun _ => obeys_act rfl fun answer =>
      finished_announces _ answer
  · exact obeys_ret _

theorem loaded_announces (said : Bool) (campaignId runId : Uuid) (r : Reply) :
    Obeys announcing said (w.loaded campaignId runId r) := by
  unfold Worker.loaded
  split
  · split
    · exact obeys_ret _
    · exact obeys_act trivial fun r => started_announces _ _ _ _ _ r
  · exact obeys_ret _

theorem runLoop_announces (said : Bool) : Obeys announcing said w.runLoop := by
  refine obeys_act trivial fun r => ?_
  split
  · exact obeys_act trivial fun r => loaded_announces _ _ _ r
  · exact obeys_ret _

def Announces (said : Bool) : Doing → Prop
  | .at p => Obeys announcing said p
  | .waiting _ _ next => ∀ r, Obeys announcing said (next r)
  | .running _ next => said = true ∧ ∀ a, Obeys announcing true (next a)

/-! ## A channel's first event -/

/-- `said k` when worker `k` said on its channel that the run is Running. -/
structure Opens (hub : ProgressHub) (said : Nat → Bool) : Prop where
  said : ∀ k c, hub.publishers k = some c → said k = true → (hub.broadcasts c).sent ≠ []
  first : ∀ c e, (hub.broadcasts c).sent.head? = some e → e = .status .running
  statuses : ∀ c, ∀ e ∈ (hub.broadcasts c).sent, e.ofProcess

section hub
variable {hub : ProgressHub} {said : Nat → Bool}

/-- Events stay as they are, but for those of new channels, which have none. -/
theorem Opens.same {hub' : ProgressHub} {said' : Nat → Bool} (h : Opens hub said)
    (hsent : ∀ c, (hub'.broadcasts c).sent = (hub.broadcasts c).sent ∨ (hub'.broadcasts c).sent = [])
    (hsaid : ∀ k c, hub'.publishers k = some c → said' k = true →
      hub.publishers k = some c ∧ said k = true ∧ (hub'.broadcasts c).sent = (hub.broadcasts c).sent) :
    Opens hub' said' where
  said k c hk hs := by
    obtain ⟨hk, hs, hc⟩ := hsaid k c hk hs
    rw [hc]
    exact h.said k c hk hs
  first c e he := by
    rcases hsent c with hc | hc
    · rw [hc] at he
      exact h.first c e he
    · rw [hc] at he
      cases he
  statuses c e he := by
    rcases hsent c with hc | hc
    · rw [hc] at he
      exact h.statuses c e he
    · rw [hc] at he
      cases he

theorem opens_publisher (h : Opens hub said) (hn : Numbered hub) (k : Nat) (runId : Uuid) :
    Opens (hub.publisher k runId) (Function.update said k false) := by
  have hother : ∀ k', Function.update said k false k' = true → k' ≠ k ∧ said k' = true := by
    intro k' hs
    by_cases e : k' = k
    · rw [e, Function.update_self] at hs
      cases hs
    · rw [Function.update_of_ne e] at hs
      exact ⟨e, hs⟩
  unfold ProgressHub.publisher
  split
  · rename_i c hc
    refine h.same (fun c' => Or.inl (sent_setChannel _ _ c')) fun k' c' hk hs => ?_
    obtain ⟨hne, hs⟩ := hother k' hs
    dsimp only at hk
    rw [Function.update_of_ne hne] at hk
    exact ⟨hk, hs, sent_setChannel _ _ c'⟩
  · refine h.same (fun c' => ?_) fun k' c' hk hs => ?_
    · by_cases e : c' = hub.opened
      · exact Or.inr (by dsimp only; rw [e, Function.update_self])
      · exact Or.inl (by dsimp only; rw [Function.update_of_ne e])
    · obtain ⟨hne, hs⟩ := hother k' hs
      dsimp only at hk ⊢
      rw [Function.update_of_ne hne] at hk
      rw [Function.update_of_ne (Nat.ne_of_lt (hn.publisher k' c' hk))]
      exact ⟨hk, hs, rfl⟩

theorem opens_close (h : Opens hub said) (k : Nat) (runId : Uuid) : Opens (hub.close k runId) said := by
  refine h.same (fun c => Or.inl (sent_close k runId c)) fun k' c hk hs => ⟨?_, hs, sent_close k runId c⟩
  simp only [ProgressHub.close] at hk
  by_cases e : k' = k
  · rw [e, Function.update_self] at hk
    cases hk
  · rwa [Function.update_of_ne e] at hk

/-- The first event a worker sends on its channel is that the run is Running. -/
theorem opens_emit (h : Opens hub said) {k : Nat} {event : ProgressEvent}
    (hfirst : said k = false → event = .status .running) (hof : event.ofProcess) :
    Opens (hub.emit k event) (Function.update said k true) := by
  have hold : ∀ k' c, hub.publishers k' = some c → k' ≠ k → Function.update said k true k' = true →
      (hub.broadcasts c).sent ≠ [] := by
    intro k' c hk hne hs
    rw [Function.update_of_ne hne] at hs
    exact h.said k' c hk hs
  unfold ProgressHub.emit
  split
  · rename_i c hc
    refine ⟨fun k' c' hk hs => ?_, fun c' e he => ?_, fun c' e he => ?_⟩
    · by_cases e : c' = c
      · rw [e, setChannel_self, Channel.send]
        exact List.concat_ne_nil _ _
      · rw [setChannel_ne e]
        refine hold k' c' hk (fun e' => ?_) hs
        rw [e'] at hk
        exact e (Option.some.inj (hk.symm.trans hc))
    · by_cases e' : c' = c
      · rw [e', setChannel_self, Channel.send] at he
        cases hsent : (hub.broadcasts c).sent with
        | nil =>
          rw [hsent] at he
          cases he
          refine hfirst (Bool.eq_false_iff.mpr fun hs => ?_)
          exact h.said k c hc hs hsent
        | cons e1 es =>
          rw [hsent] at he
          cases he
          exact h.first c _ (by rw [hsent]; rfl)
      · rw [setChannel_ne e'] at he
        exact h.first c' e he
    · by_cases e' : c' = c
      · rw [e', setChannel_self] at he
        rcases List.mem_append.mp he with he | he
        · exact h.statuses c e he
        · rw [List.mem_singleton.mp he]
          exact hof
      · rw [setChannel_ne e'] at he
        exact h.statuses c' e he
  · rename_i hnone
    refine ⟨fun k' c' hk hs => hold k' c' hk (fun e' => ?_) hs, h.first, h.statuses⟩
    rw [e', hnone] at hk
    cases hk

end hub

/-! ## Every interleaving -/

structure Announced (s : Live) (said : Nat → Bool) : Prop where
  workers : ∀ k, Announces (said k) (s.world.workers k)
  opens : Opens s.progress said

section steps
variable {s : Live} {said : Nat → Bool}

theorem Announced.announces_at (h : Announced s said) {k : Nat} {d : Doing} (hk : s.world.workers k = d) :
    Announces (said k) d :=
  hk ▸ h.workers k

/-- Worker `k` goes on to `d`. -/
theorem Announced.goto (h : Announced s said) {k : Nat} {b : Bool} {d : Doing} {world : World} {hub : ProgressHub}
    (hopens : Opens hub (Function.update said k b)) (hworkers : world.workers = Function.update s.world.workers k d)
    (hd : Announces b d) : Announced { s with world, progress := hub } (Function.update said k b) where
  workers k' := by
    show Announces (Function.update said k b k') (world.workers k')
    rw [hworkers]
    exact forall_update₂ h.workers hd k'
  opens := hopens

/-- Worker `k` goes on to `d`, and has said no more on its channel. -/
theorem Announced.quiet (h : Announced s said) {k : Nat} {d : Doing} {world : World} {hub : ProgressHub}
    (hopens : Opens hub said) (hworkers : world.workers = Function.update s.world.workers k d)
    (hd : Announces (said k) d) : Announced { s with world, progress := hub } said := by
  have hself : Function.update said k (said k) = said := Function.update_eq_self ..
  have hnew := h.goto (hself.symm ▸ hopens) hworkers hd
  rwa [hself] at hnew

theorem announced_turn (h : Announced s said) (hn : Numbered s.progress) {world : World} {hub : ProgressHub}
    (hturn : Live.Turn ws s world hub) : ∃ said', Announced { s with world, progress := hub } said' := by
  cases hturn with
  | still hw => exact ⟨said, fun k => by rw [hw]; exact h.workers k, h.opens⟩
  | poll k hk hw => exact ⟨said, h.quiet h.opens hw (runLoop_announces _)⟩
  | call k tx op next hk hw =>
    have ha := h.announces_at hk
    exact ⟨said, h.quiet h.opens hw ha.next⟩
  | reply k op next r hk hw =>
    rcases hk with hk | ⟨tx, hk⟩
    · have ha := h.announces_at hk
      exact ⟨said, h.quiet h.opens hw (ha.next r)⟩
    · have ha := h.announces_at hk
      exact ⟨said, h.quiet h.opens hw (ha r)⟩
  | publisher k runId next hk hw =>
    have ha := h.announces_at hk
    exact ⟨_, h.goto (opens_publisher h.opens hn k runId) hw (ha.next ())⟩
  | emit k runId event next hk hw =>
    have ha := h.announces_at hk
    obtain ⟨hfirst, hof⟩ := ha.allows
    exact ⟨_, h.goto (opens_emit h.opens hfirst hof) hw (ha.next ())⟩
  | close k runId next hk hw =>
    have ha := h.announces_at hk
    exact ⟨said, h.quiet (opens_close h.opens k runId) hw (ha.next ())⟩
  | run k job next hk hw =>
    have ha := h.announces_at hk
    have hsaid : said k = true := ha.allows
    exact ⟨said, h.quiet h.opens hw ⟨hsaid, hsaid ▸ ha.next⟩⟩
  | answer k job next a hk hw =>
    have ha := h.announces_at hk
    exact ⟨said, h.quiet h.opens hw (ha.1.symm ▸ ha.2 a)⟩

end steps

/-! ## Labels -/

/-- What a runner publishes: no status but Running. -/
def ProgressEvent.ofRunner : ProgressEvent → Bool
  | .status st => st = .running
  | .iterations _ _ | .log _ _ | .finding _ _ => true

/-- A stream reads that the run is Running, or subscribes where it is still to be told, or is over; and it does not
    lag before it knows. -/
def abreast (s : Live) : LiveAct → Bool
  | .publish _ event => event.ofRunner
  | .subscribe i =>
    match s.streams i with
    | .found runId initialStatus =>
      match s.progress.channels runId with
      | some c => initialStatus = .running || (s.progress.broadcasts c).sent.isEmpty ||
          (s.progress.broadcasts c).sent.any fun e => e.terminal
      | none => true
    | _ => true
  | .recv i =>
    match s.streams i with
    | .live c next lastStatus _ =>
      lastStatus = .running || decide ((s.progress.broadcasts c).sent.length ≤ next + channelCapacity)
    | _ => true
  | _ => true

/-- The same, of stream `i` alone. -/
def abreastOf (i : Nat) (s : Live) (a : LiveAct) : Bool :=
  match a with
  | .subscribe j | .recv j => decide (j ≠ i) || abreast s a
  | _ => abreast s a

theorem abreastOf_of_abreast {i : Nat} {s : Live} {a : LiveAct} (h : abreast s a = true) : abreastOf i s a = true := by
  unfold abreastOf
  split
  · rw [h, Bool.or_true]
  · rw [h, Bool.or_true]
  · exact h

/-- The progress events delivered say Running. -/
def Labelled (x : StreamState) : Prop :=
  ∀ iterations elapsedSecs st, .progress iterations elapsedSecs st ∈ x.delivered → st = .running

/-- The stream knows that the run is Running, or is to be told next, or nothing more will come. -/
def Knows (hub : ProgressHub) : StreamState → Prop
  | .live c next lastStatus _ => c < hub.opened ∧ (lastStatus = .running ∨ next = 0 ∨
      (next = (hub.broadcasts c).sent.length ∧ Over Terminal (hub.broadcasts c)))
  | .idle | .notFound | .found _ _ | .ended _ => True

theorem Knows.later {hub hub' : ProgressHub} {x : StreamState} (h : Knows hub x) (hg : Grows hub hub')
    (hs : ∀ c, Sealed Terminal (hub'.broadcasts c)) : Knows hub' x := by
  cases x with
  | live c next last out =>
    obtain ⟨hc, hknows⟩ := h
    refine ⟨Nat.lt_of_lt_of_le hc hg.opened, hknows.imp_right fun h => h.imp_right fun ⟨hnext, ho⟩ => ?_⟩
    have hsame := ho.same (hs c) (hg.sent c hc)
    rw [Over, hsame]
    exact ⟨hnext, ho⟩
  | _ => trivial

/-- What the stream is told next it labels with Running, and knows it after. -/
theorem labelled_recv {hub : ProgressHub} {said : Nat → Bool} (ho : Opens hub said) {c next next' : Nat}
    {last : RunStatus} {out : List SseEvent} {got : Got ProgressEvent} (hl : Labelled (.live c next last out))
    (hk : Knows hub (.live c next last out))
    (hr : (hub.broadcasts c).recv channelCapacity next = some (got, next'))
    (ha : last = .running ∨ (hub.broadcasts c).sent.length ≤ next + channelCapacity) :
    Labelled (.received c next' last out got) ∧ Knows hub (.received c next' last out got) := by
  obtain ⟨hc, hknows⟩ := hk
  have hsame : ∀ x : StreamState, x.delivered = out → Labelled x := fun x hx iterations elapsedSecs st hm =>
    hl iterations elapsedSecs st (hx ▸ hm)
  cases recv_cases hr with
  | lagged hlag => exact ⟨hsame _ rfl, hc, Or.inl (ha.resolve_right (Nat.not_le_of_lt hlag))⟩
  | closed => exact ⟨hsame _ rfl, trivial⟩
  | ok e _ he =>
    have hrunning : last = .running ∨ e = .status .running := by
      refine hknows.imp_right fun h => ?_
      rcases h with h0 | ⟨hend, -⟩
      · rw [h0, ← List.head?_eq_getElem?] at he
        exact ho.first c e he
      · have := (List.getElem?_eq_some_iff.mp he).1
        omega
    have hof := ho.statuses c e (List.mem_of_getElem? he)
    have hlabel : ∀ x : StreamState, x.delivered = out ++ [e.sse last] → Labelled x := by
      intro x hx iterations elapsedSecs st hm
      rw [hx] at hm
      rcases List.mem_append.mp hm with hm | hm
      · exact hl iterations elapsedSecs st hm
      · have heq := List.mem_singleton.mp hm
        rcases hrunning with hlast | hst
        · rw [hlast] at heq
          cases e <;> cases heq
          rfl
        · rw [hst] at heq
          cases heq
    rw [received_ok]
    split
    · exact ⟨hlabel _ rfl, trivial⟩
    · rename_i hterm
      refine ⟨hlabel _ rfl, hc, Or.inl ?_⟩
      cases e with
      | status st => exact (hof st rfl).resolve_right hterm
      | _ => exact hrunning.resolve_right (by simp)

section steps
variable {s s' : Live} {said : Nat → Bool}

/-- In every run nothing is sent after a terminal status: the streams have no part in it. -/
theorem sealed_run {p : Live → LiveAct → Bool} (hr : Live.Run ws p s) (c : Nat) :
    Sealed Terminal (s.progress.broadcasts c) := by
  obtain ⟨h, hsure⟩ := sure_run (Live.run_unwatched (q := timely) (fun _ _ => rfl) (fun _ _ _ => rfl) hr)
  exact hsure.wired.sealed c

theorem ofProcess_of_runner {event : ProgressEvent} (h : event.ofRunner = true) : event.ofProcess := by
  rintro st rfl
  exact Or.inl (of_decide_eq_true h)

theorem announced_step (h : Announced s said) (hn : Numbered s.progress) {a : LiveAct} {i : Nat}
    (hs : Live.step ws s a = some s') (ha : abreastOf i s a = true) : ∃ said', Announced s' said' := by
  cases Live.step_cases hs with
  | world a world hw => exact announced_turn h hn (Live.turn_of_step hw)
  | publish k event job next hk =>
    have hannounces := h.workers k
    rw [hk] at hannounces
    have hsaid : said k = true := hannounces.1
    have hopens := opens_emit h.opens (k := k) (fun hno => absurd (hsaid.symm.trans hno) (by decide))
      (ofProcess_of_runner ha)
    rw [← hsaid, Function.update_eq_self] at hopens
    exact ⟨said, h.workers, hopens⟩
  | notFound | found | subscribed | missed | recv => exact ⟨said, h.workers, h.opens⟩

theorem labelled_step (h : Announced s said) (hseal : ∀ c, Sealed Terminal (s.progress.broadcasts c))
    (hseal' : ∀ c, Sealed Terminal (s'.progress.broadcasts c)) (hn : Numbered s.progress) {a : LiveAct} {i : Nat}
    (hs : Live.step ws s a = some s') (ha : abreastOf i s a = true)
    (hi : Labelled (s.streams i) ∧ Knows s.progress (s.streams i)) :
    Labelled (s'.streams i) ∧ Knows s'.progress (s'.streams i) := by
  have hset : ∀ j x, (j = i → Labelled x ∧ Knows s.progress x) →
      Labelled ((s.setStream j x).streams i) ∧ Knows s.progress ((s.setStream j x).streams i) := by
    intro j x hx
    simp only [Live.setStream]
    by_cases hj : j = i
    · subst hj
      rw [Function.update_self]
      exact hx rfl
    · rw [Function.update_of_ne (Ne.symm hj)]
      exact hi
  have hnone : ∀ x : StreamState, x.delivered = [] → Labelled x := by
    intro x hx _ _ _ hm
    rw [hx] at hm
    cases hm
  cases Live.step_cases hs with
  | world a world hw => exact ⟨hi.1, hi.2.later (Live.turn_of_step hw).grows hseal'⟩
  | publish k event => exact ⟨hi.1, hi.2.later (grows_emit k event) hseal'⟩
  | notFound j => exact hset j _ fun _ => ⟨hnone _ rfl, trivial⟩
  | found j => exact hset j _ fun _ => ⟨hnone _ rfl, trivial⟩
  | subscribed j runId st c hj hc =>
    refine hset j _ fun hji => ⟨hnone _ rfl, hn.channel runId c hc, ?_⟩
    subst hji
    simp only [abreastOf, ne_eq, not_true_eq_false, decide_false, Bool.false_or, abreast, hj, hc, Bool.or_eq_true,
      decide_eq_true_eq, List.isEmpty_iff, List.any_eq_true] at ha
    rcases ha with (hst | hempty) | ⟨e, he, hterm⟩
    · exact Or.inl hst
    · exact Or.inr (Or.inl (by rw [Channel.subscribe, hempty]; rfl))
    · exact Or.inr (Or.inr ⟨rfl, (hseal c).over he hterm⟩)
  | missed j runId st =>
    refine hset j _ fun _ => ⟨fun _ _ _ hm => ?_, trivial⟩
    cases List.mem_singleton.mp hm
  | recv j c next next' last out got hj hr =>
    refine hset j _ fun hji => ?_
    subst hji
    rw [hj] at hi
    simp only [abreastOf, ne_eq, not_true_eq_false, decide_false, Bool.false_or, abreast, hj, Bool.or_eq_true,
      decide_eq_true_eq] at ha
    exact labelled_recv h.opens hi.1 hi.2 hr ha

theorem labelled_run {i : Nat} (hr : Live.Run ws (abreastOf i) s) :
    (∃ said, Announced s said) ∧ Labelled (s.streams i) ∧ Knows s.progress (s.streams i) := by
  induction hr with
  | init =>
    refine ⟨⟨fun _ => false, fun _ => trivial, ?_, ?_, ?_⟩, ?_, trivial⟩
    · intro _ _ h
      cases h
    · intro _ _ h
      cases h
    · intro _ _ h
      cases h
    · intro _ _ _ h
      cases h
  | step a hr ha hs ih =>
    obtain ⟨⟨said, h⟩, hi⟩ := ih
    have hn := Live.numbered_run hr
    exact ⟨announced_step h hn hs ha, labelled_step h (sealed_run hr) (sealed_run (.step a hr ha hs)) hn hs ha hi⟩

end steps

/-- The run whose runner runs is Running in the store, unless its campaign was cancelled. -/
theorem running_or_cancelled {s : World} (h : World.Reach ws s) {k : Nat} {job : RunJob}
    {next : Except RunnerError RunResult → Process} (hk : s.workers k = .running job next) :
    ∃ r, Db.run s.pg.db job.runId = some r ∧
      (r.status = .running ∨ r.status = .cancelled ∧ Cancelled (World.commits s.log) r.campaignId) := by
  obtain ⟨S, hc⟩ := custody h
  obtain ⟨hS, hinvoked, -⟩ : Holds ws S s.log k (.running job next) := hk ▸ hc.holds k
  obtain ⟨r, hr, hpend⟩ := hc.history.started _ (hc.trace.invokes k job hinvoked).2
  refine ⟨r, hr, ?_⟩
  by_cases hterm : r.status.isTerminal = true
  · rcases hc.history.ended _ r hr hterm with hcancelled | ⟨f, hf, -⟩
    · exact Or.inr hcancelled
    · -- A run that was finished is in nobody's hands.
      have := hc.finished _ f hf
      rw [hS] at this
      cases this
  · cases hst : r.status with
    | pending => exact absurd hst hpend
    | running => exact Or.inl rfl
    | _ => exact absurd (by rw [hst]; rfl) hterm

/-- The stream took an `Iterations` event. -/
def StreamState.TookIterations (x : StreamState) : Prop :=
  ∃ iterations elapsedSecs st, .progress iterations elapsedSecs st ∈ x.delivered

/-- The progress events of every stream say Running, which is what the run is when its runner publishes them. Only
    the streams that get such events have to keep abreast. -/
theorem labelled_while_abreast {s : Live} (hr : Live.Run ws (fun _ _ => true) s)
    (habreast : ∀ i, (s.streams i).TookIterations → Live.Run ws (abreastOf i) s) :
    (∀ i iterations elapsedSecs st, .progress iterations elapsedSecs st ∈ (s.streams i).delivered → st = .running) ∧
      ∀ k job next, s.world.workers k = .running job next → ∃ r, Db.run s.world.pg.db job.runId = some r ∧
        (r.status = .running ∨ r.status = .cancelled ∧ Cancelled (World.commits s.world.log) r.campaignId) :=
  ⟨fun i iterations elapsedSecs st hm =>
    (labelled_run (habreast i ⟨iterations, elapsedSecs, st, hm⟩)).2.1 iterations elapsedSecs st hm,
    fun _ _ _ hk => running_or_cancelled (Live.run_world hr) hk⟩

/-- Request 0 reads that run 2 is Pending, subscribes when the channel is open, and is told of the start. -/
def openingAct : List LiveAct :=
  (World.createAct ++ World.claimAct).map .world ++ [.request 0 2] ++
    (startCommits ++ [Act.reply 0, Act.proceed 0]).map .world ++
    [.subscribe 0, .world (.proceed 0), .world (.proceed 0), .publish 0 (.iterations 7 1), .recv 0, .recv 0]

theorem labelled_opening : ∃ s, Live.play (fun _ => tokenWorker) abreast .init openingAct = some s ∧
    (s.streams 0).delivered = [.status .running, .progress 7 1 .running] ∧
    (∀ i iterations elapsedSecs st, .progress iterations elapsedSecs st ∈ (s.streams i).delivered → st = .running) ∧
      ∀ k job next, s.world.workers k = .running job next → ∃ r, Db.run s.world.pg.db job.runId = some r ∧
        (r.status = .running ∨ r.status = .cancelled ∧ Cancelled (World.commits s.world.log) r.campaignId) := by
  have h : (Live.play (fun _ => tokenWorker) abreast .init openingAct).map (fun s => (s.streams 0).delivered) =
      some [.status .running, .progress 7 1 .running] := by decide
  obtain ⟨s, hs, hout⟩ := Option.map_eq_some_iff.mp h
  have hr := Live.play_run .init hs
  exact ⟨s, hs, hout, labelled_while_abreast (hr.mono fun _ _ _ => rfl) fun _ _ =>
    hr.mono fun _ _ => abreastOf_of_abreast⟩

/-! ## The late reader -/

/-- No campaign is cancelled, and runners publish no status but Running. -/
def uncancelled (_ : Live) : LiveAct → Bool
  | .world (.api (.cancelCampaign _)) => false
  | .publish _ event => event.ofRunner
  | _ => true

/-- Request 0 reads that run 2 is Pending, and subscribes after the worker said that it is Running. -/
def lateAct : List LiveAct :=
  (World.createAct ++ World.claimAct).map .world ++ [.request 0 2] ++ World.startAct.map .world ++
    [.subscribe 0, .publish 0 (.iterations 7 1), .recv 0]

theorem labelled_late_reader : ¬ ∀ (ws : Nat → Worker) (s : Live), Live.Run ws uncancelled s →
    ∀ i iterations elapsedSecs st, .progress iterations elapsedSecs st ∈ (s.streams i).delivered → st = .running := by
  intro hall
  have h : (Live.play (fun _ => tokenWorker) uncancelled .init lateAct).map (fun s => (s.streams 0).delivered) =
      some [.progress 7 1 .pending] := by decide
  obtain ⟨s, hs, hout⟩ := Option.map_eq_some_iff.mp h
  have hst := hall _ s (Live.play_run .init hs) 0 7 1 .pending (by rw [hout]; exact List.mem_singleton_self _)
  cases hst

end SoroFuzz.Queue
