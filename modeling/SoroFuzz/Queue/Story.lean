/-
  SoroFuzz.Queue.Story — what the live streams tell of a run, when the runner is a given
  program (`worker/mod.rs`, `worker/progress.rs`, `api/stream.rs`).

  A request's stream is on the channel of the run it asked for. A channel keeps 256 events,
  and a runner that is brief (`RunnerScript.Brief`) publishes no more than that. So no stream
  lags, whoever else watches and however slow it receives.

  Proved:
  - `tale_turn`, `tale_publish`, `tale_answer`: every turn of a worker or a runner goes on
    with the story of its run, on the run's channel.
  - `heard_run`: in every interleaving a stream has delivered what was told of its run since it
    subscribed, with no gap.
  - `story_heard`: that is a part of the run's story, and all the rest of it where the stream
    ended.
-/

import SoroFuzz.Queue.Carry
import SoroFuzz.Queue.Faithful
import SoroFuzz.Queue.Hub
import SoroFuzz.Queue.Scripted

namespace SoroFuzz.Queue

open SoroFuzz.Store
open Lib.Process
open Lib.Broadcast

variable {ws : Nat → Worker} {w : Worker} {runner : RunnerScript}

/-! ## The workers -/

/-- A runner that runs goes on running, but for its answer. -/
theorem running_stays {s s' : World} {a : Act} (h : World.step ws s a = some s')
    (ha : (LiveAct.world a).byRunner = false) {k : Nat} {job : RunJob}
    {next : Except RunnerError RunResult → Process} (hk : s.workers k = .running job next) :
    s'.workers k = .running job next := by
  have hgoto : ∀ {k' : Nat} {d : Doing} {log : List Event}, s.workers k' ≠ .running job next →
      (s.goto k' d log).workers k = .running job next := by
    intro k' d log hne
    have e : k ≠ k' := fun e => hne (e ▸ hk)
    exact (Function.update_of_ne e ..).trans hk
  cases a with
  | pg a =>
    cases a with
    | start => cases h
    | tick =>
      cases h
      exact hk
    | _ =>
      obtain ⟨pg, -, rfl⟩ := Option.map_eq_some_iff.mp h
      exact hk
  | api call =>
    simp only [World.step] at h
    split at h
    · obtain ⟨pg, -, rfl⟩ := Option.map_eq_some_iff.mp h
      exact hk
    · cases h
  | answer => cases ha
  | call k' tie ids =>
    simp only [World.step] at h
    split at h
    · rename_i op next' hk'
      obtain ⟨s1, hs1, rfl⟩ := Option.map_eq_some_iff.mp h
      obtain ⟨pg, -, rfl⟩ := Option.map_eq_some_iff.mp hs1
      have e : k ≠ k' := by
        rintro rfl
        cases hk.symm.trans hk'
      exact (Function.update_of_ne e ..).trans hk
    · cases h
  | reply k' =>
    simp only [World.step] at h
    split at h
    · rename_i tx op next' hk'
      obtain ⟨r, -, rfl⟩ := Option.map_eq_some_iff.mp h
      exact hgoto (by simp [hk'])
    · cases h
  | _ =>
    simp only [World.step] at h
    split at h <;> rename_i hk' <;> cases h <;> exact hgoto (by simp [hk'])

/-- The workers and their channels are as the chapters say. -/
structure Tale (ws : Nat → Worker) (runner : RunnerScript) (world : World) (hub : ProgressHub) (told : Nat → Nat)
    (chapter : Nat → Chapter) (owner : Nat → Uuid) : Prop where
  recounts : ∀ k, Recounts (ws k) (chapter k) (world.workers k)
  narrated : Narrated ws runner world.log hub told chapter owner

section turns
variable {world world' : World} {hub hub' : ProgressHub} {told told' : Nat → Nat} {chapter : Nat → Chapter}
  {owner owner' : Nat → Uuid} {k : Nat} {x : Chapter} {d : Doing}

theorem Tale.recounts_at (h : Tale ws runner world hub told chapter owner) (hk : world.workers k = d) :
    Recounts (ws k) (chapter k) d :=
  hk ▸ h.recounts k

/-- Worker `k` goes on to `d`, at chapter `x`. -/
theorem Tale.goto (h : Tale ws runner world hub told chapter owner)
    (hworkers : world'.workers = Function.update world.workers k d) (hd : Recounts (ws k) x d)
    (hn : Narrated ws runner world'.log hub' told' (Function.update chapter k x) owner') :
    Tale ws runner world' hub' told' (Function.update chapter k x) owner' where
  recounts j := by
    rw [hworkers]
    by_cases e : j = k
    · subst e
      rw [Function.update_self, Function.update_self]
      exact hd
    · rw [Function.update_of_ne e, Function.update_of_ne e]
      exact h.recounts j
  narrated := hn

/-- Worker `k` goes on to `d` in the same chapter. -/
theorem Tale.quiet (h : Tale ws runner world hub told chapter owner)
    (hworkers : world'.workers = Function.update world.workers k d) (hd : Recounts (ws k) (chapter k) d)
    (hlog : ∀ e, e ∈ world.log → e ∈ world'.log) : Tale ws runner world' hub told chapter owner := by
  have hself : Function.update chapter k (chapter k) = chapter := Function.update_eq_self ..
  have hnew := h.goto hworkers hd (hself.symm ▸ h.narrated.later hlog)
  rwa [hself] at hnew

end turns

/-- A turn of the workers that is not the runner's answer. -/
theorem tale_turn {s : Live} {told : Nat → Nat} {chapter : Nat → Chapter} {owner : Nat → Uuid} {world : World}
    {hub : ProgressHub} {hand : Nat → Hand} {S S' : Uuid → Stage}
    (h : Tale ws runner s.world s.progress told chapter owner) (hnum : Numbered s.progress)
    (hsure : Sure s.unwatched hand) (hc : Custody ws s.world S) (hc' : Custody ws world S')
    (hlog : ∀ e, e ∈ s.world.log → e ∈ world.log) (hturn : Live.Turn ws s world hub)
    (hstays : ∀ k job next, s.world.workers k = .running job next → world.workers k = .running job next) :
    ∃ chapter' owner', Tale ws runner world hub told chapter' owner' ∧ ∀ c < s.progress.opened, owner' c = owner c := by
  have htold : ∀ k, Function.update told k (told k) = told := fun k => Function.update_eq_self ..
  cases hturn with
  | still hw =>
    exact ⟨chapter, owner, ⟨fun k => by rw [hw]; exact h.recounts k, h.narrated.later hlog⟩, fun _ _ => rfl⟩
  | poll k hk hw =>
    have haway : chapter k = .away := h.recounts_at hk
    exact ⟨chapter, owner, h.quiet hw (haway ▸ runLoop_narrates) hlog, fun _ _ => rfl⟩
  | call k tx op next hk hw =>
    exact ⟨chapter, owner, h.quiet hw (narrates_store (h.recounts_at hk)) hlog, fun _ _ => rfl⟩
  | reply k op next r hk hw =>
    have hnext : ∀ r, Narrates (ws k) (chapter k) (next r) := by
      rcases hk with hk | ⟨tx, hk⟩
      · exact (narrates_store (h.recounts_at hk)).2
      · exact (h.recounts_at hk).2
    exact ⟨chapter, owner, h.quiet hw (hnext r) hlog, fun _ _ => rfl⟩
  | publisher k runId next hk hw =>
    have hr := h.recounts_at hk
    have hnone : s.progress.channels runId = none :=
      hsure.wired.hub_none fun k' => publisher_alone hc hk (hsure.talks k')
    cases hx : chapter k with
    | away =>
      rw [hx] at hr
      have hn := narrated_publisher (h.narrated.later hlog) hnum hnone hx
      exact ⟨_, _, h.goto hw (hr.2 ()) hn, fun c hlt => Function.update_of_ne (Nat.ne_of_lt hlt) ..⟩
    | _ =>
      rw [hx] at hr
      exact hr.1.elim
  | emit k runId event next hk hw =>
    have hr := h.recounts_at hk
    cases hx : chapter k with
    | opened r =>
      rw [hx] at hr
      obtain ⟨⟨rfl, rfl⟩, hnext⟩ := hr
      obtain ⟨c, hchan, ho, hsaid⟩ := h.narrated.publisher k runId (by rw [hx]; rfl)
      rw [hx] at hsaid
      have hsent : (s.progress.broadcasts c).sent ++ [.status .running] = [.status .running] := by
        rw [show (s.progress.broadcasts c).sent = [] from hsaid, List.nil_append]
      have hn := narrated_emit h.narrated hlog hchan (.status .running) (x := .begun runId) (n := told k)
        (congrArg some ho.symm) hsent (fun _ hj => by cases hj)
        (fun _ => h.narrated.resting k fun job => by simp [hx]) (.opening (by rw [hsent]))
      rw [htold] at hn
      exact ⟨_, owner, h.goto hw (hnext ()) hn, fun _ _ => rfl⟩
    | ran job answer =>
      rw [hx] at hr
      obtain ⟨⟨rfl, rfl⟩, hnext⟩ := hr
      obtain ⟨c, hchan, ho, hsaid⟩ := h.narrated.publisher k job.runId (by rw [hx]; rfl)
      rw [hx] at hsaid
      obtain ⟨hsent, rfl⟩ := hsaid
      have hinvoked := hlog _ (h.narrated.invoked k job (by rw [hx]; rfl))
      have hstory : (s.progress.broadcasts c).sent ++ [.status ((ws k).outcome job (runner job).2)] =
          story (ws k) runner job := by
        rw [hsent]
        rfl
      have hn := narrated_emit h.narrated hlog hchan (.status ((ws k).outcome job (runner job).2))
        (x := .finished job (runner job).2) (n := told k) (congrArg some ho.symm) hstory
        (fun job' hj => by cases hj; exact hinvoked) (fun _ => h.narrated.resting k fun job => by simp [hx])
        (.story k job hinvoked ho.symm (by rw [hstory]))
      rw [htold] at hn
      exact ⟨_, owner, h.goto hw (hnext ()) hn, fun _ _ => rfl⟩
    | _ =>
      rw [hx] at hr
      exact hr.1.elim
  | close k runId next hk hw =>
    have hr := h.recounts_at hk
    cases hx : chapter k with
    | finished job answer =>
      rw [hx] at hr
      obtain ⟨rfl, hnext⟩ := hr
      have hn := narrated_close (k := k) h.narrated hlog (h.narrated.resting k fun job => by simp [hx]) job.runId
      exact ⟨_, owner, h.goto hw (hnext ()) hn, fun _ _ => rfl⟩
    | _ =>
      rw [hx] at hr
      exact hr.1.elim
  | run k job next hk hw =>
    have hr := h.recounts_at hk
    cases hx : chapter k with
    | begun r =>
      rw [hx] at hr
      obtain ⟨rfl, hnext⟩ := hr
      obtain ⟨c, hchan, ho, hsaid⟩ := h.narrated.publisher k job.runId (by rw [hx]; rfl)
      rw [hx] at hsaid
      have hzero := h.narrated.resting k fun job => by simp [hx]
      have hinvoked : .invoked k job ∈ world.log := by
        have hheld := hc'.holds k
        rw [hw, Function.update_self] at hheld
        exact hheld.2.1
      have hn := narrated_goto h.narrated hlog hnum hchan (x := .running job) (n := told k) (congrArg some ho.symm)
        (by rw [Said, hzero]; exact hsaid) (fun job' hj => by cases hj; exact hinvoked)
        (fun hno => absurd rfl (hno job))
      rw [htold] at hn
      exact ⟨_, owner, h.goto hw ⟨rfl, hnext⟩ hn, fun _ _ => rfl⟩
    | _ =>
      rw [hx] at hr
      exact hr.1.elim
  | answer k job next a hk hw =>
    -- The worker's runner would have answered.
    have hstay := hstays k job next hk
    rw [hw, Function.update_self] at hstay
    cases hstay

/-- The runner publishes its next event. -/
theorem tale_publish {s : Live} {told : Nat → Nat} {chapter : Nat → Chapter} {owner : Nat → Uuid} {k : Nat}
    {event : ProgressEvent} {job : RunJob} {next : Except RunnerError RunResult → Process}
    (h : Tale ws runner s.world s.progress told chapter owner) (hk : s.world.workers k = .running job next)
    (he : (runner job).1[told k]? = some event) :
    Tale ws runner s.world (s.progress.emit k event) (Function.update told k (told k + 1)) chapter owner := by
  obtain ⟨hx, -⟩ := h.recounts_at hk
  obtain ⟨c, hchan, ho, hsaid⟩ := h.narrated.publisher k job.runId (by rw [hx]; rfl)
  have hinvoked := h.narrated.invoked k job (by rw [hx]; rfl)
  rw [hx] at hsaid
  have htaken : (runner job).1.take (told k + 1) = (runner job).1.take (told k) ++ [event] := by
    rw [List.take_add_one, he, Option.toList_some]
  have hsent : (s.progress.broadcasts c).sent ++ [event] = .status .running :: (runner job).1.take (told k + 1) := by
    rw [htaken, show (s.progress.broadcasts c).sent = _ from hsaid, List.cons_append]
  have hpre : .status .running :: (runner job).1.take (told k + 1) <+: story (ws k) runner job :=
    (List.prefix_cons_inj _).mpr ((List.take_prefix ..).trans (List.prefix_append ..))
  have hn := narrated_emit h.narrated (fun _ => id) hchan event (x := .running job) (n := told k + 1)
    (congrArg some ho.symm) hsent (fun job' hj => by cases hj; exact hinvoked) (fun hno => absurd rfl (hno job))
    (.story k job hinvoked ho.symm (hsent ▸ hpre))
  rw [← hx, Function.update_eq_self] at hn
  exact ⟨h.recounts, hn⟩

/-- The runner has published all, and answers. -/
theorem tale_answer {s : Live} {told : Nat → Nat} {chapter : Nat → Chapter} {owner : Nat → Uuid} {k : Nat}
    {job : RunJob} {next : Except RunnerError RunResult → Process} {world : World}
    (h : Tale ws runner s.world s.progress told chapter owner) (hnum : Numbered s.progress)
    (hk : s.world.workers k = .running job next) (hall : told k = (runner job).1.length)
    (hstep : World.step ws s.world (.answer k (runner job).2) = some world) :
    Tale ws runner world s.progress (Function.update told k 0)
      (Function.update chapter k (.ran job (runner job).2)) owner := by
  obtain ⟨hx, hnext⟩ := h.recounts_at hk
  obtain ⟨c, hchan, ho, hsaid⟩ := h.narrated.publisher k job.runId (by rw [hx]; rfl)
  have hinvoked := h.narrated.invoked k job (by rw [hx]; rfl)
  rw [hx, Said, hall, List.take_length] at hsaid
  simp only [World.step, hk] at hstep
  cases hstep
  have hlog : ∀ e, e ∈ s.world.log → e ∈ .ran k job (runner job).2 :: s.world.log := fun _ => List.mem_cons_of_mem _
  have hn := narrated_goto h.narrated hlog hnum hchan (x := .ran job (runner job).2) (n := 0) (congrArg some ho.symm)
    ⟨hsaid, rfl⟩ (fun job' hj => by cases hj; exact hlog _ hinvoked) (fun _ => rfl)
  exact h.goto rfl (hnext _) hn

/-! ## The streams -/

/-- A request for the run has a stream that delivers what is told on the run's channel since
    it subscribed, or it has none. -/
def Hears (hub : ProgressHub) (owner : Nat → Uuid) (runId : Uuid) : StreamState → Prop
  | .idle => False
  | .notFound => True
  | .found id _ => id = runId
  | .live c next last out => c < hub.opened ∧ owner c = runId ∧ ∃ since st taken,
      Took (hub.broadcasts c) since next false taken ∧ out = rendered st taken ∧
        last = taken.foldl ProgressEvent.after st
  | .ended out => (∃ st, out = [.status st]) ∨ ∃ c since st, c < hub.opened ∧ owner c = runId ∧
      Over Terminal (hub.broadcasts c) ∧ out = rendered st ((hub.broadcasts c).sent.drop since)

theorem Hears.later {hub hub' : ProgressHub} {owner owner' : Nat → Uuid} {runId : Uuid} {x : StreamState}
    (h : Hears hub owner runId x) (hg : Grows hub hub') (hs : ∀ c, Sealed Terminal (hub'.broadcasts c))
    (ho : ∀ c < hub.opened, owner' c = owner c) : Hears hub' owner' runId x := by
  cases x with
  | live c next last out =>
    obtain ⟨hc, hown, since, st, taken, ht, hout, hlast⟩ := h
    exact ⟨Nat.lt_of_lt_of_le hc hg.opened, (ho c hc).trans hown, since, st, taken, ht.later (hg.sent c hc), hout,
      hlast⟩
  | ended out =>
    rcases h with h | ⟨c, since, st, hc, hown, hover, hout⟩
    · exact Or.inl h
    · have hsame := hover.same (hs c) (hg.sent c hc)
      refine Or.inr ⟨c, since, st, Nat.lt_of_lt_of_le hc hg.opened, (ho c hc).trans hown, ?_, hsame ▸ hout⟩
      rw [Over, hsame]
      exact hover
  | _ => exact h

/-- Where no more was ever sent than the channel keeps, nothing is missed. -/
theorem hears_recv {hub : ProgressHub} {owner : Nat → Uuid} {runId : Uuid} {c next next' : Nat} {last : RunStatus}
    {out : List SseEvent} {got : Got ProgressEvent} (h : Hears hub owner runId (.live c next last out))
    (hs : Sealed Terminal (hub.broadcasts c))
    (hclosed : (hub.broadcasts c).senders = 0 → Over Terminal (hub.broadcasts c))
    (hshort : (hub.broadcasts c).sent.length ≤ channelCapacity)
    (hr : (hub.broadcasts c).recv channelCapacity next = some (got, next')) :
    Hears hub owner runId (.received c next' last out got) := by
  obtain ⟨hc, hown, since, st, taken, ht, rfl, rfl⟩ := h
  -- At the channel's end the stream has taken all of it.
  have hend : ∀ {next taken}, Took (hub.broadcasts c) since next false taken →
      (hub.broadcasts c).sent.length ≤ next → taken = (hub.broadcasts c).sent.drop since := by
    intro next taken ht hle
    rw [ht.all rfl, Channel.span, List.take_of_length_le hle]
  cases recv_cases hr with
  | lagged hlag => omega
  | closed hlen h0 => exact Or.inr ⟨c, since, st, hc, hown, hclosed h0, by rw [← hend ht hlen]⟩
  | ok e _ he =>
    have ht' := took_ok ht he
    have hout : rendered st taken ++ [e.sse (taken.foldl ProgressEvent.after st)] = rendered st (taken ++ [e]) :=
      (rendered_append taken [e]).symm
    rw [received_ok, hout]
    split
    · rename_i hterm
      have hover : Over Terminal (hub.broadcasts c) := hs.over (List.mem_of_getElem? he) hterm
      exact Or.inr ⟨c, since, st, hc, hown, hover, by rw [← hend ht' (Nat.le_of_eq (hs next e he hterm).symm)]⟩
    · exact ⟨hc, hown, since, st, taken ++ [e], ht', rfl, by rw [List.foldl_append]; rfl⟩

/-! ## Every interleaving -/

/-- The runner publishes no terminal status, and no more than a channel keeps. -/
structure RunnerScript.Brief (runner : RunnerScript) : Prop where
  quiet : ∀ job, ∀ e ∈ (runner job).1, ¬ Terminal e
  short : ∀ job, (runner job).1.length + 2 ≤ channelCapacity

structure Heard (ws : Nat → Worker) (runner : RunnerScript) (acts : List ScriptedAct) (s : Scripted)
    (chapter : Nat → Chapter) (owner : Nat → Uuid) : Prop where
  tale : Tale ws runner s.live.world s.live.progress s.told chapter owner
  streams : ∀ i runId, .live (.request i runId) ∈ acts → Hears s.live.progress owner runId (s.live.streams i)

section steps
variable {acts : List ScriptedAct} {s s' : Scripted} {chapter : Nat → Chapter} {owner : Nat → Uuid}
  {log : List Event} {runId : Uuid} {sent : List ProgressEvent}

theorem Part.length_le (h : Part ws runner log runId sent) (hb : runner.Brief) : sent.length ≤ channelCapacity := by
  cases h with
  | opening h => exact Nat.le_trans h.length_le (by decide)
  | story k job _ _ h =>
    have hlen : (Queue.story (ws k) runner job).length = (runner job).1.length + 2 := by simp [Queue.story]
    exact Nat.le_trans h.length_le (hlen ▸ hb.short job)

/-- Stream `j` goes on to `x`, with no request made. -/
theorem Heard.setStream (h : Heard ws runner acts s chapter owner) {a : LiveAct} {j : Nat} {x : StreamState}
    (ha : ∀ i runId, a ≠ .request i runId)
    (hx : ∀ runId, Hears s.live.progress owner runId (s.live.streams j) → Hears s.live.progress owner runId x) :
    Heard ws runner (.live a :: acts) { s with live := s.live.setStream j x } chapter owner where
  tale := h.tale
  streams i runId hm := by
    have hm := (List.mem_cons.mp hm).resolve_left fun e => ha i runId (ScriptedAct.live.inj e).symm
    show Hears s.live.progress owner runId (Function.update s.live.streams j x i)
    by_cases e : i = j
    · subst e
      rw [Function.update_self]
      exact hx runId (h.streams i runId hm)
    · rw [Function.update_of_ne e]
      exact h.streams i runId hm

/-- Request `j` is made, for the first time. -/
theorem Heard.request (h : Heard ws runner acts s chapter owner) {j : Nat} {runId : Uuid} {x : StreamState}
    (hidle : s.live.streams j = .idle) (hx : Hears s.live.progress owner runId x) :
    Heard ws runner (.live (.request j runId) :: acts) { s with live := s.live.setStream j x } chapter owner where
  tale := h.tale
  streams i runId' hm := by
    show Hears s.live.progress owner runId' (Function.update s.live.streams j x i)
    rcases List.mem_cons.mp hm with heq | hold
    · cases heq
      rw [Function.update_self]
      exact hx
    · have hheard := h.streams i runId' hold
      have hne : i ≠ j := by
        rintro rfl
        rw [hidle] at hheard
        exact hheard
      rw [Function.update_of_ne hne]
      exact hheard

/-- The workers or a runner go on, and the streams have what they had. -/
theorem Heard.hub (h : Heard ws runner acts s chapter owner) {a : ScriptedAct} {live : Live} {told : Nat → Nat}
    {chapter' : Nat → Chapter} {owner' : Nat → Uuid} (ha : ∀ i runId, a ≠ .live (.request i runId))
    (htale : Tale ws runner live.world live.progress told chapter' owner') (hstreams : live.streams = s.live.streams)
    (hg : Grows s.live.progress live.progress) (hs : ∀ c, Sealed Terminal (live.progress.broadcasts c))
    (ho : ∀ c < s.live.progress.opened, owner' c = owner c) :
    Heard ws runner (a :: acts) ⟨live, told⟩ chapter' owner' where
  tale := htale
  streams i runId hm := by
    have hm := (List.mem_cons.mp hm).resolve_left fun e => ha i runId e.symm
    rw [hstreams]
    exact (h.streams i runId hm).later hg hs ho

theorem heard_live (hb : runner.Brief) (hr : Scripted.Run ws runner acts s)
    (h : Heard ws runner acts s chapter owner) {a : LiveAct} {live : Live} (ha : a.byRunner = false)
    (hstep : Live.step ws s.live a = some live) :
    ∃ chapter' owner', Heard ws runner (.live a :: acts) { s with live } chapter' owner' := by
  have hlive := Scripted.run_live hr
  have hlive' : Live.Run ws (fun _ _ => true) live := .step a hlive rfl hstep
  have hnum := Live.numbered_run hlive
  obtain ⟨hand, hsure⟩ := wired_run hlive
  obtain ⟨hand', hsure'⟩ := wired_run hlive'
  have hwired : Wired s.live.progress hand := hsure.wired
  have hwired' : Wired live.progress hand' := hsure'.wired
  cases Live.step_cases hstep with
  | world a world hw =>
    obtain ⟨S, hc⟩ := custody (Live.run_world hlive)
    obtain ⟨S', hc'⟩ := custody (.step a (Live.run_world hlive) hw)
    have hturn := Live.turn_of_step hw
    obtain ⟨chapter', owner', ht, ho⟩ := tale_turn h.tale hnum hsure hc hc' (World.step_cases hw).log_subset hturn
      fun k job next hk => running_stays hw ha hk
    exact ⟨chapter', owner', h.hub (fun i runId e => by cases e) ht rfl hturn.grows hwired'.sealed ho⟩
  | publish => cases ha
  | notFound i runId hi => exact ⟨chapter, owner, h.request hi trivial⟩
  | found i runId record hi => exact ⟨chapter, owner, h.request hi rfl⟩
  | subscribed i runId st c hi hchan =>
    refine ⟨chapter, owner, h.setStream (fun j r e => by cases e) fun r hheard => ?_⟩
    rw [hi] at hheard
    obtain rfl : runId = r := hheard
    exact ⟨hnum.channel runId c hchan, h.tale.narrated.channel runId c hchan, _, st, [], took_subscribe _, rfl, rfl⟩
  | missed i runId st =>
    exact ⟨chapter, owner, h.setStream (fun j r e => by cases e) fun _ _ => Or.inl ⟨st, rfl⟩⟩
  | recv i c next next' st out got hi hrecv =>
    refine ⟨chapter, owner, h.setStream (fun j r e => by cases e) fun r hheard => ?_⟩
    rw [hi] at hheard
    have hc : c < s.live.progress.opened := hheard.1
    exact hears_recv hheard (hwired.sealed c) (hwired.closed c hc) ((h.tale.narrated.part c hc).length_le hb) hrecv

theorem heard_step (hb : runner.Brief) (hr : Scripted.Run ws runner acts s) (h : Heard ws runner acts s chapter owner)
    {a : ScriptedAct} (hstep : Scripted.step ws runner s a = some s') :
    ∃ chapter' owner', Heard ws runner (a :: acts) s' chapter' owner' := by
  have hlive := Scripted.run_live hr
  have hlive' := Scripted.run_live (.step a hr hstep)
  have hnum := Live.numbered_run hlive
  obtain ⟨hand', hsure'⟩ := wired_run hlive'
  have hwired' : Wired s'.live.progress hand' := hsure'.wired
  cases Scripted.step_cases hstep with
  | live a live ha hl => exact heard_live hb hr h ha hl
  | publish k event job next live hk he hl =>
    cases Live.step_cases hl with
    | publish =>
      exact ⟨chapter, owner, h.hub (fun i runId e => by cases e) (tale_publish h.tale hk he) rfl
        (grows_emit k event) hwired'.sealed fun _ _ => rfl⟩
  | answer k job next live hk hall hl =>
    cases Live.step_cases hl with
    | world a world hw =>
      have ht := tale_answer h.tale hnum hk hall hw
      exact ⟨_, owner, h.hub (fun i runId e => by cases e) ht rfl (.refl _) hwired'.sealed fun _ _ => rfl⟩

theorem heard_run (hb : runner.Brief) (hr : Scripted.Run ws runner acts s) :
    ∃ chapter owner, Heard ws runner acts s chapter owner := by
  induction hr with
  | init =>
    refine ⟨fun _ => .away, fun _ => 0, ⟨fun _ => rfl, ?_⟩, fun _ _ hm => (by cases hm)⟩
    exact ⟨fun _ _ h => (by cases h), fun _ _ h => (by cases h), fun _ _ => rfl, fun _ _ _ h => (by cases h),
      fun _ _ h => (by cases h), fun c hc => absurd hc (Nat.not_lt_zero c)⟩
  | step a hr hs ih =>
    obtain ⟨chapter, owner, ht⟩ := ih
    exact heard_step hb hr ht hs

end steps

/-! ## What a stream tells -/

/-- What a request's stream has delivered of the run it asked for. -/
inductive Tidings (ws : Nat → Worker) (runner : RunnerScript) (log : List Event) (runId : Uuid)
    (x : StreamState) : Prop
  /-- It found no channel, and ended on the status it had read. -/
  | read (st : RunStatus) : x = .ended [.status st] → Tidings ws runner log runId x
  | opening : (∀ out, x ≠ .ended out) → x.delivered.Sublist [.status .running] → Tidings ws runner log runId x
  | story (k : Nat) (job : RunJob) (since next : Nat) (st : RunStatus) : .invoked k job ∈ log → job.runId = runId →
      x.delivered = rendered st (((story (ws k) runner job).take next).drop since) →
      (∀ out, x = .ended out → next = (story (ws k) runner job).length) → Tidings ws runner log runId x

/-- Nothing but the whole story ends with a terminal status. -/
theorem story_of_over (hb : runner.Brief) {w : Worker} {job : RunJob} {c : Channel ProgressEvent}
    (hc : c.sent <+: story w runner job) (ho : Over Terminal c) : c.sent = story w runner job := by
  rcases List.prefix_concat_iff.mp hc with h | h
  · exact h
  · obtain ⟨e, he, hterm⟩ := ho
    rcases List.mem_cons.mp (h.subset (List.mem_of_getLast? he)) with rfl | hmem
    · cases hterm
    · exact absurd hterm (hb.quiet job e hmem)

theorem not_over_opening {c : Channel ProgressEvent} (hc : c.sent <+: [.status .running]) : ¬ Over Terminal c := by
  rintro ⟨e, he, hterm⟩
  obtain rfl := List.mem_singleton.mp (hc.subset (List.mem_of_getLast? he))
  cases hterm

/-- A stream that asked for a run is told the run's story, from where it subscribed on and without a gap. -/
theorem story_heard (hb : runner.Brief) {acts : List ScriptedAct} {s : Scripted} (hr : Scripted.Run ws runner acts s)
    {i : Nat} {runId : Uuid} (hreq : .live (.request i runId) ∈ acts) :
    Tidings ws runner s.live.world.log runId (s.live.streams i) := by
  obtain ⟨chapter, owner, hheard⟩ := heard_run hb hr
  have hx := hheard.streams i runId hreq
  cases hi : s.live.streams i with
  | idle =>
    rw [hi] at hx
    exact hx.elim
  | notFound | found => exact .opening (fun _ e => by cases e) (List.nil_sublist _)
  | live c next last out =>
    rw [hi] at hx
    obtain ⟨hc, rfl, since, st, taken, ht, rfl, -⟩ := hx
    have htaken : taken = ((s.live.progress.broadcasts c).sent.take next).drop since := ht.all rfl
    cases hheard.tale.narrated.part c hc with
    | opening h =>
      refine .opening (fun _ e => by cases e) ?_
      have hsub : taken.Sublist [.status .running] := by
        rw [htaken]
        exact ((List.drop_sublist _ _).trans (List.take_sublist _ _)).trans h.sublist
      rcases List.sublist_singleton.mp hsub with rfl | rfl
      · exact List.nil_sublist _
      · exact List.Sublist.refl _
    | story k job hm hrun h =>
      refine .story k job since next st hm hrun ?_ (fun _ e => by cases e)
      rw [StreamState.delivered, htaken, List.prefix_iff_eq_take.mp h, List.take_take, Nat.min_eq_left ht.next_le]
  | ended out =>
    rw [hi] at hx
    rcases hx with ⟨st, rfl⟩ | ⟨c, since, st, hc, rfl, hover, rfl⟩
    · exact .read st rfl
    · cases hheard.tale.narrated.part c hc with
      | opening h => exact absurd hover (not_over_opening h)
      | story k job hm hrun h =>
        refine .story k job since _ st hm hrun ?_ (fun _ _ => rfl)
        rw [StreamState.delivered, story_of_over hb h hover, List.take_length]

/-! ## The runner's answer -/

/-- What a step that is not the runner's adds to the log is no answer of the runner's. -/
theorem ran_old {s s' : World} {a : Act} (h : World.step ws s a = some s') (ha : (LiveAct.world a).byRunner = false)
    {k : Nat} {job : RunJob} {answer : Except RunnerError RunResult} (hm : .ran k job answer ∈ s'.log) :
    .ran k job answer ∈ s.log := by
  cases World.step_cases h with
  | tick | poll | publisher => exact hm
  | call => exact (List.mem_cons.mp ((List.mem_cons.mp hm).resolve_left (by simp))).resolve_left (by simp)
  | answer k' job' next answer' hk =>
    have hstay : Function.update s.workers k' (.at (next answer')) k' = .running job' next := running_stays h ha hk
    rw [Function.update_self] at hstay
    cases hstay
  | _ => exact (List.mem_cons.mp hm).resolve_left (by simp)

/-- A runner answers what it answers of the job. -/
theorem answered_run {acts : List ScriptedAct} {s : Scripted} (h : Scripted.Run ws runner acts s) {k : Nat}
    {job : RunJob} {answer : Except RunnerError RunResult} (hm : .ran k job answer ∈ s.live.world.log) :
    answer = (runner job).2 := by
  induction h with
  | init => cases hm
  | step a _ hs ih =>
    cases Scripted.step_cases hs with
    | live a live ha hl =>
      cases Live.step_cases hl with
      | world a world hw => exact ih (ran_old hw ha hm)
      | _ => exact ih hm
    | publish k' event job' next live _ _ hl =>
      cases Live.step_cases hl with
      | publish => exact ih hm
    | answer k' job' next live hk _ hl =>
      cases Live.step_cases hl with
      | world a world hw =>
        simp only [World.step, hk] at hw
        cases hw
        rcases List.mem_cons.mp hm with heq | hm
        · cases heq
          rfl
        · exact ih hm

/-- A run is given to one runner, as one job. -/
theorem invoked_unique {log : List Event} (h : (invokedRuns log).Nodup) {k k' : Nat} {job job' : RunJob}
    (hm : .invoked k job ∈ log) (hm' : .invoked k' job' ∈ log) (hrun : job.runId = job'.runId) :
    k = k' ∧ job = job' := by
  induction log with
  | nil => cases hm
  | cons e log ih =>
    have hhead : ∀ {k job k' job'}, e = .invoked k job → .invoked k' job' ∈ log → job.runId ≠ job'.runId := by
      rintro k job k' job' rfl hin hrun
      exact (List.nodup_cons.mp h).1 (hrun ▸ Trace.mem_invokedRuns.mpr ⟨k', job', hin, rfl⟩)
    rcases List.mem_cons.mp hm with he | hin <;> rcases List.mem_cons.mp hm' with he' | hin'
    · cases he.trans he'.symm
      exact ⟨rfl, rfl⟩
    · exact absurd hrun (hhead he.symm hin')
    · exact absurd hrun.symm (hhead he'.symm hin)
    · refine ih ?_ hin hin'
      cases e with
      | invoked => exact (List.nodup_cons.mp h).2
      | _ => exact h

end SoroFuzz.Queue
