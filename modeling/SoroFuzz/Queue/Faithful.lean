/-
  SoroFuzz.Queue.Faithful — what a live stream delivers of what a run publishes
  (`worker/progress.rs`, `api/stream.rs`).

  A stream delivers each event it takes from the run's channel (`rendered`), and what it
  takes is what was sent since it subscribed, with gaps where it lagged (`Shows`). The
  terminal status is sent last, and a channel keeps its last events, so no gap reaches it.

  `Feed` is one run's channel on its own: a publisher that has a list of events to
  publish, and one stream.

  Proved:
  - `stream_faithful`: whatever is published, wherever the stream subscribes and however
    publishing and receiving interleave, a stream that ended was faithful.
  - `stream_ends`: once all is published, receiving ends the stream.
  - `live_faithful`: so is a stream of the server that ended, when it subscribed before the
    terminal status was out.
-/

import SoroFuzz.Queue.Fresh

namespace SoroFuzz.Queue

open SoroFuzz.Store
open Lib.Process
open Lib.Broadcast

/-! ## Delivery -/

/-- The event as a stream delivers it whose last status was `lastStatus`. -/
def ProgressEvent.sse (lastStatus : RunStatus) : ProgressEvent → SseEvent
  | .iterations count elapsedSecs => .progress count elapsedSecs lastStatus
  | .log line level => .log line (logLevelStr level)
  | .finding invariant stepIndex => .finding "" invariant stepIndex
  | .status st => .status st

/-- `last_status`, after the event. -/
def ProgressEvent.after (lastStatus : RunStatus) : ProgressEvent → RunStatus
  | .status st => st
  | .iterations _ _ | .log _ _ | .finding _ _ => lastStatus

def rendered (lastStatus : RunStatus) : List ProgressEvent → List SseEvent
  | [] => []
  | e :: es => e.sse lastStatus :: rendered (e.after lastStatus) es

/-- What a stream delivers that subscribed at `since`, when `published` is all there is. -/
def Faithful (published : List ProgressEvent) (since : Nat) (initialStatus : RunStatus) (lagged : Bool)
    (out : List SseEvent) : Prop :=
  ∃ taken : List ProgressEvent, out = rendered initialStatus taken ∧
    taken.Sublist (published.drop since) ∧ (lagged = false → taken = published.drop since) ∧
    taken.getLast? = published.getLast?

/-- Where a stream of channel `c` is, with what it has delivered. -/
def Shows (c : Channel ProgressEvent) (since : Nat) (initialStatus : RunStatus) (lagged : Bool) : StreamState → Prop
  | .live _ next lastStatus out =>
    Ahead Terminal c next ∧ ∃ taken, Took c since next lagged taken ∧ out = rendered initialStatus taken ∧
      lastStatus = taken.foldl ProgressEvent.after initialStatus
  | .ended out => Over Terminal c ∧ Faithful c.sent since initialStatus lagged out
  | .idle | .notFound | .found _ _ => False

variable {st : RunStatus}

theorem rendered_append (es es' : List ProgressEvent) :
    rendered st (es ++ es') = rendered st es ++ rendered (es.foldl ProgressEvent.after st) es' := by
  induction es generalizing st with
  | nil => rfl
  | cons e es ih => simp [rendered, ih]

theorem status_mem_rendered {t : RunStatus} {es : List ProgressEvent} (h : .status t ∈ rendered st es) :
    .status t ∈ es := by
  induction es generalizing st with
  | nil => cases h
  | cons e es ih =>
    rcases List.mem_cons.mp h with heq | h
    · cases e <;> cases heq
      exact List.mem_cons_self
    · exact List.mem_cons_of_mem _ (ih h)

/-- The terminal status comes last, and there is none before. -/
theorem Faithful.last {events : List ProgressEvent} {t : RunStatus} {since : Nat} {lagged : Bool} {out : List SseEvent}
    (h : Faithful (events ++ [.status t]) since st lagged out) (hev : ∀ e ∈ events, ¬ Terminal e) :
    out.getLast? = some (.status t) ∧ ∀ t', .status t' ∈ out.dropLast → t'.isTerminal = false := by
  obtain ⟨taken, rfl, hsub, -, hlast⟩ := h
  rw [List.getLast?_concat] at hlast
  obtain ⟨es, rfl⟩ : ∃ es, taken = es ++ [.status t] := List.getLast?_eq_some_iff.mp hlast
  have hes : es.Sublist events :=
    (List.append_sublist_append_right _).mp (hsub.trans (List.drop_sublist _ _))
  have hout : rendered st (es ++ [.status t]) = rendered st es ++ [.status t] := rendered_append es _
  rw [hout, List.getLast?_concat, List.dropLast_concat]
  refine ⟨rfl, fun t' ht' => ?_⟩
  have := hev _ (hes.subset (status_mem_rendered ht'))
  exact Bool.eq_false_iff.mpr this

theorem received_ok (n next : Nat) (out : List SseEvent) (e : ProgressEvent) :
    StreamState.received n next st out (.ok e) =
      if e.terminal then .ended (out ++ [e.sse st]) else .live n next (e.after st) (out ++ [e.sse st]) := by
  cases e with
  | status st' => rfl
  | _ => exact (if_neg Bool.false_ne_true).symm

theorem received_live_or_ended (n next : Nat) (last : RunStatus) (out : List SseEvent) (got : Got ProgressEvent) :
    (∃ last' out', StreamState.received n next last out got = .live n next last' out') ∨
      ∃ out', StreamState.received n next last out got = .ended out' := by
  cases got with
  | ok e =>
    rw [received_ok]
    split
    · exact Or.inr ⟨_, rfl⟩
    · exact Or.inl ⟨_, _, rfl⟩
  | lagged => exact Or.inl ⟨_, _, rfl⟩
  | closed => exact Or.inr ⟨_, rfl⟩

section recv
variable {c : Channel ProgressEvent} {since n next next' : Nat} {last : RunStatus} {lagged : Bool}
  {out : List SseEvent} {got : Got ProgressEvent}

/-- A stream goes on, or it got the terminal status, and ends with all that it took. -/
theorem shows_recv (hs : Sealed Terminal c) (hclosed : c.senders = 0 → Over Terminal c)
    (h : Shows c since st lagged (.live n next last out)) (hr : c.recv channelCapacity next = some (got, next')) :
    Shows c since st (lagged || got.isLagged) (.received n next' last out got) := by
  obtain ⟨ha, taken, ht, rfl, rfl⟩ := h
  have hgo : (∃ e, got = .ok e ∧ Terminal e) ∨ Ahead Terminal c next' := ahead_recv (by decide) hs ha hr
  cases recv_cases hr with
  | lagged hlag =>
    rw [Got.isLagged, Bool.or_true]
    have ha' : Ahead Terminal c (c.sent.length - channelCapacity) := hgo.resolve_left (by simp)
    exact ⟨ha', taken, took_lagged ht (by omega) (Nat.sub_le _ _), rfl, rfl⟩
  | closed _ h0 => exact absurd hr (not_closed ha (hclosed h0))
  | ok e _ he =>
    rw [Got.isLagged, Bool.or_false, received_ok]
    have htook := took_ok ht he
    have hout : rendered st taken ++ [e.sse (taken.foldl ProgressEvent.after st)] = rendered st (taken ++ [e]) := by
      rw [rendered_append]
      rfl
    split
    · -- Nothing was sent after the terminal status.
      rename_i hterm
      have hend : next + 1 = c.sent.length := hs next e he hterm
      have hlast : c.sent.getLast? = some e := by rw [List.getLast?_eq_getElem?, ← hend, Nat.add_sub_cancel, he]
      have hspan : c.span since (next + 1) = c.sent.drop since := by rw [Channel.span, hend, List.take_length]
      refine ⟨⟨e, hlast, hterm⟩, taken ++ [e], hout, hspan ▸ htook.sublist, fun hl => hspan ▸ htook.all hl, ?_⟩
      rw [List.getLast?_concat, hlast]
    · rename_i hterm
      have ha' : Ahead Terminal c (next + 1) := by
        refine hgo.resolve_left ?_
        rintro ⟨e', he', hterm'⟩
        cases he'
        exact hterm hterm'
      refine ⟨ha', taken ++ [e], htook, hout, ?_⟩
      rw [List.foldl_concat]

theorem Shows.later {c' : Channel ProgressEvent} {x : StreamState} (h : Shows c since st lagged x)
    (hc : c.sent <+: c'.sent) (hend : Over Terminal c → c'.sent = c.sent) : Shows c' since st lagged x := by
  cases x with
  | live n next last out =>
    obtain ⟨ha, taken, ht, hout⟩ := h
    exact ⟨ha.later hc, taken, ht.later hc, hout⟩
  | ended out =>
    obtain ⟨ho, hf⟩ := h
    rw [Shows, Over, hend ho]
    exact ⟨ho, hf⟩
  | _ => exact h

end recv

/-! ## One run's channel -/

structure Feed where
  channel : Channel ProgressEvent
  /-- What is still to be published. -/
  todo : List ProgressEvent
  stream : StreamState
  /-- Where the stream subscribed, and whether it lagged since: nothing reads them. -/
  since : Nat
  lagged : Bool

inductive FeedAct where
  | emit
  /-- A publisher is cloned. -/
  | clone
  | drop
  | subscribe
  | recv
  deriving DecidableEq, Repr

namespace Feed

/-- A channel with `senders` publishers, and a request that has read the run's status. -/
def init (published : List ProgressEvent) (senders : Nat) (runId : Uuid) (initialStatus : RunStatus) : Feed :=
  ⟨⟨[], senders⟩, published, .found runId initialStatus, 0, false⟩

def step (f : Feed) : FeedAct → Option Feed
  | .emit =>
    match f.todo with
    | [] => none
    | e :: todo => some { f with channel := f.channel.send e, todo }
  | .clone =>
    if f.channel.senders = 0 then none
    else some { f with channel := { f.channel with senders := f.channel.senders + 1 } }
  | .drop =>
    -- The publisher that has events left to publish is not dropped.
    if f.channel.senders = 0 ∨ f.channel.senders = 1 ∧ f.todo ≠ [] then none
    else some { f with channel := { f.channel with senders := f.channel.senders - 1 } }
  | .subscribe =>
    match f.stream with
    | .found _ initialStatus =>
      -- The last event is still to come.
      if f.todo = [] then none
      else some { f with stream := .live 0 f.channel.subscribe initialStatus [], since := f.channel.subscribe }
    | _ => none
  | .recv =>
    match f.stream with
    | .live n next lastStatus out => (f.channel.recv channelCapacity next).map fun (got, next) =>
        { f with stream := .received n next lastStatus out got, lagged := f.lagged || got.isLagged }
    | _ => none

def play (f : Feed) : List FeedAct → Option Feed
  | [] => some f
  | a :: as => (step f a).bind fun f' => play f' as

/-- What one step does, whichever action it is. -/
inductive Stepped (f : Feed) : FeedAct → Feed → Prop
  | emit (e : ProgressEvent) (todo : List ProgressEvent) : f.todo = e :: todo →
      Stepped f .emit { f with channel := f.channel.send e, todo }
  | senders (a : FeedAct) (senders : Nat) : (senders = 0 → f.todo = []) →
      Stepped f a { f with channel := { f.channel with senders } }
  | subscribe (runId : Uuid) (st : RunStatus) : f.stream = .found runId st → f.todo ≠ [] →
      Stepped f .subscribe { f with stream := .live 0 f.channel.subscribe st [], since := f.channel.subscribe }
  | recv (n next next' : Nat) (last : RunStatus) (out : List SseEvent) (got : Got ProgressEvent) :
      f.stream = .live n next last out → f.channel.recv channelCapacity next = some (got, next') →
      Stepped f .recv { f with stream := .received n next' last out got, lagged := f.lagged || got.isLagged }

theorem step_cases {f f' : Feed} {a : FeedAct} (h : f.step a = some f') : Stepped f a f' := by
  cases a with
  | emit =>
    simp only [step] at h
    split at h
    · cases h
    · rename_i e todo htodo
      cases h
      exact .emit e todo htodo
  | clone =>
    simp only [step] at h
    split at h
    · cases h
    · cases h
      exact .senders _ _ (fun h0 => by cases h0)
  | drop =>
    simp only [step] at h
    split at h
    · cases h
    · rename_i hno
      cases h
      refine .senders _ _ fun h0 => ?_
      by_contra htodo
      have hone : f.channel.senders = 0 ∨ f.channel.senders = 1 := by omega
      exact hno (hone.imp_right fun h1 => ⟨h1, htodo⟩)
  | subscribe =>
    simp only [step] at h
    split at h
    · rename_i runId st hst
      split at h
      · cases h
      · rename_i htodo
        cases h
        exact .subscribe runId st hst htodo
    · cases h
  | recv =>
    simp only [step] at h
    split at h
    · rename_i n next last out hst
      obtain ⟨⟨got, next'⟩, hr, rfl⟩ := Option.map_eq_some_iff.mp h
      exact .recv n next next' last out got hst hr
    · cases h

/-- The invariant of a run that publishes `events`, and then the terminal status `t`. -/
structure Inv (events : List ProgressEvent) (t st : RunStatus) (f : Feed) : Prop where
  published : f.channel.sent ++ f.todo = events ++ [.status t]
  senders : f.channel.senders = 0 → f.todo = []
  stream : (∃ runId, f.stream = .found runId st ∧ f.lagged = false) ∨ Shows f.channel f.since st f.lagged f.stream

variable {events : List ProgressEvent} {t st : RunStatus} {f f' : Feed}

theorem inv_init {senders : Nat} (runId : Uuid) (hs : 0 < senders) :
    Inv events t st (init (events ++ [.status t]) senders runId st) where
  published := rfl
  senders h0 := absurd h0 (Nat.ne_of_gt hs)
  stream := Or.inl ⟨runId, rfl, rfl⟩

theorem Inv.length (h : Inv events t st f) : f.channel.sent.length + f.todo.length = events.length + 1 := by
  have := congrArg List.length h.published
  rwa [List.length_append, List.length_append, List.length_singleton] at this

/-- A terminal status is the last of the events. -/
theorem Inv.last (h : Inv events t st f) (hev : ∀ e ∈ events, ¬ Terminal e) {i : Nat} {e : ProgressEvent}
    (hi : f.channel.sent[i]? = some e) (he : Terminal e) : i = events.length := by
  have hlt : i < f.channel.sent.length := (List.getElem?_eq_some_iff.mp hi).1
  have hlen := h.length
  have hall : (events ++ [ProgressEvent.status t])[i]? = some e := by
    rw [← h.published, List.getElem?_append_left hlt, hi]
  rcases Nat.lt_or_ge i events.length with hlt' | hge
  · rw [List.getElem?_append_left hlt'] at hall
    exact absurd he (hev e (List.mem_of_getElem? hall))
  · omega

theorem Inv.sealed (h : Inv events t st f) (hev : ∀ e ∈ events, ¬ Terminal e) : Sealed Terminal f.channel := by
  intro i e hi he
  have hlt : i < f.channel.sent.length := (List.getElem?_eq_some_iff.mp hi).1
  have := h.last hev hi he
  have := h.length
  omega

theorem Inv.sent (h : Inv events t st f) (htodo : f.todo = []) : f.channel.sent = events ++ [.status t] := by
  rw [← h.published, htodo, List.append_nil]

theorem Inv.over (h : Inv events t st f) (ht : t.isTerminal = true) (htodo : f.todo = []) :
    Over Terminal f.channel := ⟨.status t, by rw [h.sent htodo, List.getLast?_concat], ht⟩

/-- While there is an event to come, the terminal status is not out. -/
theorem Inv.telling (h : Inv events t st f) (hev : ∀ e ∈ events, ¬ Terminal e) (htodo : f.todo ≠ []) :
    ∀ e ∈ f.channel.sent, ¬ Terminal e := by
  intro e he hterm
  obtain ⟨i, hi⟩ := List.mem_iff_getElem?.mp he
  have hlt : i < f.channel.sent.length := (List.getElem?_eq_some_iff.mp hi).1
  have := h.last hev hi hterm
  have := h.length
  have := List.length_pos_iff.mpr htodo
  omega

theorem Inv.shows (h : Inv events t st f) {x : StreamState} (hx : f.stream = x)
    (hno : ∀ runId st, x ≠ .found runId st) : Shows f.channel f.since st f.lagged x := by
  rcases h.stream with ⟨runId, hfound, -⟩ | hsh
  · exact absurd (hx.symm.trans hfound) (hno runId st)
  · exact hx ▸ hsh

theorem inv_step (hev : ∀ e ∈ events, ¬ Terminal e) (ht : t.isTerminal = true) {a : FeedAct}
    (h : Inv events t st f) (hs : f.step a = some f') : Inv events t st f' := by
  cases step_cases hs with
  | emit e todo htodo =>
    have hne : f.todo ≠ [] := by rw [htodo]; exact List.cons_ne_nil _ _
    refine ⟨?_, fun h0 => absurd (h.senders h0) hne, h.stream.imp_right fun hsh => ?_⟩
    · rw [← h.published, htodo, Channel.send, List.append_assoc]
      rfl
    · refine hsh.later (List.prefix_append _ _) ?_
      rintro ⟨e', he', hterm⟩
      exact absurd hterm (h.telling hev hne e' (List.mem_of_getLast? he'))
  | senders a senders h0 =>
    exact ⟨h.published, h0, h.stream.imp_right fun hsh => hsh.later (List.prefix_refl _) fun _ => rfl⟩
  | subscribe runId st' hst hne =>
    obtain ⟨_, hfound, hlag⟩ : ∃ runId, f.stream = .found runId st ∧ f.lagged = false := by
      rcases h.stream with hfound | hsh
      · exact hfound
      · rw [hst] at hsh
        exact hsh.elim
    rw [hst] at hfound
    cases hfound
    refine ⟨h.published, h.senders, Or.inr ?_⟩
    rw [hlag]
    exact ⟨ahead_subscribe (h.telling hev hne), [], took_subscribe _, rfl, rfl⟩
  | recv n next next' last out got hst hr =>
    have hsh := h.shows hst (by simp)
    have hclosed : f.channel.senders = 0 → Over Terminal f.channel := fun h0 => h.over ht (h.senders h0)
    exact ⟨h.published, h.senders, Or.inr (shows_recv (h.sealed hev) hclosed hsh hr)⟩

theorem inv_play (hev : ∀ e ∈ events, ¬ Terminal e) (ht : t.isTerminal = true) (as : List FeedAct) :
    ∀ f, Inv events t st f → f.play as = some f' → Inv events t st f' := by
  induction as with
  | nil => intro f h hp; cases hp; exact h
  | cons a as ih =>
    intro f h hp
    obtain ⟨f1, h1, h2⟩ := Option.bind_eq_some_iff.mp hp
    exact ih f1 (inv_step hev ht h h1) h2

theorem ended_step {out : List SseEvent} {a : FeedAct} (h : f.stream = .ended out) (hs : f.step a = some f') :
    f'.stream = .ended out := by
  cases step_cases hs with
  | emit => exact h
  | senders => exact h
  | subscribe runId st hst =>
    rw [h] at hst
    cases hst
  | recv n next next' last out' got hst =>
    rw [h] at hst
    cases hst

theorem ended_play {out : List SseEvent} (as : List FeedAct) :
    ∀ f : Feed, f.stream = .ended out → f.play as = some f' → f'.stream = .ended out := by
  induction as with
  | nil => intro f h hp; cases hp; exact h
  | cons a as ih =>
    intro f h hp
    obtain ⟨f1, h1, h2⟩ := Option.bind_eq_some_iff.mp hp
    exact ih f1 (ended_step h h1) h2

/-- Once all is published a stream has something to take, until it ends. -/
theorem recv_moves (ht : t.isTerminal = true) (h : Inv events t st f) (htodo : f.todo = []) {n next : Nat}
    {last : RunStatus} {out : List SseEvent} (hst : f.stream = .live n next last out) :
    next < f.channel.sent.length ∧ ∃ f', f.step .recv = some f' ∧ f'.channel = f.channel ∧ f'.todo = f.todo ∧
      ((∃ out', f'.stream = .ended out') ∨
        ∃ next' last' out', f'.stream = .live n next' last' out' ∧ next < next') := by
  have hlt := (h.shows hst (by simp)).1.lt_of_over (h.over ht htodo)
  refine ⟨hlt, ?_⟩
  cases hr : f.channel.recv channelCapacity next with
  | none => exact absurd (recv_none hr) (Nat.not_le_of_lt hlt)
  | some p =>
    obtain ⟨got, next'⟩ := p
    refine ⟨{ f with stream := .received n next' last out got, lagged := f.lagged || got.isLagged },
      by simp only [step, hst, hr, Option.map_some], rfl, rfl, ?_⟩
    rcases received_live_or_ended n next' last out got with ⟨last', out', hlive⟩ | ⟨out', hend⟩
    · refine Or.inr ⟨next', last', out', hlive, ?_⟩
      cases recv_cases hr with
      | ok => exact Nat.lt_succ_self _
      | lagged hlag => omega
      | closed => cases hlive
    · exact Or.inl ⟨out', hend⟩

/-- By induction on what there is to take. -/
theorem ends_of_inv (hev : ∀ e ∈ events, ¬ Terminal e) (ht : t.isTerminal = true) (m : Nat) :
    ∀ (f : Feed) (n next : Nat) (last : RunStatus) (out : List SseEvent), Inv events t st f → f.todo = [] →
      f.stream = .live n next last out → f.channel.sent.length - next ≤ m →
      ∃ k f' out', f.play (List.replicate k .recv) = some f' ∧ f'.stream = .ended out' := by
  induction m with
  | zero =>
    intro f n next last out h htodo hst hm
    have := (recv_moves ht h htodo hst).1
    omega
  | succ m ih =>
    intro f n next last out h htodo hst hm
    obtain ⟨hlt, f1, hs, hchannel, htodo1, hend | ⟨next', last', out', hlive, hnext⟩⟩ :=
      recv_moves ht h htodo hst
    · obtain ⟨out', hend⟩ := hend
      exact ⟨1, f1, out', by rw [List.replicate_one, play, hs]; rfl, hend⟩
    · have hm' : f1.channel.sent.length - next' ≤ m := by
        rw [hchannel]
        omega
      obtain ⟨k, f', out'', hp, hend⟩ :=
        ih f1 n next' last' out' (inv_step hev ht h hs) (htodo1.trans htodo) hlive hm'
      exact ⟨k + 1, f', out'', by rw [List.replicate_succ, play, hs]; exact hp, hend⟩

end Feed

/-- What the stream delivered, in kind and payload, are the events published since it subscribed, in order: all of
    them if it did not lag, and the terminal status last, whatever happens then. -/
theorem stream_faithful {events : List ProgressEvent} {t st : RunStatus} {senders : Nat} {runId : Uuid}
    {as : List FeedAct} {f : Feed} {out : List SseEvent} (hev : ∀ e ∈ events, e.terminal = false)
    (ht : t.isTerminal = true) (hs : 0 < senders)
    (h : (Feed.init (events ++ [.status t]) senders runId st).play as = some f) (hend : f.stream = .ended out) :
    Faithful (events ++ [.status t]) f.since st f.lagged out ∧ out.getLast? = some (.status t) ∧
      (∀ t', .status t' ∈ out.dropLast → t'.isTerminal = false) ∧
      ∀ as' f', f.play as' = some f' → f'.stream = .ended out := by
  have hno : ∀ e ∈ events, ¬ Terminal e := fun e he => by rw [Terminal, hev e he]; exact Bool.false_ne_true
  have hinv := Feed.inv_play hno ht as _ (Feed.inv_init runId hs) h
  obtain ⟨hover, hf⟩ := hinv.shows hend (by simp)
  have htodo : f.todo = [] := by
    by_contra hne
    obtain ⟨e, he, hterm⟩ := hover
    exact hinv.telling hno hne e (List.mem_of_getLast? he) hterm
  rw [hinv.sent htodo] at hf
  exact ⟨hf, (hf.last hno).1, (hf.last hno).2, fun as' f' => Feed.ended_play as' f hend⟩

/-- Five events, and a stream that subscribes after the first and is slow to receive. -/
def slowAct : List FeedAct :=
  [.emit, .subscribe, .emit, .emit, .recv, .emit, .recv, .emit, .drop, .drop, .recv, .recv]

def fuzzEvents : List ProgressEvent :=
  [.status .running, .log "cargo fuzz" .info, .iterations 42 3, .finding "total" 7]

theorem stream_faithful_slow : ∃ f,
    (Feed.init (fuzzEvents ++ [.status .completed]) 2 2 .running).play slowAct = some f ∧
      ∃ out, f.stream = .ended out ∧ (Faithful (fuzzEvents ++ [.status .completed]) f.since .running f.lagged out ∧
        out.getLast? = some (.status .completed) ∧ (∀ t', .status t' ∈ out.dropLast → t'.isTerminal = false) ∧
        ∀ as' f', f.play as' = some f' → f'.stream = .ended out) := by
  have h : ((Feed.init (fuzzEvents ++ [.status .completed]) 2 2 .running).play slowAct).map (fun f => f.stream.out?) =
      some (some [.log "cargo fuzz" "info", .progress 42 3 .running, .finding "" "total" 7, .status .completed]) := by
    decide
  obtain ⟨f, hf, hout⟩ := Option.map_eq_some_iff.mp h
  have hend := StreamState.ended_of_out hout
  exact ⟨f, hf, _, hend, stream_faithful (by decide) rfl (by decide) hf hend⟩

/-- When all is published, the stream ends after as many `recv` as it takes. -/
theorem stream_ends {events : List ProgressEvent} {t st last : RunStatus} {senders n next : Nat} {runId : Uuid}
    {as : List FeedAct} {f : Feed} {out : List SseEvent} (hev : ∀ e ∈ events, ¬ Terminal e)
    (ht : t.isTerminal = true) (hs : 0 < senders)
    (h : (Feed.init (events ++ [.status t]) senders runId st).play as = some f) (htodo : f.todo = [])
    (hst : f.stream = .live n next last out) :
    ∃ k f' out', f.play (List.replicate k .recv) = some f' ∧ f'.stream = .ended out' :=
  Feed.ends_of_inv hev ht _ f n next last out (Feed.inv_play hev ht as _ (Feed.inv_init runId hs) h) htodo hst
    (Nat.le_refl _)

/-! ## The server -/

/-- A stream of channel `c` is as `Shows` says, with a lag only where more than 256 events were sent. -/
def ShowsAll (hub : ProgressHub) (c : Nat) (x : StreamState) : Prop :=
  c < hub.opened ∧ ∃ since st lagged, Shows (hub.broadcasts c) since st lagged x ∧
    (lagged = true → since + channelCapacity < (hub.broadcasts c).sent.length)

def Watches (hub : ProgressHub) : StreamState → Prop
  | .live c next last out => ShowsAll hub c (.live c next last out)
  | .ended out => (∃ st, out = [.status st]) ∨ ∃ c, ShowsAll hub c (.ended out)
  | .idle | .notFound | .found _ _ => True

theorem ShowsAll.later {hub hub' : ProgressHub} {c : Nat} {x : StreamState} (h : ShowsAll hub c x)
    (hg : Grows hub hub') (hs : ∀ c, Sealed Terminal (hub'.broadcasts c)) : ShowsAll hub' c x := by
  obtain ⟨hc, since, st, lagged, hsh, hlag⟩ := h
  have hpre := hg.sent c hc
  refine ⟨Nat.lt_of_lt_of_le hc hg.opened, since, st, lagged, hsh.later hpre fun ho => ho.same (hs c) hpre, ?_⟩
  intro hl
  exact Nat.lt_of_lt_of_le (hlag hl) hpre.length_le

theorem Watches.later {hub hub' : ProgressHub} {x : StreamState} (h : Watches hub x) (hg : Grows hub hub')
    (hs : ∀ c, Sealed Terminal (hub'.broadcasts c)) : Watches hub' x := by
  cases x with
  | live c next last out => exact ShowsAll.later h hg hs
  | ended out =>
    rcases h with h | ⟨c, h⟩
    · exact Or.inl h
    · exact Or.inr ⟨c, h.later hg hs⟩
  | _ => trivial

/-- The stream goes on on its channel, or has ended on it. -/
theorem watches_recv {hub : ProgressHub} {h : Nat → Hand} (hw : Wired hub h) {c next next' : Nat} {last : RunStatus}
    {out : List SseEvent} {got : Got ProgressEvent} (hx : Watches hub (.live c next last out))
    (hr : (hub.broadcasts c).recv channelCapacity next = some (got, next')) :
    Watches hub (.received c next' last out got) := by
  obtain ⟨hc, since, st, lagged, hsh, hlag⟩ := hx
  have hgot := shows_recv (hw.sealed c) (hw.closed c hc) hsh hr
  have hall : ShowsAll hub c (.received c next' last out got) := by
    refine ⟨hc, since, st, _, hgot, fun hl => ?_⟩
    rcases Bool.or_eq_true _ _ |>.mp hl with hl | hl
    · exact hlag hl
    · obtain ⟨-, taken, ht, -⟩ := hsh
      cases recv_cases hr with
      | lagged hlt => exact Nat.lt_of_le_of_lt (Nat.add_le_add_right ht.since_le _) hlt
      | _ => cases hl
  rcases received_live_or_ended c next' last out got with ⟨last', out', hrec⟩ | ⟨out', hrec⟩
  · rw [hrec] at hall ⊢
    exact hall
  · rw [hrec] at hall ⊢
    exact Or.inr ⟨c, hall⟩

variable {ws : Nat → Worker} {s s' : Live}

theorem watches_step {h h' : Nat → Hand} (hw : Wired s.progress h) (hw' : Wired s'.progress h')
    (hs : ∀ i, Watches s.progress (s.streams i)) {a : LiveAct} (hstep : Live.step ws s a = some s')
    (ha : timely s a = true) (i : Nat) : Watches s'.progress (s'.streams i) := by
  have hset : ∀ j x, Watches s.progress x → Watches s.progress ((s.setStream j x).streams i) := fun j x hx =>
    Live.all_setStream hs hx i
  cases Live.step_cases hstep with
  | world a world hworld => exact (hs i).later (Live.turn_of_step hworld).grows hw'.sealed
  | publish k event => exact (hs i).later (grows_emit k event) hw'.sealed
  | notFound j => exact hset j _ trivial
  | found j => exact hset j _ trivial
  | subscribed j runId st c hj hc =>
    simp only [timely, hj, hc, List.all_eq_true] at ha
    obtain ⟨k, he⟩ := hw.entry runId c hc
    have hahead : Ahead Terminal (s.progress.broadcasts c) (s.progress.broadcasts c).subscribe := by
      refine ahead_subscribe fun e hm hterm => ?_
      have := ha e hm
      rw [hterm] at this
      cases this
    refine hset j _ ⟨he.opened, _, st, false, ⟨hahead, [], took_subscribe _, rfl, rfl⟩, fun hl => ?_⟩
    cases hl
  | missed j runId st => exact hset j _ (Or.inl ⟨st, rfl⟩)
  | recv j c next next' last out got hj hr =>
    have hx := hs j
    rw [hj] at hx
    exact hset j _ (watches_recv hw hx hr)

theorem watches_run (hr : Live.Run ws timely s) (i : Nat) : Watches s.progress (s.streams i) := by
  induction hr generalizing i with
  | init => trivial
  | step a hr ha hs ih =>
    obtain ⟨h, hsure⟩ := sure_run hr
    obtain ⟨h', hsure'⟩ := sure_run (.step a hr ha hs)
    exact watches_step hsure.wired hsure'.wired ih hs ha i

/-- The server's streams are faithful too: one that ended had no channel to subscribe to, or it was, with no gap
    unless more than 256 events were sent since. -/
theorem live_faithful (hr : Live.Run ws timely s) {i : Nat} {out : List SseEvent} (hi : s.streams i = .ended out) :
    (∃ st, out = [.status st]) ∨ ∃ c since st, c < s.progress.opened ∧ Over Terminal (s.progress.broadcasts c) ∧
      Faithful (s.progress.broadcasts c).sent since st
        (decide (since + channelCapacity < (s.progress.broadcasts c).sent.length)) out := by
  have hx := watches_run hr i
  rw [hi] at hx
  rcases hx with hx | ⟨c, hc, since, st, lagged, ⟨ho, taken, hout, hsub, hall, hlast⟩, hlag⟩
  · exact Or.inl hx
  · refine Or.inr ⟨c, since, st, hc, ho, taken, hout, hsub, fun hno => hall ?_, hlast⟩
    have hle : ¬ since + channelCapacity < (s.progress.broadcasts c).sent.length := of_decide_eq_false hno
    by_contra hl
    exact hle (hlag (Bool.not_eq_false _ ▸ hl))

end SoroFuzz.Queue
