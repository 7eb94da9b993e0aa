/-
  SoroFuzz.Api.Watched — what a client that watched a run was told, and what the API shows
  it of the run afterwards (`api/stream.rs`, `api/runs.rs`, `api/findings.rs`,
  `runner/subprocess.rs`).

  The stream gets its events from the runner as they come; the API reads the rows that
  `finish_run` wrote of the runner's answer. The two ways have nothing in common but
  `SubprocessRunner::run`.

  Proved:
  - `stream_tells`: a stream tells the run's story from where it subscribed on, and misses
    nothing: no client is ever too slow for this runner.
  - `watched_shown`: what it told of findings and iterations is what the API shows once the
    run's `finish_run` has committed.
-/

import SoroFuzz.Api.Outcome
import SoroFuzz.Api.Report
import SoroFuzz.Runner.Publish

namespace SoroFuzz.Queue

open SoroFuzz.Store
open Runner (Publishes announced run_published SubprocessRunner Sandbox Unicode)

/-! ## Findings and iterations, as events carry them -/

def ProgressEvent.found : ProgressEvent → Option (String × Int)
  | .finding invariant stepIndex => some (invariant, stepIndex)
  | .iterations _ _ | .log _ _ | .status _ => none

def ProgressEvent.counts : ProgressEvent → Bool
  | .iterations _ _ => true
  | .finding _ _ | .log _ _ | .status _ => false

/-- The findings that a stream told of. -/
def heardFindings (out : List SseEvent) : List (String × Int) :=
  out.filterMap fun
    | .finding _ invariant stepIndex => some (invariant, (stepIndex : Int))
    | .progress _ _ _ | .log _ _ | .status _ => none

/-- As much of a finding as its event carries. -/
def keyOf (finding : NewFinding) : String × Int := (finding.invariant, finding.stepIndex)

theorem heardFindings_rendered {st : RunStatus} {es : List ProgressEvent} :
    heardFindings (rendered st es) = es.filterMap ProgressEvent.found := by
  induction es generalizing st with
  | nil => rfl
  | cons e es ih =>
    have htail : heardFindings (rendered (e.after st) es) = es.filterMap ProgressEvent.found := ih
    cases e with
    | finding invariant stepIndex => exact congrArg ((invariant, (stepIndex : Int)) :: ·) htail
    | _ => exact htail

theorem iterations_of_progress {st st' : RunStatus} {es : List ProgressEvent} {count elapsedSecs : Nat}
    (h : .progress count elapsedSecs st' ∈ rendered st es) : .iterations count elapsedSecs ∈ es := by
  induction es generalizing st with
  | nil => cases h
  | cons e es ih =>
    rcases List.mem_cons.mp h with heq | h
    · cases e <;> cases heq
      exact List.mem_cons_self
    · exact List.mem_cons_of_mem _ (ih h)

/-- The events say of a run what `finish_run` is to say: its iterations, once, and after them its findings; or
    neither. -/
inductive Accounts (f : RunFinish) : List ProgressEvent → Prop
  | failed (es : List ProgressEvent) : f.findings = [] → (∀ e ∈ es, e.found = none ∧ e.counts = false) → Accounts f es
  | finished (before after : List ProgressEvent) (count elapsedSecs : Nat) : f.iterations = count →
      (∀ e ∈ before, e.found = none ∧ e.counts = false) → (∀ e ∈ after, e.counts = false) →
      after.filterMap ProgressEvent.found = f.findings.map keyOf →
      Accounts f (before ++ .iterations count elapsedSecs :: after)

section accounts
variable {f : RunFinish} {es : List ProgressEvent} {since next : Nat}

theorem filterMap_found_nil (h : ∀ e ∈ es, e.found = none ∧ e.counts = false) :
    es.filterMap ProgressEvent.found = [] :=
  List.filterMap_eq_nil_iff.mpr fun e he => (h e he).1

theorem Accounts.findings (h : Accounts f es) : es.filterMap ProgressEvent.found = f.findings.map keyOf := by
  cases h with
  | failed _ hf hes => rw [filterMap_found_nil hes, hf]; rfl
  | finished before after count secs _ hbefore _ hafter =>
    rw [List.filterMap_append, filterMap_found_nil hbefore, List.nil_append, List.filterMap_cons]
    exact hafter

theorem Accounts.iterations (h : Accounts f es) {count secs : Nat} (hm : .iterations count secs ∈ es) :
    f.iterations = count := by
  cases h with
  | failed _ _ hes => cases (hes _ hm).2
  | finished before after _ _ hcount hbefore hafter _ =>
    rcases List.mem_append.mp hm with hm | hm
    · cases (hbefore _ hm).2
    · rcases List.mem_cons.mp hm with heq | hm
      · cases heq
        exact hcount
      · cases hafter _ hm

/-- Who has the iterations still to come has all the findings still to come. -/
theorem Accounts.rest (h : Accounts f es) {count secs : Nat} (hm : .iterations count secs ∈ es.drop since) :
    (es.drop since).filterMap ProgressEvent.found = f.findings.map keyOf := by
  cases h with
  | failed _ _ hes => cases (hes _ (List.mem_of_mem_drop hm)).2
  | finished before after _ _ _ hbefore hafter hfound =>
    rcases Nat.lt_or_ge before.length since with hlt | hle
    · -- The iterations are past.
      obtain ⟨n, hn⟩ : ∃ n, since - before.length = n + 1 := ⟨since - before.length - 1, by omega⟩
      rw [List.drop_append, List.drop_eq_nil_of_le (Nat.le_of_lt hlt), List.nil_append, hn, List.drop_succ_cons] at hm
      cases hafter _ (List.mem_of_mem_drop hm)
    · rw [List.drop_append_of_le_length hle, List.filterMap_append, List.filterMap_cons,
        filterMap_found_nil fun e he => hbefore e (List.mem_of_mem_drop he), List.nil_append]
      exact hfound

/-- A run's story accounts for what `process` then persists. -/
theorem story_accounts {U : Unicode} (sandbox : Uuid → Sandbox) (runner : SubprocessRunner) (w : Worker)
    (job : RunJob) :
    Accounts (w.finish job.fuzzTargetName (runner.script U sandbox job).2) (story w (runner.script U sandbox) job) := by
  have hp : Publishes job (runner.script U sandbox job) := run_published (sandbox job.runId) runner job
  unfold story
  cases hrun : runner.script U sandbox job with
  | mk events answer =>
    rw [hrun] at hp
    cases hp with
    | failed command e =>
      refine .failed _ rfl fun e he => ?_
      simp only [List.cons_append, List.nil_append, List.mem_cons, List.not_mem_nil, or_false] at he
      rcases he with rfl | rfl | rfl <;> exact ⟨rfl, rfl⟩
    | finished command result hcount hsteps _ =>
      have hcounts : ∀ e ∈ result.findings.map announced ++ [.status (w.outcome job (.ok result))],
          e.counts = false := by
        intro e he
        rcases List.mem_append.mp he with he | he
        · obtain ⟨finding, -, rfl⟩ := List.mem_map.mp he
          rfl
        · rw [List.mem_singleton.mp he]
          rfl
      have hfound : (result.findings.map announced ++ [ProgressEvent.status (w.outcome job (.ok result))]).filterMap
          ProgressEvent.found = (result.findings.map (w.toNewFinding · job.fuzzTargetName)).map keyOf := by
        rw [List.filterMap_append, List.filterMap_map, List.map_map, ← List.filterMap_eq_map]
        refine (List.append_nil _).trans (List.filterMap_congr fun finding hf => ?_)
        show some (finding.invariant, (finding.stepIndex.toNat : Int)) = some (finding.invariant, finding.stepIndex)
        rw [Int.toNat_of_nonneg (hsteps finding hf)]
      refine .finished [.status .running, .log command .info] _ result.iterations.toNat job.timeBudgetSecs
        (Int.toNat_of_nonneg hcount).symm (fun e he => ?_) hcounts hfound
      simp only [List.mem_cons, List.not_mem_nil, or_false] at he
      rcases he with rfl | rfl <;> exact ⟨rfl, rfl⟩

theorem findings_one {U : Unicode} (sandbox : Uuid → Sandbox) (runner : SubprocessRunner) (w : Worker)
    (job : RunJob) :
    (w.finish job.fuzzTargetName (runner.script U sandbox job).2).findings.length ≤ 1 := by
  have hp : Publishes job (runner.script U sandbox job) := run_published (sandbox job.runId) runner job
  cases hrun : runner.script U sandbox job with
  | mk events answer =>
    rw [hrun] at hp
    cases hp with
    | failed => exact Nat.zero_le 1
    | finished command result _ _ hone =>
      show (result.findings.map (w.toNewFinding · job.fuzzTargetName)).length ≤ 1
      rwa [List.length_map]

end accounts

/-! ## A run that has finished -/

section finished
variable {ws : Nat → Worker} {acts : List ScriptedAct} {s : Scripted} {runId : Uuid} {f : RunFinish}

/-- A run's `finish_run` is of what its runner answered. -/
theorem finished_answer {script : RunnerScript} (hr : Scripted.Run ws script acts s)
    (hf : Finished (World.commits s.live.world.log) runId f) {k : Nat} {job : RunJob}
    (hm : .invoked k job ∈ s.live.world.log) (hrun : job.runId = runId) :
    f = (ws k).finish job.fuzzTargetName (script job).2 := by
  have h := Live.run_world (Scripted.run_live hr)
  obtain ⟨S, hS⟩ := custody h
  obtain ⟨k', job', answer, hran, hm', hrun', rfl⟩ := finished_by h hf
  obtain ⟨rfl, rfl⟩ := invoked_unique hS.trace.invokedOnce hm' hm (hrun'.trans hrun.symm)
  rw [answered_run hr hran]

theorem finished_once {s : World} (h : World.Reach ws s) {f' : RunFinish} (hf : Finished (World.commits s.log) runId f)
    (hf' : Finished (World.commits s.log) runId f') : f = f' := by
  obtain ⟨S, hS⟩ := custody h
  obtain ⟨k, job, answer, hran, -, hrun, rfl⟩ := finished_by h hf
  obtain ⟨k', job', answer', hran', -, hrun', rfl⟩ := finished_by h hf'
  obtain ⟨rfl, rfl, rfl⟩ := hS.trace.ranOnce _ _ _ _ _ _ hran hran' (hrun.trans hrun'.symm)
  rfl

/-- What a stream delivered of the findings and the iterations of a run, beside what was persisted of it. -/
structure Confirms (f : RunFinish) (x : StreamState) : Prop where
  findings : (heardFindings x.delivered).Sublist (f.findings.map keyOf)
  iterations : ∀ (count secs : Nat) st, .progress count secs st ∈ x.delivered → f.iterations = count
  all : ∀ out, x = .ended out → ∀ count secs st, .progress count secs st ∈ x.delivered →
    heardFindings x.delivered = f.findings.map keyOf

/-- A stream that delivered nothing but statuses. -/
theorem confirms_of_statuses {x : StreamState} (h : ∀ e ∈ x.delivered, ∃ st, e = .status st) : Confirms f x where
  findings := by
    have hnil : heardFindings x.delivered = [] := by
      refine List.filterMap_eq_nil_iff.mpr fun e he => ?_
      obtain ⟨st, rfl⟩ := h e he
      rfl
    rw [hnil]
    exact List.nil_sublist _
  iterations count secs st hm := by
    obtain ⟨st', e⟩ := h _ hm
    cases e
  all _ _ count secs st hm := by
    obtain ⟨st', e⟩ := h _ hm
    cases e

theorem confirms_of_tidings {U : Unicode} {sandbox : Uuid → Sandbox} {runner : SubprocessRunner}
    (hr : Scripted.Run ws (runner.script U sandbox) acts s)
    (hf : Finished (World.commits s.live.world.log) runId f) {x : StreamState}
    (h : Tidings ws (runner.script U sandbox) s.live.world.log runId x) : Confirms f x := by
  cases h with
  | read st hx =>
    refine confirms_of_statuses fun e he => ?_
    rw [hx] at he
    exact ⟨st, List.mem_singleton.mp he⟩
  | opening _ hsub => exact confirms_of_statuses fun e he => ⟨_, List.mem_singleton.mp (hsub.subset he)⟩
  | story k job since next st hm hrun hout hend =>
    obtain rfl := finished_answer hr hf hm hrun
    have hacc := story_accounts (U := U) sandbox runner (ws k) job
    refine ⟨?_, fun count secs st' hp => ?_, fun out hx count secs st' hp => ?_⟩
    · rw [hout, heardFindings_rendered, ← hacc.findings]
      exact ((List.drop_sublist _ _).trans (List.take_sublist _ _)).filterMap _
    · rw [hout] at hp
      exact hacc.iterations (List.mem_of_mem_take (List.mem_of_mem_drop (iterations_of_progress hp)))
    · rw [hend out hx, List.take_length] at hout
      rw [hout] at hp ⊢
      rw [heardFindings_rendered]
      exact hacc.rest (iterations_of_progress hp)

end finished

end SoroFuzz.Queue

namespace SoroFuzz.Api

open SoroFuzz.Store
open SoroFuzz.Queue (Worker World Scripted ScriptedAct Tidings heardFindings keyOf)
open SoroFuzz.Runner (SubprocessRunner Sandbox Unicode asciiOnly script_brief)

variable {A : UuidText} {ws : Nat → Worker} {U : Unicode} {sandbox : Uuid → Sandbox} {runner : SubprocessRunner}
  {acts : List ScriptedAct} {s : Scripted} {i : Nat} {runId : Uuid}

/-- No client of a run that the subprocess runner carries out misses any of it, however slow it receives. -/
theorem stream_tells (hr : Scripted.Run ws (runner.script U sandbox) acts s)
    (hreq : .live (.request i runId) ∈ acts) :
    Tidings ws (runner.script U sandbox) s.live.world.log runId (s.live.streams i) :=
  Queue.story_heard (script_brief sandbox runner) hr hreq

/-- What the runner is given prints a violation. -/
def overdrawnScript : Queue.RunnerScript := nightlyFuzz.script asciiOnly fun _ => overdrawnSandbox

/-- Request 0 subscribes while the runner of run 2 runs, and ends after `finish_run` has committed. -/
def watchedRun : List ScriptedAct :=
  (World.createAct ++ World.claimAct ++ World.startAct).map (fun a => .live (.world a)) ++
    [.live (.request 0 2), .live (.subscribe 0), .publish 0, .publish 0, .live (.recv 0), .publish 0, .answer 0,
      .live (.world (.proceed 0)), .live (.world (.call 0 id id)), .live (.world (.pg (.exec 4))),
      .live (.world (.pg (.exec 4))), .live (.world (.pg (.exec 4))), .live (.world (.pg (.commit 4))),
      .live (.recv 0), .live (.recv 0), .live (.recv 0)]

theorem request_watchedRun : .live (.request 0 2) ∈ watchedRun.reverse ++ [] := by
  rw [List.append_nil, List.mem_reverse]
  exact List.mem_append_right _ List.mem_cons_self

set_option maxRecDepth 4000 in
theorem stream_tells_watchedRun : ∃ s,
    Scripted.play (fun _ => Queue.tokenWorker) overdrawnScript .init watchedRun = some s ∧
    (s.live.streams 0).delivered = [.log "cargo +nightly fuzz run token_fuzz -- -max_total_time=60" "info",
      .progress 0 60 .running, .finding "" "no-negative-balance" 3, .status .completed] ∧
    Tidings (fun _ => Queue.tokenWorker) overdrawnScript s.live.world.log 2 (s.live.streams 0) := by
  have h : (Scripted.play (fun _ => Queue.tokenWorker) overdrawnScript .init watchedRun).map
      (fun s => (s.live.streams 0).delivered) =
      some [.log "cargo +nightly fuzz run token_fuzz -- -max_total_time=60" "info", .progress 0 60 .running,
        .finding "" "no-negative-balance" 3, .status .completed] := by decide
  obtain ⟨s, hs, hout⟩ := Option.map_eq_some_iff.mp h
  exact ⟨s, hs, hout, stream_tells (Scripted.play_run .init hs) request_watchedRun⟩

/-- The findings that are shown are those of the `finish_run`: one, or none. -/
theorem dtos_of_perm {fs : List NewFinding} (hone : fs.length ≤ 1) {campaignId : Uuid} {targetId : String}
    {ids : Nat → Uuid} {b : DateTime} {dtos : List FindingSummaryDto}
    (h : dtos.Perm (List.ofFn fun i : Fin fs.length => .from_ (shown runId campaignId targetId (ids i) (fs.get i) b))) :
    (dtos.map fun dto => (dto.invariant, dto.stepIndex)) = fs.map keyOf := by
  cases fs with
  | nil => rw [List.perm_nil.mp h]; rfl
  | cons finding fs =>
    obtain rfl : fs = [] := List.eq_nil_of_length_eq_zero (Nat.le_zero.mp (Nat.le_of_succ_le_succ hone))
    rw [List.perm_singleton.mp h]
    rfl

/-- What is shown of a run that has finished counts what its `finish_run` counted, unless the run was cancelled. -/
theorem run_counts {s : World} (h : World.Reach ws s) {f : RunFinish} (hf : Finished (World.commits s.log) runId f)
    (now : DateTime) {raw : String} (hraw : A.parse raw = some runId) :
    ∃ dto, getRun A (fun id => .ok (Store.getRun s.pg.db now id)) raw = .ok dto ∧
      (dto.iterations = f.iterations ∨ dto.status = .cancelled) := by
  obtain ⟨S, hS⟩ := Queue.custody h
  obtain ⟨r, hr, -⟩ := hS.history.finished runId f hf
  obtain ⟨jobId, input, hcreated⟩ := (Queue.origin h).run runId r hr
  obtain ⟨⟨c, hc, -⟩, -⟩ := Queue.run_created h hcreated
  obtain ⟨record, hrecord, hiter, hst⟩ : ∃ record, Store.getRun s.pg.db now runId = some record ∧
      record.iterations = r.iterations ∧ record.status = r.status := by
    rw [Store.getRun, hr]
    simp [hc]
  refine ⟨_, getRun_ok_iff.mpr ⟨runId, record, hraw, congrArg _ hrecord, rfl⟩, ?_⟩
  show record.iterations = f.iterations ∨ record.status = .cancelled
  rw [hiter, hst]
  cases Queue.tally h runId r hr with
  | nothing _ _ hs =>
    rcases hs with hs | hs | ⟨hs, -⟩
    · exact absurd hf (Queue.not_finished h hr (by rw [hs]; rfl) f)
    · exact absurd hf (Queue.not_finished h hr (by rw [hs]; rfl) f)
    · exact Or.inr hs
  | finished f' hf' hi =>
    obtain rfl := Queue.finished_once h hf hf'
    exact Or.inl hi

/-- Whoever watched a run finds in the API what it was told. -/
theorem watched_shown (hr : Scripted.Run ws (runner.script U sandbox) acts s)
    (hreq : .live (.request i runId) ∈ acts) {f : RunFinish}
    (hf : Finished (World.commits s.live.world.log) runId f) {s1 s2 : World}
    (h1 : World.Onward ws s.live.world s1) (h2 : World.Onward ws s1 s2) (now : DateTime) {raw : String}
    (hraw : A.parse raw = some runId) :
    ∃ run dtos, getRun A (fun id => .ok (Store.getRun s1.pg.db now id)) raw = .ok run ∧
      listFindingsForRun A (fun id => .ok (Store.getRun s1.pg.db now id))
        (fun id => .ok (Store.listFindingsForRun s2.pg.db id)) raw = .ok dtos ∧
      (heardFindings (s.live.streams i).delivered).Sublist (dtos.map fun dto => (dto.invariant, dto.stepIndex)) ∧
      (∀ (count secs : Nat) st, .progress count secs st ∈ (s.live.streams i).delivered →
        run.iterations = count ∨ run.status = .cancelled) ∧
      ∀ out, s.live.streams i = .ended out → ∀ (count secs : Nat) st, .progress count secs st ∈ out →
        heardFindings out = dtos.map fun dto => (dto.invariant, dto.stepIndex) := by
  have h := Queue.Live.run_world (Queue.Scripted.run_live hr)
  have hconfirms : Queue.Confirms f (s.live.streams i) :=
    Queue.confirms_of_tidings hr hf (Queue.story_heard (script_brief sandbox runner) hr hreq)
  obtain ⟨k, job, answer, hran, hinvoked, hrun, hfin⟩ := Queue.finished_by h hf
  obtain ⟨jobId, input, hc, -⟩ := Queue.ordered h hinvoked
  rw [hrun] at hc
  have hf' := hf
  obtain ⟨tx, ids, hm⟩ := hf'
  obtain ⟨b, hshelf⟩ := (Queue.findingsKept h).shelf tx runId f ids hm
  obtain ⟨dtos, hlist, hperm⟩ := (shelf_shown (U := A) h hc hf hshelf h1 h2).1 now raw hraw
  have hone : f.findings.length ≤ 1 := by
    rw [Queue.finished_answer hr hf hinvoked hrun]
    exact Queue.findings_one sandbox runner (ws k) job
  have hdtos := dtos_of_perm hone hperm
  obtain ⟨run, hget, hcount⟩ := run_counts (A := A) (Queue.onward_reach h h1) (hf.mono (Queue.onward_subset h1))
    now hraw
  refine ⟨run, dtos, hget, hlist, hdtos ▸ hconfirms.findings, fun count secs st hp => ?_,
    fun out hx count secs st hp => ?_⟩
  · rw [← hconfirms.iterations count secs st hp]
    exact hcount
  · rw [hdtos]
    have hall := hconfirms.all out hx count secs st
    rw [hx] at hall
    exact hall hp

set_option maxRecDepth 4000 in
theorem watched_shown_watchedRun : ∃ s run dtos,
    Scripted.play (fun _ => Queue.tokenWorker) overdrawnScript .init watchedRun = some s ∧
    getRun decimalIds (fun id => .ok (Store.getRun s.live.world.pg.db 0 id)) "2" = .ok run ∧
    listFindingsForRun decimalIds (fun id => .ok (Store.getRun s.live.world.pg.db 0 id))
      (fun id => .ok (Store.listFindingsForRun s.live.world.pg.db id)) "2" = .ok dtos ∧
    (run.iterations = 0 ∨ run.status = .cancelled) ∧
    (dtos.map fun dto => (dto.invariant, dto.stepIndex)) = [("no-negative-balance", 3)] := by
  have h : (Scripted.play (fun _ => Queue.tokenWorker) overdrawnScript .init watchedRun).map
      (fun s => (s.live.streams 0).out?) =
      some (some [.log "cargo +nightly fuzz run token_fuzz -- -max_total_time=60" "info", .progress 0 60 .running,
        .finding "" "no-negative-balance" 3, .status .completed]) := by decide
  have hfin : (Scripted.play (fun _ => Queue.tokenWorker) overdrawnScript .init watchedRun).any (fun s =>
      (World.commits s.live.world.log).any fun c => (ended c).any fun x => x.1 = 2) = true := by decide
  obtain ⟨s, hs, hout⟩ := Option.map_eq_some_iff.mp h
  rw [hs] at hfin
  obtain ⟨c, hc, hfin⟩ := List.any_eq_true.mp (show (World.commits s.live.world.log).any _ = true from hfin)
  obtain ⟨⟨runId, f⟩, hended, hid⟩ := (Option.any_eq_true _ _).mp hfin
  obtain rfl : runId = 2 := of_decide_eq_true hid
  have hend := Queue.StreamState.ended_of_out hout
  obtain ⟨run, dtos, hrun, hdtos, -, hcount, hall⟩ := watched_shown (Scripted.play_run .init hs) request_watchedRun
    (finished_of_ended hc hended) .refl .refl 0 (show decimalIds.parse "2" = some 2 by decide)
  refine ⟨s, run, dtos, hs, hrun, hdtos, hcount 0 60 .running ?_, ?_⟩
  · rw [hend]
    exact List.mem_cons_of_mem _ List.mem_cons_self
  · rw [← hall _ hend 0 60 .running (List.mem_cons_of_mem _ List.mem_cons_self)]
    rfl

end SoroFuzz.Api
