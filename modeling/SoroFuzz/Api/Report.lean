/-
  SoroFuzz.Api.Report — the way of a violation from the harness that prints it to the
  answers of the API: `Display` for `Violation`, the sandbox's output, `output::parse`, the
  runner's result, the worker, the store, and the handlers.

  Proved:
  - `run_prints`: the runner's result for a command that printed a violation.
  - `violation_shown`: once the worker's `finish_run` has committed, the violation is the
    one finding that the API shows of the run, in every interleaving and ever after.
-/

import SoroFuzz.Api.Findings
import SoroFuzz.Runner.RoundTrip
import SoroFuzz.Runner.Subprocess

namespace SoroFuzz.Runner

open Queue (RunJob RunFinding RunResult)
open SoroFuzz.Core (Violation)

/-- The job's command ran to its end in the sandbox, and failed; it printed the violation
    `v`, before any other. -/
structure Prints (sandbox : Sandbox) (runner : SubprocessRunner) (job : RunJob) (v : Violation)
    (output : SandboxOutput) : Prop where
  ran : sandbox "cargo" (runner.buildArgs job) runner.fuzzWorkspaceDir runner.jobTimeout = .ok output
  inTime : output.timedOut = false
  failed : output.ExitedNonzero
  text : ∃ preceding following, ¬ opening <:+: preceding.toList ∧
    output.combined = preceding ++ v.display ++ "\n" ++ following

/-- The violation, as far as a line of text carries it. -/
def carried (v : Violation) : ParsedViolation :=
  { invariant := v.invariant, stepIndex := v.stepIndex, message := String.ofList (trim (firstLine v.message.toList)) }

variable {U : Unicode} {sandbox : Sandbox} {runner : SubprocessRunner} {job : RunJob} {v : Violation}
  {output : SandboxOutput}

theorem parse_prints (h : Prints sandbox runner job v output) (hv : Legible v)
    (hline : firstLine v.message.toList ≠ []) :
    (parse U output.combined output.exitCode false).finding = some (carried v) := by
  obtain ⟨code, hcode, hne⟩ := h.failed
  obtain ⟨preceding, following, hpre, htext⟩ := h.text
  rw [hcode, htext, parse_finding hne, output_toList, parse_line hv hpre hline, Option.getD_some]
  rfl

/-- The result has the violation as its one finding. -/
theorem run_prints (h : Prints sandbox runner job v output) (hv : Legible v) (hline : firstLine v.message.toList ≠ []) :
    ∃ result, (runner.run U sandbox job).2 = .ok result ∧
      result.findings = [runFinding (parse U output.combined output.exitCode false) (carried v)] := by
  refine ⟨_, run_finished h.ran h.inTime, ?_⟩
  rw [parse_prints h hv hline]
  rfl

end SoroFuzz.Runner

namespace SoroFuzz.Api

open SoroFuzz.Store
open SoroFuzz.Queue (Worker World RunJob)
open SoroFuzz.Runner
open SoroFuzz.Core (Violation)

variable {A : UuidText} {ws : Nat → Worker} {s : World} {U : Unicode} {sandbox : Sandbox} {runner : SubprocessRunner}
  {job : RunJob} {v : Violation} {output : SandboxOutput}

/-- Of a run whose command printed `v`, the API shows `v` and nothing else. -/
theorem violation_shown (h : World.Reach ws s) (hv : Legible v) (hline : firstLine v.message.toList ≠ [])
    (hprints : Prints sandbox runner job v output) {k : Nat} (hran : .ran k job (runner.run U sandbox job).2 ∈ s.log)
    {f : RunFinish} (hf : Finished (World.commits s.log) job.runId f) :
    ∃ (id : Uuid) (b : DateTime) (jobId : Uuid) (input : NewCampaign),
      Created (World.commits s.log) job.campaignId job.runId jobId input ∧
      ∀ s1 s2, World.Onward ws s s1 → World.Onward ws s1 s2 →
        (∀ now raw, A.parse raw = some job.runId →
          listFindingsForRun A (fun i => .ok (Store.getRun s1.pg.db now i))
            (fun i => .ok (Store.listFindingsForRun s2.pg.db i)) raw =
              .ok [⟨id, job.runId, v.invariant, String.ofList (trim (firstLine v.message.toList)), v.stepIndex, b⟩]) ∧
        ∀ raw, A.parse raw = some id → getFinding A (fun i => .ok (Store.getFinding s2.pg.db i)) raw =
          .ok ⟨id, job.runId, v.invariant, String.ofList (trim (firstLine v.message.toList)), v.stepIndex, b,
            job.campaignId, input.targetId, [],
            ⟨job.fuzzTargetName, (parseArtifactPath output.combined.toList).getD "",
              (ws k).fuzzSanitizer == some "thread"⟩⟩ := by
  obtain ⟨result, hresult, hfindings⟩ := run_prints (U := U) hprints hv hline
  rw [hresult] at hran
  obtain ⟨S, hS⟩ := Queue.custody h
  -- The `finish_run` is of the answer that this runner gave.
  obtain ⟨k', job', a, hran', -, hrun, hfin⟩ := Queue.finished_by h hf
  obtain ⟨rfl, rfl, rfl⟩ := hS.trace.ranOnce _ _ _ _ _ _ hran' hran hrun
  obtain ⟨jobId, input, hc, -⟩ := Queue.ordered h (hS.trace.rans _ _ _ hran).2
  obtain ⟨tx, ids, hm⟩ := hf
  obtain ⟨b, hshelf⟩ := (Queue.findingsKept h).shelf tx _ f ids hm
  have hone : f.findings = [(ws k').toNewFinding
      (runFinding (parse U output.combined output.exitCode false) (carried v)) job'.fuzzTargetName] := by
    rw [hfin, Worker.finish, hfindings]
    rfl
  rw [hone] at hshelf
  refine ⟨ids 0, b, jobId, input, hc, fun s1 s2 h1 h2 => ?_⟩
  obtain ⟨hlist, hget⟩ := shelf_shown (U := A) h hc ⟨tx, ids, hm⟩ hshelf h1 h2
  refine ⟨fun now raw hraw => ?_, fun raw hraw => hget ⟨0, Nat.one_pos⟩ raw hraw⟩
  obtain ⟨dtos, hdtos, hperm⟩ := hlist now raw hraw
  rw [hdtos, List.perm_singleton.mp hperm]
  rfl

/-- `NoNegativeBalance`'s violation, as its fuzz target prints it. -/
def overdrawn : Violation := ⟨"no-negative-balance", "holder has balance -1", 3⟩

def overdrawnOutput : SandboxOutput := ⟨"", overdrawn.display ++ "\n", some 77, false⟩

def overdrawnSandbox : Sandbox := fun _ _ _ _ => .ok overdrawnOutput

def nightlyFuzz : SubprocessRunner := ⟨"/fuzz", "nightly", none, 3600⟩

def overdrawnResult : Queue.RunResult :=
  ⟨.completed, 0, [⟨"no-negative-balance", "holder has balance -1", 3, [], none, ""⟩],
    some "invariant `no-negative-balance` violated at step 3: holder has balance -1"⟩

/-- A run that its runner ends with it. -/
def overdrawnRun : List Queue.Act :=
  World.createAct ++ World.claimAct ++ World.startAct ++
    [.answer 0 (.ok overdrawnResult), .proceed 0, .call 0 id id, .pg (.exec 4), .pg (.exec 4), .pg (.exec 4),
      .pg (.commit 4)]

/-- What the first worker's runner answered. -/
def answered : Queue.Event → Option (Queue.RunJob × Queue.RunResult)
  | .ran 0 job (.ok result) => some (job, result)
  | _ => none

theorem ran_of_answered {e : Queue.Event} {job : Queue.RunJob} {result : Queue.RunResult}
    (h : answered e = some (job, result)) : e = .ran 0 job (.ok result) := by
  unfold answered at h
  split at h
  · cases h
    rfl
  · cases h

theorem violation_shown_overdrawn : ∃ s id b,
    World.play (fun _ => Queue.tokenWorker) World.init overdrawnRun = some s ∧
    listFindingsForRun decimalIds (fun i => .ok (Store.getRun s.pg.db 0 i))
      (fun i => .ok (Store.listFindingsForRun s.pg.db i)) "2" =
        .ok [⟨id, 2, "no-negative-balance", "holder has balance -1", 3, b⟩] := by
  obtain ⟨s, hs⟩ := Option.isSome_iff_exists.mp
    (show (World.play (fun _ => Queue.tokenWorker) World.init overdrawnRun).isSome = true by decide)
  have hran : (World.play (fun _ => Queue.tokenWorker) World.init overdrawnRun).any (fun s =>
      s.log.any fun e => answered e = some (⟨2, 1, "token_fuzz", [], 60⟩, overdrawnResult)) = true := by decide
  have hfin : (World.play (fun _ => Queue.tokenWorker) World.init overdrawnRun).any (fun s =>
      (World.commits s.log).any fun c => (ended c).any fun x => x.1 = 2) = true := by decide
  rw [hs] at hran hfin
  obtain ⟨e, he, hran⟩ := List.any_eq_true.mp (show s.log.any _ = true from hran)
  obtain ⟨c, hc, hfin⟩ := List.any_eq_true.mp (show (World.commits s.log).any _ = true from hfin)
  obtain rfl := ran_of_answered (of_decide_eq_true hran)
  obtain ⟨⟨runId, f⟩, hended, hid⟩ := (Option.any_eq_true _ _).mp hfin
  obtain rfl : runId = 2 := of_decide_eq_true hid
  have hprints : Prints overdrawnSandbox nightlyFuzz ⟨2, 1, "token_fuzz", [], 60⟩ overdrawn overdrawnOutput :=
    ⟨rfl, rfl, ⟨77, rfl, by decide⟩, "\n", "", by decide, by decide⟩
  obtain ⟨id, b, _, _, -, hall⟩ := violation_shown (A := decimalIds) (U := asciiOnly) (World.play_reach .init hs)
    (v := overdrawn) ⟨by decide, by decide, by decide, by decide⟩ (by decide) hprints he (finished_of_ended hc hended)
  exact ⟨s, id, b, hs, (hall s s .refl .refl).1 0 "2" (by decide)⟩

end SoroFuzz.Api
